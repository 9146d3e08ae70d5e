/-
# Constructs are told apart by their openers

Every span starts with the opener of its construct: a marker of a type and a run. A
token is a marker of one type and one run only, and the built-in constructs have
different openers. So at most one of them is found at a position, and what is found
first is what its construct finds, in whichever order the matchers are
(`Engine.first?_of_forms`).

Key definitions: `Construct.opener`. Key theorems: `Construct.Forms.opens`,
`Engine.first?_of_forms`, `Engine.first?_of_not_markup`, `Construct.Forms.reads`.
-/
import Mathlib.Data.List.Nodup
import InlineMarkup.Proofs.Reading

namespace InlineMarkup

/-- The type and the run of the marker that a construct starts with. -/
def Construct.opener : Construct → TokenType × Int
  | .delimited d => (d.marker, d.run)
  | .image _ => (.exclamation, 1)
  | .link _ => (.leftBracket, 1)
  | .tag _ => (.hash, 1)

theorem openers_builtIns : (builtInConstructs.map Construct.opener).Nodup ∧
    ∀ c ∈ builtInConstructs, c.opener.1.isMarkup = true := by
  decide

theorem Token.isMarkup_of_isMarker {t : Token} {type : TokenType} {run : Int}
    (hm : type.isMarkup = true) (h : t.isMarker type run = true) : t.type.isMarkup = true := by
  rw [type_of_isMarker h, hm]

theorem Construct.Forms.opens {c : Construct} {before : Option Token} {span rest : List Token}
    {node : Node} (h : c.Forms before span rest node) :
    ∃ o span', span = o :: span' ∧ o.isMarker c.opener.1 c.opener.2 = true := by
  cases h with
  | delimited opens => exact ⟨_, _, rfl, opens⟩
  | link parts =>
    cases parts with
    | intro opens => exact ⟨_, _, rfl, opens⟩
  | image opens => exact ⟨_, _, rfl, opens⟩
  | tag opens => exact ⟨_, _, rfl, opens⟩

namespace Engine

variable {e : Engine} {cs : List Construct}

/-- **What a construct finds is found first**, if all have different openers. -/
theorem first?_of_forms (he : e.matchers ⊆ cs.map Construct.matcher)
    (hdistinct : (cs.map Construct.opener).Nodup) {c : Construct} (hc : c ∈ cs)
    (hm : c.matcher ∈ e.matchers) {before : Option Token} {span rest : List Token} {node : Node}
    (h : c.Forms before span rest node) :
    e.first? before (span ++ rest) = some (c.matcher, ⟨node, span.length⟩) := by
  have hfound := h.recognise
  cases hfirst : e.first? before (span ++ rest) with
  | none =>
    have hnone := first?_eq_none_iff.mp hfirst c.matcher hm
    rw [hfound] at hnone
    cases hnone
  | some p =>
    obtain ⟨m, found⟩ := p
    obtain ⟨c', hc', rfl, span', rest', hsplit, hform, -⟩ := exists_forms_of_first? he hfirst
    -- both spans start with the same token, so the openers are the same
    obtain ⟨o, tail, rfl, ho⟩ := h.opens
    obtain ⟨o', tail', rfl, ho'⟩ := hform.opens
    obtain ⟨rfl, -⟩ := List.cons.inj hsplit
    obtain rfl := List.inj_on_of_nodup_map hdistinct hc hc' (Token.isMarker_inj ho ho')
    have hsame := (mem_of_firstMatch? e.matchers hfirst).2
    have heq := hfound.symm.trans hsame
    rw [Option.some.inj heq]

theorem first?_of_not_markup (he : e.matchers ⊆ builtIns) {t : Token}
    (ht : t.type.isMarkup = false) (before : Option Token) (ts : List Token) :
    e.first? before (t :: ts) = none := by
  cases hfirst : e.first? before (t :: ts) with
  | none => rfl
  | some p =>
    obtain ⟨m, found⟩ := p
    obtain ⟨c, hc, -, span, rest, hsplit, hform, -⟩ := exists_forms_of_first? he hfirst
    obtain ⟨o, tail, rfl, ho⟩ := hform.opens
    obtain ⟨rfl, -⟩ := List.cons.inj hsplit
    have hmarkup := Token.isMarkup_of_isMarker (openers_builtIns.2 c hc) ho
    rw [ht] at hmarkup
    cases hmarkup

end Engine

/-- A span that makes no container and behind which nothing stands is read as its node. -/
theorem Construct.Forms.reads {e : Engine} {cs : List Construct}
    (he : e.matchers ⊆ cs.map Construct.matcher) (hdistinct : (cs.map Construct.opener).Nodup)
    {c : Construct} (hc : c ∈ cs) (hm : c.matcher ∈ e.matchers) {before : Option Token}
    {ts : List Token} {node : Node} (h : c.Forms before ts [] node)
    (plain : node.isContainer = false) (levels : Nat) : e.Reads levels before ts [node] := by
  have hfirst := Engine.first?_of_forms he hdistinct hc hm h
  rw [List.append_nil] at hfirst
  exact .leaf (List.append_nil ts).symm hfirst rfl plain .done

end InlineMarkup
