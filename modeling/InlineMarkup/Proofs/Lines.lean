/-
# Lines are read one by one

No span of a built-in construct holds a line break, and in front of a line break a
construct is found exactly if it is found in front of nothing. So the tokens of a
line are read as if no further line followed (`Engine.Reads.append_line`), and the
tokens behind a line break as if none went before, since a word may start behind it
as at the start of a note.

Key theorems: `Construct.Forms.one_line`, `Construct.recognise_line`,
`Engine.Reads.append_line`, `parse_lines`.
-/
import InlineMarkup.Proofs.Openers
import InlineMarkup.Proofs.Relabelling
import InlineMarkup.Proofs.StandardParse
import InlineMarkup.Proofs.Tokenization

namespace InlineMarkup

/-! ### Spans of one line -/

theorem Token.ne_newline_of_isMarker {t : Token} {type : TokenType} {run : Int}
    (hm : type.isMarkup = true) (h : t.isMarker type run = true) : t.type ≠ .newline := by
  intro hnew
  have htype : type = .newline := (Token.type_of_isMarker h).symm.trans hnew
  rw [htype] at hm
  cases hm

namespace CloserRule

variable {r : CloserRule} {content : List Token} {c : Token}

/-- Up to a closer there is no line break, unless the rule allows it. -/
theorem Closes.one_line (h : r.Closes content c) (hr : r.allowNewline = false) :
    ∀ t ∈ content, t.type ≠ .newline := by
  intro t ht
  obtain ⟨-, hline, -⟩ := passes_iff.mp (h.1 t ht)
  exact hline hr

theorem Closes.closer_ne_newline (h : r.Closes content c) (hr : r.closer.isMarkup = true) :
    c.type ≠ .newline :=
  Token.ne_newline_of_isMarker hr h.2

end CloserRule

theorem allowNewline_of_mem {d : Delimited} (hd : .delimited d ∈ builtInConstructs) :
    d.closerRule.allowNewline = false := by
  rcases eq_of_delimited_mem hd with rfl | rfl | rfl | rfl | rfl | rfl <;> rfl

theorem Bracketed.one_line {span label url : List Token} (h : Bracketed span label url) :
    ∀ t ∈ span, t.type ≠ .newline := by
  obtain ⟨opens, closes, turns, -, ends⟩ := h
  simp only [List.mem_cons, List.mem_append, List.not_mem_nil, or_false]
  rintro t (rfl | ht | rfl | rfl | ht | rfl)
  · exact Token.ne_newline_of_isMarker rfl opens
  · exact closes.one_line rfl t ht
  · exact closes.closer_ne_newline rfl
  · exact Token.ne_newline_of_isMarker rfl turns
  · exact ends.one_line rfl t ht
  · exact ends.closer_ne_newline rfl

/-- **No span reaches over a line break.** -/
theorem Construct.Forms.one_line {c : Construct} (hc : c ∈ builtInConstructs)
    {before : Option Token} {span rest : List Token} {node : Node}
    (h : c.Forms before span rest node) : ∀ t ∈ span, t.type ≠ .newline := by
  have hmarked := marked_of_mem hc
  cases h with
  | delimited opens _ closes _ =>
    simp only [List.mem_cons, List.mem_append, List.not_mem_nil, or_false]
    rintro t (rfl | ht | rfl)
    · exact Token.ne_newline_of_isMarker hmarked.1 opens
    · exact closes.one_line (allowNewline_of_mem hc) t ht
    · exact closes.closer_ne_newline hmarked.2
  | link parts => exact parts.one_line
  | image opens parts =>
    rw [List.forall_mem_cons]
    exact ⟨Token.ne_newline_of_isMarker rfl opens, parts.one_line⟩
  | tag opens _ _ goes _ =>
    rw [List.forall_mem_cons]
    refine ⟨Token.ne_newline_of_isMarker rfl opens, fun t ht hnew => goes t ht ?_⟩
    rw [hnew]
    decide

/-! ### What is found in front of a line break -/

variable {nl : Token} {xs ys : List Token}

theorem exists_rest_of_one_line {span rest : List Token} (hnl : nl.type = .newline)
    (hspan : ∀ t ∈ span, t.type ≠ .newline) (h : xs ++ nl :: ys = span ++ rest) :
    ∃ rest', xs = span ++ rest' ∧ rest = rest' ++ nl :: ys := by
  rcases List.append_eq_append_iff.mp h with ⟨more, rfl, hmore⟩ | ⟨rest', hxs, hrest⟩
  · cases more with
    | nil => exact ⟨[], by simp, by simpa using hmore.symm⟩
    | cons t more =>
      -- the line break would be a token of the span
      obtain ⟨rfl, -⟩ := List.cons.inj hmore
      exact absurd hnl (hspan _ (by simp))
  · exact ⟨rest', hxs, hrest⟩

theorem endsWord_line (hnl : nl.type = .newline) (rest : List Token) :
    (∀ t ∈ (rest ++ nl :: ys).head?, t.type ∈ tagStops) ↔ ∀ t ∈ rest.head?, t.type ∈ tagStops := by
  cases rest with
  | nil =>
    have hstop : nl.type ∈ tagStops := by
      rw [hnl]
      decide
    simp [hstop]
  | cons t rest => simp

/-- **A construct does not look beyond a line break.** -/
theorem Construct.recognise_line {c : Construct} (hc : c ∈ builtInConstructs)
    (hnl : nl.type = .newline) (before : Option Token) :
    c.matcher.recognise before (xs ++ nl :: ys) = c.matcher.recognise before xs := by
  ext found
  rw [c.recognise_eq_some_iff, c.recognise_eq_some_iff]
  constructor
  · rintro ⟨span, rest, hsplit, hform, hlen⟩
    obtain ⟨rest', hxs, rfl⟩ := exists_rest_of_one_line hnl (hform.one_line hc) hsplit
    exact ⟨span, rest', hxs, hform.of_context id (endsWord_line hnl rest').mp, hlen⟩
  · rintro ⟨span, rest, rfl, hform, hlen⟩
    exact ⟨span, rest ++ nl :: ys, List.append_assoc .., hform.of_context id (endsWord_line hnl rest).mpr,
      hlen⟩

namespace Engine

variable {e : Engine}

theorem first?_line (he : e.matchers ⊆ builtIns) (hnl : nl.type = .newline)
    (before : Option Token) : e.first? before (xs ++ nl :: ys) = e.first? before xs :=
  firstMatch?_congr e.matchers fun m hm => by
    obtain ⟨c, hc, rfl⟩ := List.mem_map.mp (he hm)
    exact c.recognise_line hc hnl before

theorem first?_newline (he : e.matchers ⊆ builtIns) (hnl : nl.type = .newline)
    (before : Option Token) : e.first? before (nl :: ys) = none := by
  have hplain : nl.type.isMarkup = false := by
    rw [hnl]
    rfl
  exact first?_of_not_markup he hplain before ys

/-- **A line, a line break and what follows are read one by one.** The induction is on
the reading of the line. -/
theorem Reads.append_line (he : e.matchers ⊆ builtIns) (hnl : nl.type = .newline) {levels : Nat}
    {before : Option Token} {na nb : List Node} (h : e.Reads levels before xs na)
    (hb : e.Reads levels (some nl) ys nb) :
    e.Reads levels before (xs ++ nl :: ys) (na ++ .text nl.value :: nb) := by
  induction h with
  | done => exact .literal (first?_newline he hnl _) hb
  | literal nothing next ih =>
    exact .literal ((first?_line he hnl _).trans nothing) (ih hb)
  | refused first box next ih =>
    exact .refused ((first?_line he hnl _).trans first) box (ih hb)
  | leaf split first covers plain next ih =>
    subst split
    refine .leaf ?_ ((first?_line he hnl _).trans first) covers plain (ih hb)
    rw [List.append_assoc]
  | container split first covers nested next _ ihNext =>
    subst split
    refine .container ?_ ((first?_line he hnl _).trans first) covers nested (ihNext hb)
    rw [List.append_assoc]

end Engine

/-! ### The lines of a note -/

/-- The token of a line break. -/
def lineBreak (c : Char) (offset : Nat) : Token where
  type := .newline
  value := String.singleton c
  offset := offset

theorem tokenize_lines (a b : String) {c : Char} (hc : c = '\n' ∨ c = '\r') :
    tokenize (a ++ String.singleton c ++ b) = tokenize a ++ lineBreak c a.length ::
      (tokenize b).map (Token.shift (a.length + 1)) := by
  have htype : TokenType.ofChar c = .newline := (TokenType.ofChar_eq_newline_iff c).mpr hc
  have hright : ∀ d, sameRun c d = false := fun d => by simp [sameRun, htype]
  have hleft : ∀ d, sameRun d c = false := fun d => by simp [sameRun, htype]
  have hbreak : tokensFrom a.length [c] = [lineBreak c a.length] := by
    rw [tokensFrom_run _ (List.cons_ne_nil _ _) (List.isChain_singleton _), tokenOfRun, runType, htype]
    rfl
  have hrest : tokensFrom (a.length + 1) b.toList = (tokenize b).map (Token.shift (a.length + 1)) :=
    tokensFrom_eq_shift (a.length + 1) b
  have hchars : (a ++ String.singleton c ++ b).toList = a.toList ++ ([c] ++ b.toList) := by
    simp
  rw [tokenize, hchars, tokensFrom_append, tokensFrom_append, Nat.zero_add, String.length_toList,
    hbreak, List.length_singleton, hrest]
  · rfl
  · intro x hx y hy
    obtain rfl : c = x := by simpa using hx
    exact hright y
  · intro x hx y hy
    obtain rfl : c = y := by simpa using hy
    exact hleft x

/-- Merged on both sides of a node or not, the whole is merged to the same. -/
theorem finish_around (e : Engine) (r : Relabelling) (na nb : List Node) (n : Node) :
    e.finish (e.finish na ++ n :: (e.finish nb).map r.node) =
      e.finish (na ++ n :: nb.map r.node) := by
  rw [← r.finish_map]
  unfold Engine.finish
  split
  · have hright := mergeTexts_append_right (na ++ [n]) (nb.map r.node)
    rw [List.append_assoc, List.append_assoc] at hright
    rw [mergeTexts_append_left]
    exact hright
  · rfl

theorem exists_parse_lines {e : Engine} (he : e.matchers ⊆ builtIns) (a b : String) {c : Char}
    (hc : c = '\n' ∨ c = '\r') : ∃ na nb, (e.parse (tokenize a)).result = .ok na ∧
      (e.parse (tokenize b)).result = .ok nb ∧
      (e.parse (tokenize (a ++ String.singleton c ++ b))).result =
        .ok (e.finish (na ++ .text (String.singleton c) :: nb.map (Node.shift (a.length + 1)))) := by
  obtain ⟨na, ha, hpa⟩ := Engine.exists_reads he e.limit none (tokenize a)
  obtain ⟨nb, hb, hpb⟩ := Engine.exists_reads he e.limit none (tokenize b)
  have hopens : opensWord (some (lineBreak c a.length)) = opensWord none := rfl
  have hline : (lineBreak c a.length).type = .newline := rfl
  have hreads := ha.append_line he hline (hb.shift he (a.length + 1) hopens)
  rw [← tokenize_lines a b hc] at hreads
  refine ⟨e.finish na, e.finish nb, hpa, hpb, (Engine.parse_eq_ok_iff he).mpr ⟨_, hreads, ?_⟩⟩
  exact finish_around e (Relabelling.shift (a.length + 1)) na nb _

/-- **Lines are independent.** Two texts with a line break between them parse to the nodes of the
first, a text that is the line break, and the nodes of the second, further on in the note. If
texts are merged, they are merged across the line break. -/
theorem parse_lines :
    (∀ e : Engine, e.matchers ⊆ builtIns → ∀ (a b : String) (c : Char), c = '\n' ∨ c = '\r' →
      ∃ na nb, (e.parse (tokenize a)).result = .ok na ∧ (e.parse (tokenize b)).result = .ok nb ∧
        (e.coalesce = false → (e.parse (tokenize (a ++ String.singleton c ++ b))).result =
          .ok (na ++ .text (String.singleton c) :: nb.map (Node.shift (a.length + 1)))) ∧
        (e.coalesce = true → (e.parse (tokenize (a ++ String.singleton c ++ b))).result =
          .ok (mergeTexts
            (na ++ .text (String.singleton c) :: nb.map (Node.shift (a.length + 1)))))) ∧
    ∀ (own : Option Settings) (ambient : Settings),
      (own.getD ambient).registryInUse.entries ⊆ Entry.builtIns →
      ∀ (a b : String) (c : Char), c = '\n' ∨ c = '\r' →
      ∃ na nb, ((parseInline a own).run ambient).1.result = .ok (Node.storedAll na) ∧
        ((parseInline b own).run ambient).1.result = .ok (Node.storedAll nb) ∧
        ((parseInline (a ++ String.singleton c ++ b) own).run ambient).1.result =
          .ok (Node.storedAll (if (own.getD ambient).coalesce.truthy
            then mergeTexts (na ++ .text (String.singleton c) :: nb.map (Node.shift (a.length + 1)))
            else na ++ .text (String.singleton c) :: nb.map (Node.shift (a.length + 1)))) := by
  refine ⟨fun e he a b c hc => ?_, fun own ambient h a b c hc => ?_⟩
  · obtain ⟨na, nb, ha, hb, hab⟩ := exists_parse_lines he a b hc
    refine ⟨na, nb, ha, hb, fun hplain => ?_, fun hmerged => ?_⟩
    · rw [hab, Engine.finish, hplain]
      rfl
    · rw [hab, Engine.finish, hmerged]
      rfl
  · obtain ⟨e, he, -, hcoalesce, hrun⟩ := parseInline_eq h
    obtain ⟨na, nb, ha, hb, hab⟩ := exists_parse_lines he a b hc
    rw [Engine.finish, hcoalesce] at hab
    refine ⟨na, nb, ?_, ?_, ?_⟩
    · rw [hrun]
      exact Engine.result_map_of_ok _ ha
    · rw [hrun]
      exact Engine.result_map_of_ok _ hb
    · rw [hrun]
      exact Engine.result_map_of_ok _ hab

/-- Two lines, with the matchers in reverse order and with the default settings. -/
theorem parse_lines_reverse :
    (∃ na nb, (Engine.parse ⟨builtIns.reverse, 1, false⟩ (tokenize "**a")).result = .ok na ∧
      (Engine.parse ⟨builtIns.reverse, 1, false⟩ (tokenize "b** *c*")).result = .ok nb ∧
      (Engine.parse ⟨builtIns.reverse, 1, false⟩
        (tokenize ("**a" ++ String.singleton '\r' ++ "b** *c*"))).result =
          .ok (na ++ .text (String.singleton '\r') :: nb.map (Node.shift ("**a".length + 1)))) ∧
    ∃ na nb, ((parseInline "#a").run {}).1.result = .ok (Node.storedAll na) ∧
      ((parseInline "#b").run {}).1.result = .ok (Node.storedAll nb) ∧
      ((parseInline ("#a" ++ String.singleton '\n' ++ "#b")).run {}).1.result =
        .ok (Node.storedAll
          (mergeTexts (na ++ .text (String.singleton '\n') :: nb.map (Node.shift ("#a".length + 1))))) := by
  obtain ⟨hengine, hsettings⟩ := parse_lines
  refine ⟨?_, hsettings none {} (List.Subset.refl _) "#a" "#b" '\n' (.inl rfl)⟩
  obtain ⟨na, nb, ha, hb, hplain, -⟩ := hengine ⟨builtIns.reverse, 1, false⟩
    (fun m hm => List.mem_reverse.mp hm) "**a" "b** *c*" '\r' (.inr rfl)
  exact ⟨na, nb, ha, hb, hplain rfl⟩

end InlineMarkup
