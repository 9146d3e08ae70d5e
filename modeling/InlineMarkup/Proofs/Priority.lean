/-
# Priority matters only among equal openers

Of constructs with different openers at most one is found at a position, so it makes no
difference in which order their matchers are tried (`Engine.first?_perm`). Nor does it
matter that a matcher is tried which no token can open (`firstMatch?_insert`): the tokens
between delimiters are tokens of the note, so none of them opens it inside a container
either. In both cases the engines agree, and with them all they leave: nodes, failures
and events.

Key theorems: `Engine.first?_eq_some_iff`, `Engine.first?_perm`, `parse_priority`.
-/
import InlineMarkup.Proofs.Comparison
import InlineMarkup.Proofs.Openers
import InlineMarkup.Tokenizer

namespace InlineMarkup

/-! ### Another order -/

namespace Engine

variable {e e' : Engine} {cs cs' : List Construct}

theorem first?_eq_some_iff (he : e.matchers = cs.map Construct.matcher)
    (hdistinct : (cs.map Construct.opener).Nodup) {before : Option Token} {rest : List Token}
    {m : Matcher} {found : Match} : e.first? before rest = some (m, found) ↔
      ∃ c ∈ cs, m = c.matcher ∧ c.matcher.recognise before rest = some found := by
  constructor
  · intro h
    obtain ⟨hm, hfound⟩ := mem_of_firstMatch? e.matchers h
    rw [he] at hm
    obtain ⟨c, hc, rfl⟩ := List.mem_map.mp hm
    exact ⟨c, hc, rfl, hfound⟩
  · rintro ⟨c, hc, rfl, hfound⟩
    have hm : c.matcher ∈ e.matchers := he ▸ List.mem_map_of_mem hc
    obtain ⟨node, consumed⟩ := found
    obtain ⟨span, rest, rfl, hform, rfl⟩ := c.recognise_eq_some_iff.mp hfound
    exact first?_of_forms (he ▸ List.Subset.refl _) hdistinct hc hm hform

/-- **Constructs with different openers may be tried in any order.** -/
theorem first?_perm (he : e.matchers = cs.map Construct.matcher)
    (he' : e'.matchers = cs'.map Construct.matcher) (hdistinct : (cs.map Construct.opener).Nodup)
    (hperm : cs.Perm cs') (before : Option Token) (rest : List Token) :
    e'.first? before rest = e.first? before rest := by
  have hdistinct' : (cs'.map Construct.opener).Nodup :=
    (hperm.map Construct.opener).nodup_iff.mp hdistinct
  apply Option.ext
  rintro ⟨m, found⟩
  rw [first?_eq_some_iff he hdistinct, first?_eq_some_iff he' hdistinct']
  simp only [hperm.mem_iff]

theorem agree_of_perm (hdistinct : (cs.map Construct.opener).Nodup) (hperm : cs.Perm cs')
    (limit : Nat) (coalesce : Bool) :
    Agree ⟨cs.map Construct.matcher, limit, coalesce⟩ ⟨cs'.map Construct.matcher, limit, coalesce⟩
      fun levels levels' _ => levels' = levels where
  coalesce := rfl
  finds := by
    intro levels levels' ts _ before p
    have hfirst := firstMatch?_eq_first? (e := ⟨cs.map Construct.matcher, limit, coalesce⟩)
      (List.Subset.refl _) ts before p
    have hfirst' := firstMatch?_eq_first? (e := ⟨cs'.map Construct.matcher, limit, coalesce⟩)
      (List.Subset.refl _) ts before p
    exact hfirst'.trans ((first?_perm rfl rfl hdistinct hperm _ _).trans hfirst.symm)
  opens := by
    rintro levels levels' ts content rfl -
    cases levels' with
    | zero => exact .inl ⟨rfl, rfl, rfl⟩
    | succ n => exact .inr ⟨n, n, rfl, rfl, rfl⟩

end Engine

/-! ### One matcher more -/

theorem firstMatch?_insert {view : TokenView} {p : Nat} {m : Matcher} (h : m.attempt view p = none)
    (ms' : List Matcher) : ∀ ms : List Matcher,
    firstMatch? (ms ++ m :: ms') view p = firstMatch? (ms ++ ms') view p
  | [] => by rw [List.nil_append, List.nil_append, firstMatch?, h]
  | m' :: ms => by
    rw [List.cons_append, List.cons_append, firstMatch?, firstMatch?, firstMatch?_insert h ms' ms]

theorem Delimited.attempt_eq_none (d : Delimited) {ts : List Token}
    (h : ∀ t ∈ ts, (t.type, (t.length : Int)) ≠ (Construct.delimited d).opener)
    (before : Option Token) (p : Nat) : d.attempt (.indexed (TokenSeq.ofList ts before)) p = none := by
  cases hfound : d.attempt (.indexed (TokenSeq.ofList ts before)) p with
  | none => rfl
  | some found =>
    obtain ⟨o, content, c, rest, hdrop, opens, -⟩ :=
      (d.attempt_eq_some_iff (TokenView.shows_ofList ts before)).mp hfound
    have hmem : o ∈ ts := List.mem_of_mem_drop (hdrop ▸ List.mem_cons_self)
    have hkind : (o.type, (o.length : Int)) = (d.marker, d.run) := by
      simpa [Token.isMarker] using opens
    exact absurd hkind (h o hmem)

/-- A matcher more makes no difference on tokens none of which is its opener: the content
of containers is made of the same tokens. -/
theorem agree_of_unopened {cs cs' : List Construct} {d : Delimited}
    (hkeep : ∀ c ∈ cs ++ cs', c.KeepsContent) (limit : Nat) (coalesce : Bool) :
    Engine.Agree ⟨(cs ++ cs').map Construct.matcher, limit, coalesce⟩
      ⟨(cs ++ .delimited d :: cs').map Construct.matcher, limit, coalesce⟩
      fun levels levels' ts => levels' = levels ∧
        ∀ t ∈ ts, (t.type, (t.length : Int)) ≠ (Construct.delimited d).opener where
  coalesce := rfl
  finds := by
    rintro levels levels' ts ⟨-, hts⟩ before p
    have hnone : (Construct.delimited d).matcher.attempt (.indexed (TokenSeq.ofList ts before)) p = none :=
      d.attempt_eq_none hts before p
    simp only [List.map_append, List.map_cons]
    exact firstMatch?_insert hnone _ _
  opens := by
    rintro levels levels' ts content ⟨rfl, hts⟩ hopens
    have hslice := hopens.isInfix (List.Subset.refl _) (boxedBy_containerMakers hkeep)
    have hcontent := fun t ht => hts t (hslice.subset ht)
    cases levels' with
    | zero => exact .inl ⟨rfl, rfl, rfl⟩
    | succ n => exact .inr ⟨n, n, rfl, rfl, rfl, hcontent⟩

/-- **Priority matters only among equal openers.** Constructs with different openers, as the
built-in ones are, may be tried in any order. One more construct between delimiters makes no
difference, if no token of the note is its opener. -/
theorem parse_priority :
    (∀ cs cs' : List Construct, (cs.map Construct.opener).Nodup → cs.Perm cs' →
      ∀ (limit : Nat) (coalesce : Bool) (ts : List Token),
        Engine.parse ⟨cs'.map Construct.matcher, limit, coalesce⟩ ts =
          Engine.parse ⟨cs.map Construct.matcher, limit, coalesce⟩ ts) ∧
    (builtInConstructs.map Construct.opener).Nodup ∧
    ∀ (cs cs' : List Construct) (d : Delimited), (∀ c ∈ cs ++ cs', c.KeepsContent) →
      ∀ (limit : Nat) (coalesce : Bool) (ts : List Token),
        (∀ t ∈ ts, (t.type, (t.length : Int)) ≠ (Construct.delimited d).opener) →
        Engine.parse ⟨(cs ++ .delimited d :: cs').map Construct.matcher, limit, coalesce⟩ ts =
          Engine.parse ⟨(cs ++ cs').map Construct.matcher, limit, coalesce⟩ ts := by
  refine ⟨fun cs cs' hdistinct hperm limit coalesce ts => ?_, openers_builtIns.1,
    fun cs cs' d hkeep limit coalesce ts hts => ?_⟩
  · exact (Engine.agree_of_perm hdistinct hperm limit coalesce).pass_eq rfl none
  · exact (agree_of_unopened hkeep limit coalesce).pass_eq ⟨rfl, hts⟩ none

/-- A construct that is not among the built-in ones. -/
def spoiler : Delimited :=
  { name := "spoiler", marker := .underscore, run := 2, build := fun ts => .text (joinTokens ts) }

/-- With one level, the built-in constructs refuse the italic text inside bold text in
reverse order as in theirs. A spoiler is not opened by a single underscore. -/
theorem parse_priority_reverse :
    Engine.parse ⟨builtInConstructs.reverse.map Construct.matcher, 1, true⟩ (tokenize "**a *b* [c**") =
      Engine.parse ⟨builtInConstructs.map Construct.matcher, 1, true⟩ (tokenize "**a *b* [c**") ∧
    (∀ t ∈ tokenize "**_a_ #b**", (t.type, (t.length : Int)) ≠ (Construct.delimited spoiler).opener) ∧
    Engine.parse ⟨([Construct.delimited bold] ++ Construct.delimited spoiler ::
        [Construct.tag "tag"]).map Construct.matcher, 1, true⟩ (tokenize "**_a_ #b**") =
      Engine.parse ⟨([Construct.delimited bold] ++ [Construct.tag "tag"]).map Construct.matcher, 1, true⟩
        (tokenize "**_a_ #b**") := by
  obtain ⟨horder, hdistinct, hmore⟩ := parse_priority
  have hunopened : ∀ t ∈ tokenize "**_a_ #b**",
      (t.type, (t.length : Int)) ≠ (Construct.delimited spoiler).opener := by decide
  have hsub : [Construct.delimited bold] ++ [.tag "tag"] ⊆ builtInConstructs := by
    simp [builtInConstructs]
  exact ⟨horder _ _ hdistinct builtInConstructs.reverse_perm.symm 1 true _, hunopened,
    hmore _ _ _ (fun c hc => keepsContent_builtIns c (hsub hc)) 1 true _ hunopened⟩

end InlineMarkup
