/-
# The first closer decides

A construct between delimiters is a matter of indices: where its opener stands, where behind it the
first closer stands, and what may not stand between them (`Delimited.SpansAt`). An opener has one
first closer at most (`FirstMark.unique`). When that one is not acceptable nothing is found, and
what a later closer would close is never looked at (`delimited_grammar`).

Nothing is assumed of the tokens. A closer may be of a kind that is forbidden before it, its run may
be zero or less, and a bare array shows the same as a sequence with tables (`TokenView.IsOf`).

Key definitions: `TokenView.IsOf`, `MarkAt`, `FreeOf`, `FirstMark`, `CloserRule.ClosesAt`,
`Delimited.SpansAt`.
Key theorems: `FirstMark.unique`, `opened_at_iff`, `Delimited.spansAt_iff`, `delimited_grammar`.
-/
import InlineMarkup.Proofs.Histories
import InlineMarkup.Proofs.Recognition
import InlineMarkup.Tokenizer

namespace InlineMarkup

/-! ### Views of tokens -/

/-- The views of a list of tokens: a bare array, and a sequence with tables, whatever precedes
it and whatever it was asked before. -/
inductive TokenView.IsOf (ts : List Token) : TokenView → Prop
  | plain : IsOf ts (.plain ts.toArray)
  | indexed (before : Option Token) (qs : List TokenQuery) :
      IsOf ts (TokenQuery.behindAll qs (.indexed (TokenSeq.ofList ts before)))

theorem TokenView.IsOf.exists_shows {ts : List Token} {view : TokenView} (h : view.IsOf ts) :
    ∃ before, view.Shows before ts := by
  cases h with
  | plain => exact ⟨none, shows_plain ts⟩
  | indexed before qs => exact ⟨before, TokenQuery.shows_behindAll ts before qs⟩

/-! ### Marks and what is free of them -/

/-- At index `i` stands a token of the type, `run` characters long. -/
def MarkAt (ts : List Token) (i : Nat) (type : TokenType) (run : Int) : Prop :=
  ∃ t ∈ ts[i]?, t.type = type ∧ (t.length : Int) = run

/-- No token of the type stands from index `i` on in front of index `j`. -/
def FreeOf (ts : List Token) (i j : Nat) (type : TokenType) : Prop :=
  ∀ k < j, i ≤ k → ∀ t ∈ ts[k]?, t.type ≠ type

/-- The first mark of a type and run from index `i` on stands at index `j`. -/
structure FirstMark (ts : List Token) (i j : Nat) (type : TokenType) (run : Int) : Prop where
  le : i ≤ j
  mark : MarkAt ts j type run
  first : ∀ k < j, i ≤ k → ¬ MarkAt ts k type run

instance (ts : List Token) (i : Nat) (type : TokenType) (run : Int) :
    Decidable (MarkAt ts i type run) :=
  inferInstanceAs (Decidable (∃ t ∈ ts[i]?, _))

instance (ts : List Token) (i j : Nat) (type : TokenType) : Decidable (FreeOf ts i j type) :=
  inferInstanceAs (Decidable (∀ k < j, _))

instance (ts : List Token) (i j : Nat) (type : TokenType) (run : Int) :
    Decidable (FirstMark ts i j type run) :=
  decidable_of_iff (i ≤ j ∧ MarkAt ts j type run ∧ ∀ k < j, i ≤ k → ¬ MarkAt ts k type run)
    ⟨fun ⟨hle, hmark, hfirst⟩ => ⟨hle, hmark, hfirst⟩,
      fun ⟨hle, hmark, hfirst⟩ => ⟨hle, hmark, hfirst⟩⟩

section Marks

variable {ts : List Token} {i j : Nat} {type : TokenType} {run : Int}

theorem markAt_iff : MarkAt ts i type run ↔
    ∃ o, ts.drop i = o :: ts.drop (i + 1) ∧ o.isMarker type run = true := by
  constructor
  · rintro ⟨o, ho, hmark⟩
    obtain ⟨hi, rfl⟩ := List.getElem?_eq_some_iff.mp ho
    exact ⟨ts[i], List.drop_eq_getElem_cons hi, Token.isMarker_iff.mpr hmark⟩
  · rintro ⟨o, ho, hmark⟩
    refine ⟨o, ?_, Token.isMarker_iff.mp hmark⟩
    rw [← List.head?_drop, ho]
    rfl

theorem MarkAt.lt_length (h : MarkAt ts i type run) : i < ts.length := by
  obtain ⟨t, ht, -⟩ := h
  exact (List.getElem?_eq_some_iff.mp ht).1

theorem FirstMark.unique {j' : Nat} (h : FirstMark ts i j type run)
    (h' : FirstMark ts i j' type run) : j' = j := by
  rcases Nat.lt_trichotomy j' j with hlt | heq | hlt
  · exact absurd h'.mark (h.first j' hlt h'.le)
  · exact heq
  · exact absurd h.mark (h'.first j hlt h.le)

end Marks

/-! ### Closers by their index -/

/-- By a rule, what starts at index `i` is closed at index `j`: there stands the first closer, and
what the rule forbids does not stand in front of it. -/
structure CloserRule.ClosesAt (r : CloserRule) (ts : List Token) (i j : Nat) : Prop where
  closer : FirstMark ts i j r.closer r.run
  line : r.allowNewline = false → FreeOf ts i j .newline
  space : r.allowSpace = false → FreeOf ts i j .space

section Closers

variable {ts : List Token} {r : CloserRule} {i j : Nat}

/-- A search passes the tokens between two indices when no closer stands there and nothing that the
rule forbids. -/
theorem forall_passes_iff : (∀ k < j, i ≤ k → ∀ u ∈ ts[k]?, r.passes u = true) ↔
    (∀ k < j, i ≤ k → ¬ MarkAt ts k r.closer r.run) ∧
      (r.allowNewline = false → FreeOf ts i j .newline) ∧
      (r.allowSpace = false → FreeOf ts i j .space) := by
  simp only [CloserRule.passes_iff]
  constructor
  · intro h
    refine ⟨?_, fun hline k hk hik u hu => (h k hk hik u hu).2.1 hline,
      fun hspace k hk hik u hu => (h k hk hik u hu).2.2 hspace⟩
    rintro k hk hik ⟨u, hu, hmark⟩
    have hother := (h k hk hik u hu).1
    rw [CloserRule.accepts, Token.isMarker_iff.mpr hmark] at hother
    cases hother
  · rintro ⟨hfirst, hline, hspace⟩ k hk hik u hu
    refine ⟨?_, fun h => hline h k hk hik u hu, fun h => hspace h k hk hik u hu⟩
    apply Bool.eq_false_iff.mpr
    intro hacc
    exact hfirst k hk hik ⟨u, hu, Token.isMarker_iff.mp hacc⟩

/-- Content that reaches up to a closer is closed where the closer stands. -/
theorem exists_closes_iff :
    (∃ content c rest, ts.drop i = content ++ c :: rest ∧ r.Closes content c ∧
      j = i + content.length) ↔ r.ClosesAt ts i j := by
  have hcloser : (∃ t ∈ ts[j]?, r.accepts t = true) ↔ MarkAt ts j r.closer r.run := by
    simp only [CloserRule.accepts, Token.isMarker_iff]
    rfl
  unfold CloserRule.Closes
  simp only [and_assoc]
  rw [exists_split_iff, hcloser, forall_passes_iff]
  constructor
  · rintro ⟨hle, hmark, hfirst, hline, hspace⟩
    exact ⟨⟨hle, hmark, hfirst⟩, hline, hspace⟩
  · rintro ⟨⟨hle, hmark, hfirst⟩, hline, hspace⟩
    exact ⟨hle, hmark, hfirst, hline, hspace⟩

theorem opened_at_iff {type : TokenType} {run : Int} :
    (MarkAt ts i type run ∧ r.ClosesAt ts (i + 1) j) ↔
      ∃ o content c rest, ts.drop i = o :: (content ++ c :: rest) ∧ o.isMarker type run = true ∧
        r.Closes content c ∧ j = i + 1 + content.length := by
  rw [markAt_iff, ← exists_closes_iff]
  constructor
  · rintro ⟨⟨o, ho, hmark⟩, content, c, rest, hts, hcl, hj⟩
    exact ⟨o, content, c, rest, by rw [ho, hts], hmark, hcl, hj⟩
  · rintro ⟨o, content, c, rest, hts, hmark, hcl, hj⟩
    have hafter : ts.drop (i + 1) = content ++ c :: rest := drop_succ_of_drop_eq hts
    exact ⟨⟨o, by rw [hts, hafter], hmark⟩, content, c, rest, hafter, hcl, hj⟩

end Closers

/-! ### Constructs between delimiters -/

/-- A construct stands between the index of its opener and that of its closer: the closer is the
first one behind the opener, with something before it, and nothing that the construct forbids
stands between the two. -/
structure Delimited.SpansAt (d : Delimited) (ts : List Token) (start close : Nat) : Prop where
  filled : start + 1 < close
  opens : MarkAt ts start d.marker d.run
  closes : FirstMark ts (start + 1) close (d.closer.getD d.marker) d.run
  line : d.allowNewline = false → FreeOf ts (start + 1) close .newline
  space : d.allowSpace = false → FreeOf ts (start + 1) close .space
  edges : d.allowEdgeSpace = false →
    (∀ t ∈ ts[start + 1]?, t.type ≠ .space) ∧ ∀ t ∈ ts[close - 1]?, t.type ≠ .space

instance (d : Delimited) (ts : List Token) (start close : Nat) :
    Decidable (d.SpansAt ts start close) :=
  decidable_of_iff (start + 1 < close ∧ MarkAt ts start d.marker d.run ∧
      FirstMark ts (start + 1) close (d.closer.getD d.marker) d.run ∧
      (d.allowNewline = false → FreeOf ts (start + 1) close .newline) ∧
      (d.allowSpace = false → FreeOf ts (start + 1) close .space) ∧
      (d.allowEdgeSpace = false →
        (∀ t ∈ ts[start + 1]?, t.type ≠ .space) ∧ ∀ t ∈ ts[close - 1]?, t.type ≠ .space))
    ⟨fun ⟨hfilled, hopens, hcloses, hline, hspace, hedges⟩ =>
      ⟨hfilled, hopens, hcloses, hline, hspace, hedges⟩,
      fun ⟨hfilled, hopens, hcloses, hline, hspace, hedges⟩ =>
      ⟨hfilled, hopens, hcloses, hline, hspace, hedges⟩⟩

section Delimited

variable {d : Delimited} {ts : List Token} {start close : Nat}

theorem Delimited.spansAt_iff : d.SpansAt ts start close ↔ ∃ o content c rest,
    ts.drop start = o :: (content ++ c :: rest) ∧ o.isMarker d.marker d.run = true ∧
      content ≠ [] ∧ d.closerRule.Closes content c ∧ d.EdgesFit content ∧
      close = start + 1 + content.length := by
  constructor
  · rintro ⟨hfilled, hopens, hcloses, hline, hspace, hedges⟩
    obtain ⟨o, content, c, rest, hts, ho, hcl, rfl⟩ :=
      opened_at_iff.mp ⟨hopens, show d.closerRule.ClosesAt .. from ⟨hcloses, hline, hspace⟩⟩
    have hne : content ≠ [] := by
      apply List.length_pos_iff.mp
      omega
    refine ⟨o, content, c, rest, hts, ho, hne, hcl, ?_, rfl⟩
    obtain ⟨hfirst, hlast⟩ := ends_opened hts hne
    rw [hfirst, hlast] at hedges
    cases he : d.allowEdgeSpace with
    | true => exact .inl he
    | false => exact .inr (hedges he)
  · rintro ⟨o, content, c, rest, hts, ho, hne, hcl, hedge, rfl⟩
    obtain ⟨hopens, hcloses, hline, hspace⟩ :=
      opened_at_iff.mpr ⟨o, content, c, rest, hts, ho, hcl, rfl⟩
    have hpos : 0 < content.length := List.length_pos_iff.mpr hne
    refine ⟨by omega, hopens, hcloses, hline, hspace, fun he => ?_⟩
    obtain ⟨hfirst, hlast⟩ := ends_opened hts hne
    rw [hfirst, hlast]
    exact hedge.resolve_left (Bool.eq_false_iff.mp he)

theorem Delimited.SpansAt.unique {close' : Nat} (h : d.SpansAt ts start close)
    (h' : d.SpansAt ts start close') : close' = close :=
  h.closes.unique h'.closes

/-- What is found is what stands between the delimiters. -/
theorem Delimited.attempt_eq_some_iff_spansAt {view : TokenView} {before : Option Token}
    (h : view.Shows before ts) (start : Nat) (found : Match) :
    d.attempt view start = some found ↔ ∃ close, d.SpansAt ts start close ∧
      found = { node := d.build (ts.extract (start + 1) close)
                consumed := (close : Int) - start + 1 } := by
  rw [d.attempt_eq_some_iff h]
  constructor
  · rintro ⟨o, content, c, rest, hts, ho, hne, hcl, hedge, rfl⟩
    refine ⟨start + 1 + content.length, ?_, ?_⟩
    · exact Delimited.spansAt_iff.mpr ⟨o, content, c, rest, hts, ho, hne, hcl, hedge, rfl⟩
    · rw [extract_opened hts, Match.mk.injEq]
      exact ⟨rfl, by omega⟩
  · rintro ⟨close, hspans, rfl⟩
    obtain ⟨o, content, c, rest, hts, ho, hne, hcl, hedge, rfl⟩ := Delimited.spansAt_iff.mp hspans
    refine ⟨o, content, c, rest, hts, ho, hne, hcl, hedge, ?_⟩
    rw [extract_opened hts, Match.mk.injEq]
    exact ⟨rfl, by omega⟩

/-- **A construct between delimiters is found exactly where it stands**: where an opener has a
first closer, and that one is acceptable. A closer behind the first one is never tried. -/
theorem delimited_grammar (d : Delimited) {ts : List Token} {view : TokenView}
    (hview : view.IsOf ts) (start : Nat) :
    (∀ found, d.attempt view start = some found ↔ ∃ close, d.SpansAt ts start close ∧
      found = { node := d.build (ts.extract (start + 1) close)
                consumed := (close : Int) - start + 1 }) ∧
    (d.attempt view start = none ↔ ∀ close, ¬ d.SpansAt ts start close) ∧
    (∀ close close', d.SpansAt ts start close → d.SpansAt ts start close' → close' = close) ∧
    ∀ close, FirstMark ts (start + 1) close (d.closer.getD d.marker) d.run →
      ¬ d.SpansAt ts start close → d.attempt view start = none := by
  obtain ⟨before, hshows⟩ := hview.exists_shows
  have hsome := d.attempt_eq_some_iff_spansAt hshows start
  have hnone : d.attempt view start = none ↔ ∀ close, ¬ d.SpansAt ts start close := by
    rw [Option.eq_none_iff_forall_ne_some]
    constructor
    · intro hno close hspans
      exact hno _ ((hsome _).mpr ⟨close, hspans, rfl⟩)
    · intro hno found hfound
      obtain ⟨close, hspans, -⟩ := (hsome found).mp hfound
      exact hno close hspans
  refine ⟨hsome, hnone, fun close close' h h' => h.unique h', fun close hfirst hspans => ?_⟩
  -- a later closer would be a first one, too
  refine hnone.mpr fun close' hspans' => hspans ?_
  rwa [← hfirst.unique hspans'.closes]

/-- A line break closes although none may stand before the closer. No italic text ends behind a
space, also when a second closer follows. -/
theorem delimited_grammar_line_break :
    (TokenQuery.behindAll [.closer 0 { closer := .hash }]
      (.indexed (TokenSeq.ofList (tokenize "*a\n")))).IsOf (tokenize "*a\n") ∧
    Delimited.attempt { name := "line", marker := .asterisk, run := 1, closer := some .newline
                        build := fun ts => .code (joinTokens ts) }
        (TokenQuery.behindAll [.closer 0 { closer := .hash }]
          (.indexed (TokenSeq.ofList (tokenize "*a\n")))) 0 =
      some { node := .code "a", consumed := 3 } ∧
    FirstMark (tokenize "*a *b*") 1 3 .asterisk 1 ∧
    ¬ italic.SpansAt (tokenize "*a *b*") 0 3 ∧
    MarkAt (tokenize "*a *b*") 5 .asterisk 1 ∧
    italic.attempt (.plain (tokenize "*a *b*").toArray) 0 = none := by
  have hview : (TokenQuery.behindAll [.closer 0 { closer := .hash }]
      (.indexed (TokenSeq.ofList (tokenize "*a\n")))).IsOf (tokenize "*a\n") := .indexed none _
  have hfirst : FirstMark (tokenize "*a *b*") 1 3 .asterisk 1 := by decide
  have hspans : ¬ italic.SpansAt (tokenize "*a *b*") 0 3 := by decide
  refine ⟨hview, ?_, hfirst, hspans, by decide, ?_⟩
  · exact ((delimited_grammar _ hview 0).1 _).mpr ⟨2, by decide, rfl⟩
  · exact (delimited_grammar italic .plain 0).2.2.2 3 hfirst hspans

end Delimited

end InlineMarkup
