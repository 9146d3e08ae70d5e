/-
# Where run and length of a token agree

The kind of a token is its type with its run, and a token that is no markup counts as a run of one
(`Token.kind`). A marker is looked for by type and length (`Token.isMarker`). The two are the same
for tokens of markup and for tokens of one character (`Token.isMarker_iff_ofKind_iff`), and for no
others: a word of two letters is of the kind of a text of run one, and a marker of run two.

Everything that looks for markers does it by length. So markers, next tokens and closers of a type
are those of the kind asked for exactly when the tokens of that type have their run for length
(`lookups_by_kind_tfae`), which is always so for a type of markup.

Key definitions: `Token.OfKind`, `RunsAreLengths`, `KindAt`, `CloserRule.ClosesByKind`,
`Delimited.SpansByKind`.
Key theorems: `Token.isMarker_iff_ofKind_iff`, `lookups_by_kind_tfae`,
`Delimited.spansAt_iff_byKind`, `marker_kinds_agree_iff`.
-/
import Mathlib.Tactic.TFAE
import InlineMarkup.Proofs.FirstClosers
import InlineMarkup.Proofs.NextTokens

namespace InlineMarkup

/-! ### Tokens -/

/-- The kind that is asked for is that of the token. -/
def Token.OfKind (t : Token) (type : TokenType) (run : Int) : Prop :=
  t.kind.1 = type ∧ (t.kind.2 : Int) = run

theorem Token.run_eq_length_iff {t : Token} :
    t.run = t.length ↔ t.type.isMarkup = true ∨ t.length = 1 := by
  unfold Token.run
  split
  · next hmarkup => exact ⟨fun _ => .inl hmarkup, fun _ => rfl⟩
  · next hmarkup => exact ⟨fun h => .inr h.symm, fun h => (h.resolve_left hmarkup).symm⟩

theorem Token.isMarker_iff_ofKind {t : Token} (h : t.run = t.length) (type : TokenType)
    (run : Int) : t.isMarker type run = true ↔ t.OfKind type run := by
  rw [Token.isMarker_iff, Token.OfKind, Token.kind, h]

/-- **A token is the marker of its kind and no other** exactly when it is of markup or one character
long. -/
theorem Token.isMarker_iff_ofKind_iff {t : Token} :
    (∀ type run, t.isMarker type run = true ↔ t.OfKind type run) ↔
      t.type.isMarkup = true ∨ t.length = 1 := by
  rw [← Token.run_eq_length_iff]
  constructor
  · intro h
    have hmarker := (h t.type t.run).mpr ⟨rfl, rfl⟩
    exact (Int.ofNat_inj.mp (Token.isMarker_iff.mp hmarker).2).symm
  · exact Token.isMarker_iff_ofKind

/-! ### Tokens in a list -/

/-- The tokens of a type have their run for length. -/
def RunsAreLengths (ts : List Token) (type : TokenType) : Prop :=
  ∀ t ∈ ts, t.type = type → t.type.isMarkup = true ∨ t.length = 1

/-- At index `i` stands a token of the kind. -/
def KindAt (ts : List Token) (i : Nat) (type : TokenType) (run : Int) : Prop :=
  ∃ t ∈ ts[i]?, t.OfKind type run

/-- By a rule, what starts at index `i` is closed at index `j`, where closers are told by their
kind. -/
structure CloserRule.ClosesByKind (r : CloserRule) (ts : List Token) (i j : Nat) : Prop where
  closer : IsLeast {k | i ≤ k ∧ KindAt ts k r.closer r.run} j
  line : r.allowNewline = false → FreeOf ts i j .newline
  space : r.allowSpace = false → FreeOf ts i j .space

/-- A construct stands between the index of its opener and that of its closer, where both are told
by their kind. -/
structure Delimited.SpansByKind (d : Delimited) (ts : List Token) (start close : Nat) : Prop where
  filled : start + 1 < close
  opens : KindAt ts start d.marker d.run
  closes : d.closerRule.ClosesByKind ts (start + 1) close
  edges : d.allowEdgeSpace = false →
    (∀ t ∈ ts[start + 1]?, t.type ≠ .space) ∧ ∀ t ∈ ts[close - 1]?, t.type ≠ .space

section Lists

variable {ts : List Token} {type : TokenType}

theorem runsAreLengths_of_isMarkup (h : type.isMarkup = true) : RunsAreLengths ts type :=
  fun _ _ htype => .inl (htype ▸ h)

theorem RunsAreLengths.isMarker_iff (h : RunsAreLengths ts type) {t : Token} (ht : t ∈ ts)
    (run : Int) : t.isMarker type run = true ↔ t.OfKind type run := by
  by_cases htype : t.type = type
  · exact Token.isMarker_iff_ofKind (Token.run_eq_length_iff.mpr (h t ht htype)) type run
  · rw [Token.isMarker_iff]
    exact ⟨fun hmarker => absurd hmarker.1 htype, fun hkind => absurd hkind.1 htype⟩

theorem RunsAreLengths.markAt_iff (h : RunsAreLengths ts type) (i : Nat) (run : Int) :
    MarkAt ts i type run ↔ KindAt ts i type run := by
  unfold MarkAt KindAt
  simp only [← Token.isMarker_iff]
  exact exists_congr fun t => and_congr_right fun ht => h.isMarker_iff (List.mem_of_getElem? ht) run

/-- Where every token of run one is a mark of run one, the tokens have their run for length. -/
theorem runsAreLengths_of_markAt (h : ∀ i, KindAt ts i type 1 → MarkAt ts i type 1) :
    RunsAreLengths ts type := by
  intro t ht htype
  by_cases hmarkup : t.type.isMarkup = true
  · exact .inl hmarkup
  · right
    obtain ⟨i, hi⟩ := List.mem_iff_getElem?.mp ht
    have hrun : t.run = 1 := if_neg hmarkup
    obtain ⟨u, hu, -, hlength⟩ := h i ⟨t, hi, htype, by rw [Token.kind, hrun]; rfl⟩
    obtain rfl := Option.some.inj (hi.symm.trans hu)
    exact Int.ofNat_inj.mp hlength

theorem firstMark_iff_isLeast {i j : Nat} {run : Int} :
    FirstMark ts i j type run ↔ IsLeast {k | i ≤ k ∧ MarkAt ts k type run} j := by
  constructor
  · rintro ⟨hle, hmark, hfirst⟩
    refine ⟨⟨hle, hmark⟩, fun k hk => ?_⟩
    by_contra hlt
    exact hfirst k (Nat.lt_of_not_le hlt) hk.1 hk.2
  · rintro ⟨⟨hle, hmark⟩, hleast⟩
    exact ⟨hle, hmark, fun k hk hik hat => absurd (hleast ⟨hik, hat⟩) (Nat.not_le_of_lt hk)⟩

theorem CloserRule.closesAt_iff_byKind {r : CloserRule} (h : RunsAreLengths ts r.closer)
    {i j : Nat} : r.ClosesAt ts i j ↔ r.ClosesByKind ts i j := by
  have hcloser : FirstMark ts i j r.closer r.run ↔
      IsLeast {k | i ≤ k ∧ KindAt ts k r.closer r.run} j := by
    simp only [firstMark_iff_isLeast, h.markAt_iff]
  constructor
  · rintro ⟨hfirst, hline, hspace⟩
    exact ⟨hcloser.mp hfirst, hline, hspace⟩
  · rintro ⟨hfirst, hline, hspace⟩
    exact ⟨hcloser.mpr hfirst, hline, hspace⟩

theorem Delimited.spansAt_iff_byKind {d : Delimited} (hopens : RunsAreLengths ts d.marker)
    (hcloses : RunsAreLengths ts (d.closer.getD d.marker)) {start close : Nat} :
    d.SpansAt ts start close ↔ d.SpansByKind ts start close := by
  have hcloser : d.closerRule.ClosesAt ts (start + 1) close ↔
      d.closerRule.ClosesByKind ts (start + 1) close := CloserRule.closesAt_iff_byKind hcloses
  have hopener := hopens.markAt_iff start d.run
  constructor
  · rintro ⟨hfilled, hmark, hfirst, hline, hspace, hedges⟩
    exact ⟨hfilled, hopener.mp hmark, hcloser.mp ⟨hfirst, hline, hspace⟩, hedges⟩
  · rintro ⟨hfilled, hkind, hclosed, hedges⟩
    obtain ⟨hfirst, hline, hspace⟩ := hcloser.mpr hclosed
    exact ⟨hfilled, hopener.mpr hkind, hfirst, hline, hspace, hedges⟩

end Lists

/-! ### Looking for markers -/

theorem TokenView.IsOf.isMarkerAt_iff {ts : List Token} {view : TokenView} (h : view.IsOf ts)
    {i : Nat} {type : TokenType} {run : Int} :
    view.isMarkerAt i type run = true ↔ MarkAt ts i type run := by
  obtain ⟨before, hshows⟩ := h.exists_shows
  rw [TokenView.isMarkerAt, hshows.get?, Option.any_eq_true]
  simp only [Token.isMarker_iff]
  rfl

theorem TokenView.IsOf.closer?_eq_some_iff {ts : List Token} {view : TokenView} (h : view.IsOf ts)
    {r : CloserRule} {start j : Nat} :
    view.closer? start r = some j ↔ r.ClosesAt ts start j := by
  obtain ⟨before, hshows⟩ := h.exists_shows
  rw [hshows.closer, CloserRule.scan?_eq_some_iff, ← exists_closes_iff]
  simp only [CloserRule.Closes, and_assoc]

theorem TokenView.IsOf.exists_tabulates {ts : List Token} {seq : TokenSeq}
    (h : (TokenView.indexed seq).IsOf ts) : ∃ before, seq.Tabulates before ts := by
  generalize hview : TokenView.indexed seq = view at h
  cases h with
  | plain => cases hview
  | indexed before qs =>
    obtain ⟨seq', hbehind, h'⟩ :=
      TokenQuery.tabulates_behindAll (TokenSeq.tabulates_ofList ts before) qs
    obtain rfl := TokenView.indexed.inj (hview.trans hbehind)
    exact ⟨before, h'⟩

/-- The markers of a type, in any view of the tokens, are the tokens of the kind asked for. -/
def MarkersByKind (ts : List Token) (type : TokenType) : Prop :=
  ∀ view : TokenView, view.IsOf ts → ∀ (i : Nat) (run : Int),
    view.isMarkerAt i type run = true ↔ KindAt ts i type run

/-- The next token of a type and a run, in any sequence of the tokens, is that of the kind. -/
def NextByKind (ts : List Token) (type : TokenType) : Prop :=
  ∀ seq : TokenSeq, (TokenView.indexed seq).IsOf ts → ∀ (start : Nat) (run : Int),
    NextAt (fun t => t.OfKind type run) ts start (seq.nextIndex start { type, run := some run })

/-- The closers of a type, in any view of the tokens and by any rule, are those by kind. -/
def ClosersByKind (ts : List Token) (type : TokenType) : Prop :=
  ∀ view : TokenView, view.IsOf ts → ∀ (r : CloserRule) (start j : Nat), r.closer = type →
    (view.closer? start r = some j ↔ r.ClosesByKind ts start j)

/-- **Markers, next tokens and closers of a type are those of the kind asked for** exactly when the
tokens of the type have their run for length. -/
theorem lookups_by_kind_tfae (ts : List Token) (type : TokenType) :
    [RunsAreLengths ts type, MarkersByKind ts type, NextByKind ts type,
      ClosersByKind ts type].TFAE := by
  have hplain : (TokenView.plain ts.toArray).IsOf ts := .plain
  have hindexed : (TokenView.indexed (TokenSeq.ofList ts)).IsOf ts := .indexed none []
  tfae_have 1 → 2 := by
    intro h view hview i run
    rw [hview.isMarkerAt_iff, h.markAt_iff]
  tfae_have 2 → 1 := by
    intro h
    refine runsAreLengths_of_markAt fun i hkind => ?_
    exact hplain.isMarkerAt_iff.mp ((h _ hplain i 1).mpr hkind)
  tfae_have 1 → 3 := by
    intro h seq hseq start run
    obtain ⟨before, htabulates⟩ := hseq.exists_tabulates
    refine (nextAt_congr fun t ht => ?_).mp (htabulates.nextAt_nextIndex start _)
    rw [← KindPattern.accepts_iff]
    exact h.isMarker_iff ht run
  tfae_have 3 → 1 := by
    intro h
    refine runsAreLengths_of_markAt fun i hkind => ?_
    have hi : NextAt (fun t => t.OfKind type 1) ts i i :=
      .inl ⟨⟨Nat.le_refl i, hkind⟩, fun _ hk => hk.1⟩
    have heq := (h _ hindexed i 1).unique hi
    have hright := (TokenSeq.tabulates_ofList ts none).nextAt_nextIndex i { type, run := some 1 }
    rw [heq] at hright
    rcases hright with ⟨⟨-, t, ht, htype, hlength⟩, -⟩ | ⟨-, hend⟩
    · exact ⟨t, ht, htype, hlength 1 rfl⟩
    · obtain ⟨t, ht, -⟩ := hkind
      exact absurd (List.getElem?_eq_some_iff.mp ht).1 (by omega)
  tfae_have 1 → 4 := by
    rintro h view hview r start j rfl
    rw [hview.closer?_eq_some_iff, CloserRule.closesAt_iff_byKind h]
  tfae_have 4 → 1 := by
    intro h
    refine runsAreLengths_of_markAt fun i hkind => ?_
    -- with nothing forbidden, the closer from `i` on stands at `i`
    have hcloses := (h _ hplain { closer := type, allowNewline := true } i i rfl).mpr
      ⟨⟨⟨Nat.le_refl i, hkind⟩, fun _ hk => hk.1⟩, by simp, by simp⟩
    exact (hplain.closer?_eq_some_iff.mp hcloses).closer.mark
  tfae_finish

theorem Delimited.attempt_eq_some_iff_byKind {d : Delimited} {ts : List Token} {view : TokenView}
    (hview : view.IsOf ts) (hopens : RunsAreLengths ts d.marker)
    (hcloses : RunsAreLengths ts (d.closer.getD d.marker)) (start : Nat) (found : Match) :
    d.attempt view start = some found ↔ ∃ close, d.SpansByKind ts start close ∧
      found = { node := d.build (ts.extract (start + 1) close)
                consumed := (close : Int) - start + 1 } := by
  obtain ⟨before, hshows⟩ := hview.exists_shows
  rw [d.attempt_eq_some_iff_spansAt hshows]
  simp only [Delimited.spansAt_iff_byKind hopens hcloses]

/-- Any text between two tokens of a type, each a run of one. -/
def Delimited.betweenSingles (type : TokenType) : Delimited where
  name := "single"
  marker := type
  run := 1
  build := fun ts => .text (joinTokens ts)

/-- Between two tokens that are neither of markup nor of one character such a construct stands, by
the kinds of its delimiters, and is not found. -/
theorem exists_spansByKind_not_found {t : Token} (hmarkup : t.type.isMarkup = false)
    (hlength : t.length ≠ 1) : ∃ ts : List Token, t ∈ ts ∧
      (Delimited.betweenSingles t.type).SpansByKind ts 0 2 ∧
      ∀ view : TokenView, view.IsOf ts →
        (Delimited.betweenSingles t.type).attempt view 0 = none := by
  have hrun : t.run = 1 := if_neg (by rw [hmarkup]; exact Bool.false_ne_true)
  have hkind : t.OfKind t.type 1 := ⟨rfl, by rw [Token.kind, hrun]; rfl⟩
  have hhash : TokenType.hash ≠ t.type := by
    intro h
    rw [← h] at hmarkup
    cases hmarkup
  -- between the two stands only the hash
  have hbetween : ∀ k < 2, 1 ≤ k → ∀ u ∈ [t, ⟨.hash, "#", 0⟩, t][k]?, u.type = .hash := by
    intro k hk hle u hu
    obtain rfl : k = 1 := by omega
    obtain rfl := Option.some.inj hu
    rfl
  refine ⟨[t, ⟨.hash, "#", 0⟩, t], List.mem_cons_self,
    ⟨by decide, ⟨t, rfl, hkind⟩, ⟨⟨⟨by decide, t, rfl, hkind⟩, ?_⟩, ?_, ?_⟩, ?_⟩, ?_⟩
  · rintro k ⟨hle, u, hu, hukind⟩
    by_contra hlt
    exact hhash ((hbetween k (Nat.lt_of_not_le hlt) hle u hu).symm.trans hukind.1)
  · rintro - k hk hle u hu
    rw [hbetween k hk hle u hu]
    decide
  · simp [Delimited.closerRule, Delimited.betweenSingles]
  · simp [Delimited.betweenSingles]
  · intro view hview
    rw [Option.eq_none_iff_forall_ne_some]
    intro found hfound
    obtain ⟨before, hshows⟩ := hview.exists_shows
    obtain ⟨close, hspans, -⟩ := (Delimited.attempt_eq_some_iff_spansAt hshows 0 found).mp hfound
    obtain ⟨u, hu, -, hone⟩ := hspans.opens
    obtain rfl := Option.some.inj hu
    exact hlength (Int.ofNat_inj.mp hone)

/-- **Kinds and markers agree on markup and on single characters.** A token is a marker of
exactly its kind when it is of markup or one character long. Markers, next tokens, closers and
constructs go by the kind of their tokens where all tokens of their type are so, and only there.
-/
theorem marker_kinds_agree_iff (t : Token) (ts : List Token) :
    ((∀ type run, t.isMarker type run = true ↔ t.OfKind type run) ↔
      t.type.isMarkup = true ∨ t.length = 1) ∧
    (∀ type : TokenType,
      [RunsAreLengths ts type, MarkersByKind ts type, NextByKind ts type,
        ClosersByKind ts type].TFAE ∧
      (type.isMarkup = true → RunsAreLengths ts type)) ∧
    (∀ (d : Delimited) (view : TokenView), view.IsOf ts →
      RunsAreLengths ts d.marker → RunsAreLengths ts (d.closer.getD d.marker) →
      ∀ (start : Nat) (found : Match), d.attempt view start = some found ↔
        ∃ close, d.SpansByKind ts start close ∧
          found = { node := d.build (ts.extract (start + 1) close)
                    consumed := (close : Int) - start + 1 }) ∧
    (t.type.isMarkup = false → t.length ≠ 1 → ∃ us : List Token, t ∈ us ∧
      (Delimited.betweenSingles t.type).SpansByKind us 0 2 ∧
      ∀ view : TokenView, view.IsOf us →
        (Delimited.betweenSingles t.type).attempt view 0 = none) :=
  ⟨Token.isMarker_iff_ofKind_iff,
    fun type => ⟨lookups_by_kind_tfae ts type, runsAreLengths_of_isMarkup⟩,
    fun _ _ hview hopens hcloses => Delimited.attempt_eq_some_iff_byKind hview hopens hcloses,
    exists_spansByKind_not_found⟩

/-- Between words of two letters, each a text of run one, the single text is missed; bold text is
found by the kinds of its delimiters. -/
theorem marker_kinds_agree_iff_word :
    (∃ ts, ⟨.text, "ab", 0⟩ ∈ ts ∧ (Delimited.betweenSingles .text).SpansByKind ts 0 2 ∧
      (Delimited.betweenSingles .text).attempt (.plain ts.toArray) 0 = none) ∧
    MarkersByKind (tokenize "**a**") .asterisk ∧
    ∃ close, bold.SpansByKind (tokenize "**a**") 0 close := by
  obtain ⟨-, hlookups, hfound, hmissed⟩ :=
    marker_kinds_agree_iff ⟨.text, "ab", 0⟩ (tokenize "**a**")
  obtain ⟨ts, hmem, hspans, hnone⟩ := hmissed rfl (by decide)
  obtain ⟨htfae, hmarkup⟩ := hlookups .asterisk
  have hruns : RunsAreLengths (tokenize "**a**") .asterisk := hmarkup rfl
  have hbold : bold.attempt (.plain (tokenize "**a**").toArray) 0 =
      some { node := .unparsed .bold [⟨.text, "a", 2⟩], consumed := 3 } := rfl
  obtain ⟨close, hclose, -⟩ := (hfound bold _ .plain hruns hruns 0 _).mp hbold
  exact ⟨⟨ts, hmem, hspans, hnone _ .plain⟩, (htfae.out 0 1).mp hruns, close, hclose⟩

/-- So a token is not always a marker of its kind. -/
theorem exists_marker_not_ofKind :
    ¬ ∀ (t : Token) (type : TokenType) (run : Int),
      t.isMarker type run = true ↔ t.OfKind type run := by
  intro h
  have hkind := (h ⟨.text, "ab", 0⟩ .text 2).mp rfl
  exact absurd hkind.2 (by decide)

end InlineMarkup
