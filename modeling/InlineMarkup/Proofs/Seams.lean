/-
# Tokens of two texts put together

The tokens of two texts in a row are those of the first and, moved behind them, those of the
second, unless the texts grow into each other: two tokens of one type that meet at the seam
are one token, and only line breaks stay apart (`tokenize_append_of_apart`,
`tokenize_append_of_grown`).

That such tokens are the tokens of the whole is seen without a second scan, because a text has
one cut only (`tokensFrom_eq_iff`). For the same reason a slice of the tokens of a note stands by
itself: its text is cut into the slice again, with offsets counted from zero
(`tokenize_slice`).

Key definitions: `MeetApart`, `Token.joined`, `fromZero`.
Key theorems: `IsCut.grown`, `tokenize_append_of_apart`, `tokenize_append_of_grown`,
`tokenize_slice`, `tokenize_parts`.
-/
import InlineMarkup.Proofs.Lists
import InlineMarkup.Proofs.Tokenization
import InlineMarkup.TokenQuery

namespace InlineMarkup

/-! ### Where two texts meet -/

/-- Tokens that stay as they are when others follow: there are none on one of the sides, or the
last of the first and the first of the others differ in type or are both line breaks. -/
def MeetApart (ts us : List Token) : Prop :=
  ts = [] ∨ us = [] ∨ ts.getLast?.map Token.type ≠ us.head?.map Token.type ∨
    (ts.getLast?.map Token.type = some .newline ∧ us.head?.map Token.type = some .newline)

instance (ts us : List Token) : Decidable (MeetApart ts us) :=
  inferInstanceAs (Decidable (_ ∨ _))

/-- No two neighbours at the seam of what meets apart could be one token. -/
theorem meetApart_iff {ts us : List Token} :
    MeetApart ts us ↔ ∀ t ∈ ts.getLast?, ∀ u ∈ us.head?, t.Apart u := by
  unfold MeetApart
  cases hlast : ts.getLast? with
  | none => simp [List.getLast?_eq_none_iff.mp hlast]
  | some t =>
    cases hhead : us.head? with
    | none => simp [List.head?_eq_none_iff.mp hhead]
    | some u =>
      have hts : ts ≠ [] := by
        rintro rfl
        cases hlast
      have hus : us ≠ [] := by
        rintro rfl
        cases hhead
      simp only [hts, hus, Option.map_some, ne_eq, Option.some.injEq, false_or, Option.mem_some_iff,
        forall_eq', Token.Apart]
      by_cases htype : t.type = u.type
      · simp [htype]
      · simp [htype]

/-- What does not meet apart has a last and a first token that grow into each other. -/
theorem exists_seam_of_not_meetApart {ts us : List Token} (h : ¬ MeetApart ts us) :
    ∃ front t u back, ts = front ++ [t] ∧ us = u :: back ∧ ¬ t.Apart u := by
  rw [meetApart_iff] at h
  push Not at h
  obtain ⟨t, ht, u, hu, hseam⟩ := h
  obtain ⟨front, rfl⟩ := List.getLast?_eq_some_iff.mp ht
  obtain ⟨back, rfl⟩ := List.head?_eq_some_iff.mp hu
  exact ⟨front, t, u, back, rfl, rfl, hseam⟩

/-! ### Tokens that grow into each other -/

/-- Two neighbours as one token: the type and the place of the first, and the texts of both. -/
def Token.joined (t u : Token) : Token :=
  { type := t.type, value := t.value ++ u.value, offset := t.offset }

theorem Token.length_joined (t u : Token) : (t.joined u).length = t.length + u.length :=
  String.length_append _ _

theorem charsOf_joined (t u : Token) (ts : List Token) :
    charsOf (t.joined u :: ts) = charsOf (t :: u :: ts) := by
  simp [Token.joined]

theorem Token.not_apart_iff {t u : Token} :
    ¬ t.Apart u ↔ t.type = u.type ∧ t.type ≠ .newline :=
  Classical.not_imp

theorem Token.WellFormed.joined {t u : Token} (ht : t.WellFormed) (hu : u.WellFormed)
    (h : ¬ t.Apart u) : (t.joined u).WellFormed where
  filled := by
    unfold Token.joined
    rw [String.toList_append]
    exact List.append_ne_nil_of_left_ne_nil ht.filled _
  chars := by
    intro c hc
    unfold Token.joined at hc
    rw [String.toList_append] at hc
    rcases List.mem_append.mp hc with hc | hc
    · exact ht.chars c hc
    · exact (hu.chars c hc).trans (Token.not_apart_iff.mp h).1.symm
  line := fun hnew => absurd hnew (Token.not_apart_iff.mp h).2

/-- **Two cuts that grow into each other are a cut with one token at the seam.** -/
theorem IsCut.grown {offset : Int} {front back : List Token} {t u : Token}
    (h : IsCut offset (front ++ [t]))
    (h' : IsCut (offset + (charsOf (front ++ [t])).length) (u :: back)) (hseam : ¬ t.Apart u) :
    IsCut offset (front ++ t.joined u :: back) := by
  obtain ⟨hfront, hlast, hleft⟩ := isCut_append.mp h
  obtain ⟨ht, hoffset, -, -⟩ := isCut_cons.mp hlast
  obtain ⟨hu, -, hright, hback⟩ := isCut_cons.mp h'
  have htype : t.type = u.type := (Token.not_apart_iff.mp hseam).1
  have hplace : offset + (charsOf front).length + (t.joined u).length =
      offset + (charsOf (front ++ [t])).length + u.length := by
    rw [Token.length_joined, charsOf_append, charsOf_cons, charsOf_nil, List.append_nil,
      List.length_append, ← Token.length_eq]
    omega
  refine isCut_append.mpr ⟨hfront, isCut_cons.mpr ⟨ht.joined hu hseam, hoffset, ?_, ?_⟩, ?_⟩
  · -- behind the seam the token goes by the type of the second
    intro v hv
    have hapart := hright v hv
    rwa [Token.Apart, ← htype] at hapart
  · rw [hplace]
    exact hback
  · rintro v hv w ⟨⟩
    exact hleft v hv t rfl

/-! ### The tokens of two texts -/

theorem isCut_behind (a b : String) :
    IsCut (0 + (charsOf (tokenize a)).length) ((tokenize b).map (Token.shift a.length)) := by
  rw [← tokensFrom_eq_shift, tokenize, charsOf_tokensFrom, Int.zero_add, String.length_toList]
  exact isCut_tokensFrom a.length b.toList

theorem charsOf_behind (a b : String) :
    charsOf (tokenize a) ++ charsOf ((tokenize b).map (Token.shift a.length)) = (a ++ b).toList := by
  rw [charsOf_shift, tokenize, charsOf_tokensFrom, tokenize, charsOf_tokensFrom,
    String.toList_append]

theorem tokenize_append_of_apart {a b : String}
    (h : MeetApart (tokenize a) ((tokenize b).map (Token.shift a.length))) :
    tokenize (a ++ b) = tokenize a ++ (tokenize b).map (Token.shift a.length) := by
  refine tokensFrom_eq_iff.mpr ⟨?_, isCut_append.mpr ⟨?_, isCut_behind a b, meetApart_iff.mp h⟩⟩
  · rw [charsOf_append, charsOf_behind]
  · exact isCut_tokensFrom 0 a.toList

theorem tokenize_append_of_grown {a b : String} {front back : List Token} {t u : Token}
    (ha : tokenize a = front ++ [t]) (hb : (tokenize b).map (Token.shift a.length) = u :: back)
    (h : ¬ t.Apart u) : tokenize (a ++ b) = front ++ t.joined u :: back := by
  have hcut := isCut_tokensFrom 0 a.toList
  have hbehind := isCut_behind a b
  have hchars := charsOf_behind a b
  rw [← tokenize, ha] at hcut
  rw [ha, hb] at hbehind hchars
  refine tokensFrom_eq_iff.mpr ⟨?_, hcut.grown hbehind h⟩
  rw [charsOf_append, charsOf_joined, ← hchars, charsOf_append]
  simp

/-! ### Slices -/

/-- Tokens with their offsets counted from the first of them. -/
def fromZero : List Token → List Token
  | [] => []
  | t :: ts => (t :: ts).map (Token.shift (-t.offset))

theorem Located.shift_eq_fromZero {offset : Int} {ts : List Token} (h : Located offset ts) :
    ts.map (Token.shift (-offset)) = fromZero ts := by
  cases ts with
  | nil => rfl
  | cons t ts => rw [fromZero, h.1]

/-- **The text of a slice has the tokens of the slice**, with offsets counted from zero. -/
theorem tokenize_slice {source : String} {us : List Token} (h : us <:+: tokenize source) :
    tokenize (joinTokens us) = fromZero us := by
  obtain ⟨offset, hcut⟩ := (isCut_tokensFrom 0 source.toList).of_slice h
  rw [hcut.tokenize_joinTokens, hcut.located.shift_eq_fromZero]

/-- **Tokens of texts put together** are the tokens of the texts, unless the two at the seam are
of one type and no line breaks; then these are one token. The text of a slice of the tokens of a
note has the tokens of the slice, counted from zero. -/
theorem tokenize_parts :
    (∀ a b : String,
      (MeetApart (tokenize a) ((tokenize b).map (Token.shift a.length)) →
        tokenize (a ++ b) = tokenize a ++ (tokenize b).map (Token.shift a.length)) ∧
      (¬ MeetApart (tokenize a) ((tokenize b).map (Token.shift a.length)) →
        ∃ front t u back, tokenize a = front ++ [t] ∧
          (tokenize b).map (Token.shift a.length) = u :: back ∧ t.type = u.type ∧
          tokenize (a ++ b) =
            front ++ { type := t.type, value := t.value ++ u.value, offset := t.offset } :: back)) ∧
    (∀ (source : String) (i j : Nat),
      tokenize (joinTokens ((tokenize source).extract i j)) =
        fromZero ((tokenize source).extract i j)) ∧
    ∀ (source : String) (i j : Option Int), ∃ us,
      (TokenQuery.slice i j).run (.plain (tokenize source).toArray) = .ok (.tokens us) ∧
        us <:+: tokenize source ∧ tokenize (joinTokens us) = fromZero us := by
  refine ⟨fun a b => ⟨tokenize_append_of_apart, fun h => ?_⟩, fun source i j => ?_,
    fun source i j => ?_⟩
  · obtain ⟨front, t, u, back, ha, hb, hseam⟩ := exists_seam_of_not_meetApart h
    exact ⟨front, t, u, back, ha, hb, (Token.not_apart_iff.mp hseam).1,
      tokenize_append_of_grown ha hb hseam⟩
  · exact tokenize_slice (extract_isInfix _ i j)
  · have hslice : ∀ k l, (TokenView.plain (tokenize source).toArray).slice k l <:+:
        tokenize source := by
      intro k l
      rw [TokenView.slice, Array.toList_extract]
      exact extract_isInfix _ k l
    exact ⟨_, rfl, hslice _ _, tokenize_slice (hslice _ _)⟩

/-- Two line breaks stay two tokens, a run of `*` goes on behind the seam, and a slice that the
run is the first of is cut into itself. -/
theorem tokenize_parts_stars :
    (MeetApart (tokenize "a\n") ((tokenize "\nb").map (Token.shift "a\n".length)) ∧
      tokenize ("a\n" ++ "\nb") =
        tokenize "a\n" ++ (tokenize "\nb").map (Token.shift "a\n".length)) ∧
    (¬ MeetApart (tokenize "a**") ((tokenize "* b").map (Token.shift "a**".length)) ∧
      ∃ front t u back, tokenize "a**" = front ++ [t] ∧
        (tokenize "* b").map (Token.shift "a**".length) = u :: back ∧ t.type = u.type ∧
        tokenize ("a**" ++ "* b") =
          front ++ { type := t.type, value := t.value ++ u.value, offset := t.offset } :: back) ∧
    tokenize (joinTokens ((tokenize "a*** b").extract 1 3)) =
      fromZero ((tokenize "a*** b").extract 1 3) := by
  have hapart : MeetApart (tokenize "a\n") ((tokenize "\nb").map (Token.shift "a\n".length)) := by
    decide
  have hgrown : ¬ MeetApart (tokenize "a**") ((tokenize "* b").map (Token.shift "a**".length)) := by
    decide
  obtain ⟨happend, hslice, -⟩ := tokenize_parts
  exact ⟨⟨hapart, (happend _ _).1 hapart⟩, ⟨hgrown, (happend _ _).2 hgrown⟩, hslice _ 1 3⟩

end InlineMarkup
