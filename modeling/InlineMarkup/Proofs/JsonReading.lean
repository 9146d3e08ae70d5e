/-
# The fuel of the JSON reader

The reader of JSON values is called with fuel, of which each call takes a unit. A value, the
items of an array and the members of an object leave no more of a text than there was
(`shortens`). A call for items hands its text on to a call for a value as it is, but every
other call consumes a character first, so two units for each character are enough. With more
of them nothing is read differently (`suffices_fuel`), and no text is at fault for want of
fuel (`readTextWith_eq`).

Key definitions: `Json.Shortens`, `Json.Suffices`. Key theorems: `Json.shortens`,
`Json.readValue_eq_of_le`, `Json.readTextWith_eq`.
-/
import Mathlib.Data.Nat.Init
import InlineMarkup.Json.Reader

namespace InlineMarkup

namespace Json

/-! ### What parts of a value leave -/

theorem length_le_of_readString {start : List Char} {taken : Nat} {acc cs : List Char} {s : String}
    {rest : List Char} (h : readString start taken acc cs = .ok (s, rest)) :
    rest.length ≤ cs.length := by
  fun_induction readString start taken acc cs with
  | case1 => cases h
  | case2 taken acc c cs ih => exact Nat.le_succ_of_le (ih h)
  | case3 =>
    cases h
    exact Nat.le_succ _
  | case4 => cases h
  | case5 _ _ _ _ _ _ ih => exact Nat.le_succ_of_le (ih h)
  | case6 => cases h
  | case7 _ _ _ _ _ _ ih => exact Nat.le_succ_of_le (ih h)

theorem length_skipBlanks_le (cs : List Char) : (skipBlanks cs).length ≤ cs.length :=
  (List.dropWhile_sublist _).length_le

theorem length_lt_of_skipBlanks {cs rest : List Char} {c : Char} (h : skipBlanks cs = c :: rest) :
    rest.length < cs.length := by
  have hblanks := length_skipBlanks_le cs
  rwa [h] at hblanks

theorem length_skipBlanks_lt_of_skipBlanks {cs rest : List Char} {c : Char}
    (h : skipBlanks cs = c :: rest) : (skipBlanks rest).length < cs.length :=
  Nat.lt_of_le_of_lt (length_skipBlanks_le rest) (length_lt_of_skipBlanks h)

theorem length_le_of_readDigits {start cs : List Char} {n : Nat} {rest : List Char}
    (h : readDigits start cs = .ok (n, rest)) : rest.length ≤ cs.length := by
  have hsplit : (splitDigits cs).2.length ≤ cs.length := by
    unfold splitDigits
    split
    · exact Nat.le_succ _
    · exact (List.dropWhile_sublist _).length_le
  unfold readDigits at h
  simp only at h
  split at h
  · cases h
  · split at h
    · cases h
    · cases h
      exact hsplit

theorem length_le_of_readNumber {cs : List Char} {v : Json} {rest : List Char}
    (h : readNumber cs = .ok (v, rest)) : rest.length ≤ cs.length := by
  unfold readNumber at h
  split at h
  · split at h
    · cases h
    · next hread =>
      cases h
      exact Nat.le_succ_of_le (length_le_of_readDigits hread)
  · split at h
    · cases h
    · next hread =>
      cases h
      exact length_le_of_readDigits hread

/-! ### What is left -/

/-- What is read with `fuel` leaves no more of a text than there was. -/
structure Shortens (fuel : Nat) : Prop where
  value {cs rest : List Char} {v : Json} :
    readValue fuel cs = .ok (v, rest) → rest.length ≤ cs.length
  items {acc : List Json} {cs rest : List Char} {v : Json} :
    readItems fuel acc cs = .ok (v, rest) → rest.length ≤ cs.length
  members {acc : List (String × Json)} {cs rest : List Char} {v : Json} :
    readMembers fuel acc cs = .ok (v, rest) → rest.length ≤ cs.length

namespace Shortens

variable {fuel : Nat} {cs rest : List Char} {v : Json}

theorem value_succ (hfuel : Shortens fuel) (h : readValue (fuel + 1) cs = .ok (v, rest)) :
    rest.length ≤ cs.length := by
  unfold readValue at h
  split at h
  · split at h
    · cases h
    · next hstring =>
      cases h
      exact Nat.le_succ_of_le (length_le_of_readString hstring)
  · next inner =>
    refine Nat.le_succ_of_le ?_
    split at h
    · next hskip =>
      cases h
      exact Nat.le_of_lt (length_lt_of_skipBlanks hskip)
    · exact Nat.le_trans (hfuel.items h) (length_skipBlanks_le inner)
  · next inner =>
    refine Nat.le_succ_of_le ?_
    split at h
    · next hskip =>
      cases h
      exact Nat.le_of_lt (length_lt_of_skipBlanks hskip)
    · exact Nat.le_trans (hfuel.members h) (length_skipBlanks_le inner)
  · cases h
    exact Nat.le_add_right _ 4
  · cases h
    exact Nat.le_add_right _ 4
  · cases h
    exact Nat.le_add_right _ 5
  · exact length_le_of_readNumber h

theorem items_succ (hfuel : Shortens fuel) {acc : List Json}
    (h : readItems (fuel + 1) acc cs = .ok (v, rest)) : rest.length ≤ cs.length := by
  unfold readItems at h
  split at h
  · cases h
  · next hvalue =>
    refine Nat.le_trans ?_ (hfuel.value hvalue)
    split at h
    · next hskip =>
      cases h
      exact Nat.le_of_lt (length_lt_of_skipBlanks hskip)
    · next hskip =>
      exact Nat.le_trans (hfuel.items h) (Nat.le_of_lt (length_skipBlanks_lt_of_skipBlanks hskip))
    · cases h

theorem members_succ (hfuel : Shortens fuel) {acc : List (String × Json)}
    (h : readMembers (fuel + 1) acc cs = .ok (v, rest)) : rest.length ≤ cs.length := by
  unfold readMembers at h
  split at h
  · split at h
    · cases h
    · next hname =>
      refine Nat.le_succ_of_le (Nat.le_trans ?_ (length_le_of_readString hname))
      split at h
      · next hcolon =>
        refine Nat.le_trans ?_ (Nat.le_of_lt (length_skipBlanks_lt_of_skipBlanks hcolon))
        split at h
        · cases h
        · next hvalue =>
          refine Nat.le_trans ?_ (hfuel.value hvalue)
          split at h
          · next hskip =>
            cases h
            exact Nat.le_of_lt (length_lt_of_skipBlanks hskip)
          · next hskip =>
            exact Nat.le_trans (hfuel.members h)
              (Nat.le_of_lt (length_skipBlanks_lt_of_skipBlanks hskip))
          · cases h
      · cases h
  · cases h

end Shortens

theorem shortens (fuel : Nat) : Shortens fuel := by
  induction fuel with
  | zero => exact ⟨nofun, nofun, nofun⟩
  | succ fuel ih => exact ⟨ih.value_succ, ih.items_succ, ih.members_succ⟩

/-! ### Fuel -/

/-- One more unit of fuel than `fuel` reads nothing differently, when `fuel` is enough. -/
structure Suffices (fuel : Nat) : Prop where
  value {cs : List Char} : 2 * cs.length + 2 ≤ fuel → readValue (fuel + 1) cs = readValue fuel cs
  items {acc : List Json} {cs : List Char} :
    2 * cs.length + 3 ≤ fuel → readItems (fuel + 1) acc cs = readItems fuel acc cs
  members {acc : List (String × Json)} {cs : List Char} :
    2 * cs.length + 3 ≤ fuel → readMembers (fuel + 1) acc cs = readMembers fuel acc cs

namespace Suffices

variable {fuel : Nat} {cs : List Char}

theorem value_succ (hfuel : Suffices fuel) (h : 2 * cs.length + 2 ≤ fuel + 1) :
    readValue (fuel + 2) cs = readValue (fuel + 1) cs := by
  unfold readValue
  split
  · rfl
  · next inner =>
    have hblanks := length_skipBlanks_le inner
    rw [List.length_cons] at h
    split
    · rfl
    · exact hfuel.items (by omega)
  · next inner =>
    have hblanks := length_skipBlanks_le inner
    rw [List.length_cons] at h
    split
    · rfl
    · exact hfuel.members (by omega)
  all_goals rfl

theorem items_succ (hfuel : Suffices fuel) {acc : List Json} (h : 2 * cs.length + 3 ≤ fuel + 1) :
    readItems (fuel + 2) acc cs = readItems (fuel + 1) acc cs := by
  unfold readItems
  rw [hfuel.value (by omega)]
  split
  · rfl
  · next hvalue =>
    have hrest := (shortens _).value hvalue
    split
    · rfl
    · next hskip =>
      have hbehind := length_skipBlanks_lt_of_skipBlanks hskip
      exact hfuel.items (by omega)
    · rfl

theorem members_succ (hfuel : Suffices fuel) {acc : List (String × Json)}
    (h : 2 * cs.length + 3 ≤ fuel + 1) :
    readMembers (fuel + 2) acc cs = readMembers (fuel + 1) acc cs := by
  unfold readMembers
  split
  · rw [List.length_cons] at h
    split
    · rfl
    · next hname =>
      have hrest := length_le_of_readString hname
      split
      · next hcolon =>
        have hbehind := length_skipBlanks_lt_of_skipBlanks hcolon
        rw [hfuel.value (by omega)]
        split
        · rfl
        · next hvalue =>
          have hleft := (shortens _).value hvalue
          split
          · rfl
          · next hskip =>
            have hnext := length_skipBlanks_lt_of_skipBlanks hskip
            exact hfuel.members (by omega)
          · rfl
      · rfl
  · rfl

end Suffices

theorem suffices_fuel (fuel : Nat) : Suffices fuel := by
  induction fuel with
  | zero => exact ⟨by omega, by omega, by omega⟩
  | succ fuel ih => exact ⟨ih.value_succ, ih.items_succ, ih.members_succ⟩

/-- **The fuel for a text is enough for it**: with more fuel it is read no differently. -/
theorem readValue_eq_of_le {cs : List Char} {fuel : Nat} (h : 2 * cs.length + 2 ≤ fuel) :
    readValue fuel cs = readValue (2 * cs.length + 2) cs := by
  induction fuel, h using Nat.le_induction with
  | base => rfl
  | succ fuel h ih => rw [(suffices_fuel fuel).value h, ih]

/-- **A text is read as with any more fuel.** -/
theorem readTextWith_eq {cs : List Char} {fuel : Nat} (h : 2 * cs.length + 2 ≤ fuel) :
    readTextWith fuel cs = readText cs := by
  have hblanks := length_skipBlanks_le cs
  have hvalue : readValue fuel (skipBlanks cs) = readValue (2 * cs.length + 2) (skipBlanks cs) :=
    (readValue_eq_of_le (by omega)).trans (readValue_eq_of_le (by omega)).symm
  rw [readText, readTextWith, readTextWith, hvalue]

end Json

end InlineMarkup
