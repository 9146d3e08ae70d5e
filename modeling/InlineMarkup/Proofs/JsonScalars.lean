/-
# Numbers and strings of JSON are read as they were written

The digits of a number are read back to the number, whatever follows them, unless it
is a further digit, or they are too many (`readNumber_decimalInt`). A character is
written as itself, by a letter, or by its code units; each of these is read back to
the character (`readString_writeChar`), and so a string is read back to the string
(`readString_writeString`).

Key definitions: `Stops`, `Json.Yields`. Key theorems: `decimalValue_decimal`,
`Json.readNumber_decimalInt`, `Json.readString_writeChar`,
`Json.readString_writeString`.
-/
import Mathlib.Algebra.Group.Int.Defs
import Mathlib.Algebra.Group.Nat.Defs
import InlineMarkup.Json.Printer
import InlineMarkup.Json.Reader

namespace InlineMarkup

/-! ### Digits -/

theorem digitValue?_digitChar : ∀ d, d < 10 → digitValue? (digitChar d) = some d := by
  decide

theorem hexValue?_digitChar : ∀ d, d < 16 → hexValue? (digitChar d) = some d := by
  decide

theorem decimal_ne_nil (n : Nat) : decimal n ≠ [] := by
  rw [decimal]
  split <;> simp

theorem isSome_digitValue?_of_mem_decimal (n : Nat) :
    ∀ c ∈ decimal n, (digitValue? c).isSome = true := by
  induction n using decimal.induct with
  | case1 n hn =>
    rw [decimal, if_pos hn, List.forall_mem_singleton, digitValue?_digitChar n hn]
    rfl
  | case2 n hn ih =>
    rw [decimal, if_neg hn, List.forall_mem_append, List.forall_mem_singleton,
      digitValue?_digitChar (n % 10) (Nat.mod_lt n (by decide))]
    exact ⟨ih, rfl⟩

theorem length_decimal_ten_pow (k : Nat) : (decimal (10 ^ k)).length = k + 1 := by
  induction k with
  | zero => rw [decimal]; rfl
  | succ k ih =>
    have hpos : 0 < 10 ^ k := Nat.pow_pos (by decide)
    rw [decimal, if_neg (by omega), Nat.pow_succ, Nat.mul_div_cancel _ (by decide),
      List.length_append, ih]
    rfl

theorem hasText_neg (n : Int) : hasText (-n) = hasText n := by
  rw [hasText, Int.natAbs_neg, hasText]

theorem hasText_ten_pow (k : Nat) : hasText (10 ^ k) = decide (k < maxDigits) := by
  have habs : (10 ^ k : Int).natAbs = 10 ^ k := Int.natAbs_pow 10 k
  rw [hasText, habs, length_decimal_ten_pow]
  rfl

theorem decimalValue_decimal (n : Nat) : decimalValue 0 (decimal n) = n := by
  induction n using decimal.induct with
  | case1 n hn =>
    rw [decimal, if_pos hn]
    simp [decimalValue, digitValue?_digitChar n hn]
  | case2 n hn ih =>
    rw [decimalValue] at ih
    rw [decimal, if_neg hn, decimalValue, List.foldl_append, ih]
    simp only [List.foldl_cons, List.foldl_nil, Option.getD_some,
      digitValue?_digitChar (n % 10) (Nat.mod_lt n (by decide))]
    omega

theorem eq_zero_of_decimal {n : Nat} {cs : List Char} (h : decimal n = '0' :: cs) :
    n = 0 ∧ cs = [] := by
  induction n using decimal.induct generalizing cs with
  | case1 n hn =>
    have hzero : ∀ d, d < 10 → digitChar d = '0' → d = 0 := by decide
    rw [decimal, if_pos hn] at h
    obtain ⟨hd, rfl⟩ := List.cons.inj h
    exact ⟨hzero n hn hd, rfl⟩
  | case2 n hn ih =>
    rw [decimal, if_neg hn] at h
    obtain ⟨c, ds, hds⟩ := List.exists_cons_of_ne_nil (decimal_ne_nil (n / 10))
    rw [hds, List.cons_append] at h
    obtain ⟨rfl, -⟩ := List.cons.inj h
    have := (ih hds).1
    omega

/-- A text at whose start no digit stands. -/
def Stops (cs : List Char) : Prop :=
  ∀ c ∈ cs.head?, digitValue? c = none

namespace Json

theorem splitDigits_decimal (n : Nat) {rest : List Char} (hrest : Stops rest) :
    splitDigits (decimal n ++ rest) = (decimal n, rest) := by
  have htake : (decimal n ++ rest).takeWhile (fun c => (digitValue? c).isSome) = decimal n := by
    rw [List.takeWhile_append_of_pos (isSome_digitValue?_of_mem_decimal n)]
    cases rest with
    | nil => simp
    | cons c cs => simp [hrest c rfl]
  have hdrop : (decimal n ++ rest).dropWhile (fun c => (digitValue? c).isSome) = rest := by
    rw [List.dropWhile_append_of_pos (isSome_digitValue?_of_mem_decimal n)]
    cases rest with
    | nil => simp
    | cons c cs => simp [hrest c rfl]
  obtain ⟨c, ds, hds⟩ := List.exists_cons_of_ne_nil (decimal_ne_nil n)
  by_cases hc : c = '0'
  · subst hc
    obtain ⟨-, rfl⟩ := eq_zero_of_decimal hds
    rw [hds]
    rfl
  · rw [hds, List.cons_append] at htake hdrop ⊢
    unfold splitDigits
    split
    · next h => exact absurd (List.cons.inj h).1 hc
    · rw [htake, hdrop]

/-- What reading gives where a value was written: the value when its numbers are short enough
to be read, and else the fault that one of them is not. -/
def Yields (short : Bool) (v : Json) (rest : List Char)
    (result : Except ReadFault (Json × List Char)) : Prop :=
  match short with
  | true => result = .ok (v, rest)
  | false => ∃ count tail, result = .error ⟨.tooManyDigits count, tail⟩

/-- A result that depends on a part read before fails as the part does. -/
theorem Yields.and {short short' : Bool} {v w : Json} {rest rest' : List Char}
    {part result : Except ReadFault (Json × List Char)} (h : Yields short v rest part)
    (hfault : ∀ e, part = .error e → result = .error e)
    (hnext : part = .ok (v, rest) → Yields short' w rest' result) :
    Yields (short && short') w rest' result := by
  cases short with
  | true => exact hnext h
  | false =>
    obtain ⟨count, tail, hpart⟩ := h
    exact ⟨count, tail, hfault _ hpart⟩

theorem readDigits_decimal (start : List Char) (n : Nat) {rest : List Char} (hrest : Stops rest) :
    readDigits start (decimal n ++ rest) =
      if maxDigits < (decimal n).length then .error ⟨.tooManyDigits (decimal n).length, start⟩
      else .ok (n, rest) := by
  have hfilled : (decimal n).isEmpty = false := by simpa using decimal_ne_nil n
  rw [readDigits, splitDigits_decimal n hrest]
  simp only [hfilled, Bool.false_eq_true, if_false, decimalValue_decimal]

/-- The number of `n` with a sign is read from the digits of `n`. -/
theorem yields_decimal (start : List Char) (sign : Nat → Int) {n : Nat} {rest : List Char}
    (hsign : (sign n).natAbs = n) (hrest : Stops rest) :
    Yields (InlineMarkup.hasText (sign n)) (.int (sign n)) rest
      (match readDigits start (decimal n ++ rest) with
        | .error e => .error e
        | .ok (n, rest) => .ok (.int (sign n), rest)) := by
  rw [readDigits_decimal start n hrest, InlineMarkup.hasText, hsign]
  by_cases hlen : maxDigits < (decimal n).length
  · rw [if_pos hlen, decide_eq_false (Nat.not_le.mpr hlen)]
    exact ⟨_, _, rfl⟩
  · rw [if_neg hlen, decide_eq_true (Nat.not_lt.mp hlen)]
    rfl

theorem readNumber_decimalInt (i : Int) {rest : List Char} (hrest : Stops rest) :
    Yields (InlineMarkup.hasText i) (.int i) rest (readNumber (decimalInt i ++ rest)) := by
  cases i with
  | ofNat n =>
    obtain ⟨c, ds, hds⟩ := List.exists_cons_of_ne_nil (decimal_ne_nil n)
    have hc : c ≠ '-' := by
      rintro rfl
      have := isSome_digitValue?_of_mem_decimal n '-' (hds ▸ List.mem_cons_self)
      revert this
      decide
    rw [decimalInt]
    unfold readNumber
    split
    · next h =>
      rw [hds, List.cons_append] at h
      exact absurd (List.cons.inj h).1 hc
    · exact yields_decimal (decimal n ++ rest) (fun n => n) rfl hrest
  | negSucc n => exact yields_decimal _ (fun n => -n) (Int.natAbs_neg (n + 1 : Nat)) hrest

/-! ### Characters -/

theorem eq_hexFixed_four (n : Nat) : hexFixed 4 n =
    [digitChar (n / 16 / 16 / 16 % 16), digitChar (n / 16 / 16 % 16), digitChar (n / 16 % 16),
      digitChar (n % 16)] :=
  rfl

theorem leadingUnit?_hexFixed {n : Nat} (hn : n < 0x10000) {tail : List Char} (htail : tail ≠ []) :
    leadingUnit? (hexFixed 4 n ++ tail) = some n := by
  obtain ⟨c, cs, rfl⟩ := List.exists_cons_of_ne_nil htail
  have hhex := fun k => hexValue?_digitChar (k % 16) (Nat.mod_lt k (by decide))
  simp only [eq_hexFixed_four, List.cons_append, List.nil_append, leadingUnit?, codeUnit?, hhex,
    Option.some.injEq]
  omega

variable {start : List Char} {acc : List Char}

/-- What belongs to an escape that has been read is passed over. -/
theorem readString_taken (taken cs : List Char) :
    readString start taken.length acc (taken ++ cs) = readString start 0 acc cs := by
  induction taken with
  | nil => rfl
  | cons c taken ih => exact ih

theorem readString_escape {c : Char} (taken : List Char) {cs : List Char}
    (h : readEscape start (taken ++ cs) = .ok (c, taken.length)) :
    readString start 0 acc (backslash :: (taken ++ cs)) = readString start 0 (c :: acc) cs := by
  have hquote : backslash ≠ doubleQuote := by decide
  rw [readString, if_neg hquote, if_pos rfl, h]
  exact readString_taken taken cs

theorem readString_letter {c d : Char} (hc : c ≠ 'u') (h : simpleEscape? c = some d) (cs : List Char) :
    readString start 0 acc (backslash :: c :: cs) = readString start 0 (d :: acc) cs := by
  refine readString_escape [c] ?_
  unfold readEscape
  split
  · next he => cases he
  · next he => exact absurd (List.cons.inj he).1 hc
  · next he =>
    obtain ⟨rfl, -⟩ := List.cons.inj he
    rw [h]
    rfl

theorem toNat_not_surrogate (c : Char) : ¬ (0xd800 ≤ c.toNat ∧ c.toNat ≤ 0xdfff) := by
  have hvalid : c.toNat < 0xd800 ∨ 0xdfff < c.toNat ∧ c.toNat < 0x110000 := c.valid
  omega

theorem readEscape_codeUnit {c : Char} (hc : c.toNat < 0x10000) {tail : List Char} (htail : tail ≠ []) :
    readEscape start ('u' :: (hexFixed 4 c.toNat ++ tail)) = .ok (c, 5) := by
  have hhalf := toNat_not_surrogate c
  have hhigh : isHighSurrogate c.toNat = false := by
    simp only [isHighSurrogate, Bool.and_eq_false_iff, decide_eq_false_iff_not]
    omega
  have hof : ofCodeUnit c.toNat = c := by rw [ofCodeUnit, if_neg hhalf, Char.ofNat_toNat]
  simp only [readEscape, leadingUnit?_hexFixed hc htail, hhigh, Bool.false_eq_true, if_false, hof]

theorem readEscape_pair {c : Char} (hc : 0x10000 ≤ c.toNat) {tail : List Char} (htail : tail ≠ []) :
    readEscape start ('u' :: (hexFixed 4 (0xd800 + (c.toNat - 0x10000) / 0x400) ++
      (backslash :: 'u' :: (hexFixed 4 (0xdc00 + (c.toNat - 0x10000) % 0x400) ++ tail)))) =
        .ok (c, 11) := by
  have hvalid : c.toNat < 0xd800 ∨ 0xdfff < c.toNat ∧ c.toNat < 0x110000 := c.valid
  generalize hhigh : 0xd800 + (c.toNat - 0x10000) / 0x400 = high
  generalize hlow : 0xdc00 + (c.toNat - 0x10000) % 0x400 = low
  have hhighUnit : isHighSurrogate high = true := by
    simp only [isHighSurrogate, Bool.and_eq_true, decide_eq_true_eq]
    omega
  have hlowUnit : isLowSurrogate low = true := by
    simp only [isLowSurrogate, Bool.and_eq_true, decide_eq_true_eq]
    omega
  have hjoin : joinSurrogates high low = c := by
    have hsum : 0x10000 + (high - 0xd800) * 0x400 + (low - 0xdc00) = c.toNat := by omega
    rw [joinSurrogates, hsum, Char.ofNat_toNat]
  have hfirst : leadingUnit? (hexFixed 4 high ++ (backslash :: 'u' :: (hexFixed 4 low ++ tail))) =
      some high := leadingUnit?_hexFixed (by omega) (List.cons_ne_nil _ _)
  have hbehind : behindUnitMark?
      ((hexFixed 4 high ++ (backslash :: 'u' :: (hexFixed 4 low ++ tail))).drop 4) =
      some (hexFixed 4 low ++ tail) := rfl
  simp only [readEscape, hfirst, hbehind, hhighUnit, hlowUnit, if_true,
    leadingUnit?_hexFixed (show low < 0x10000 by omega) htail, hjoin]

/-- **A character is read as it was written**: as itself, as a letter behind a backslash, as
a code unit, or as the two halves of a pair. -/
theorem readString_writeChar (c : Char) {tail : List Char} (htail : tail ≠ []) :
    readString start 0 acc (writeChar c ++ tail) = readString start 0 (c :: acc) tail := by
  unfold writeChar
  split
  · next h => rcases h with rfl | rfl <;> exact readString_letter (by decide) rfl tail
  · next hplain =>
    split
    · next h => exact h ▸ readString_letter (by decide) rfl tail
    split
    · next h => exact h ▸ readString_letter (by decide) rfl tail
    split
    · next h => exact h ▸ readString_letter (by decide) rfl tail
    split
    · next h => exact h ▸ readString_letter (by decide) rfl tail
    split
    · next h => exact h ▸ readString_letter (by decide) rfl tail
    split
    · next h =>
      obtain ⟨hquote, hslash⟩ := not_or.mp hplain
      rw [List.singleton_append, readString, if_neg hquote, if_neg hslash, if_neg (Nat.not_lt.mpr h.1)]
    split
    · next h => exact readString_escape ('u' :: hexFixed 4 c.toNat) (readEscape_codeUnit h htail)
    · next h =>
      rw [List.append_assoc]
      exact readString_escape (_ :: (hexFixed 4 _ ++ _ :: _ :: hexFixed 4 _))
        (readEscape_pair (Nat.not_lt.mp h) htail)

theorem readString_writeString (s : String) (rest : List Char) :
    readString start 0 [] (s.toList.flatMap writeChar ++ doubleQuote :: rest) = .ok (s, rest) := by
  have hread : ∀ (cs acc : List Char),
      readString start 0 acc (cs.flatMap writeChar ++ doubleQuote :: rest) =
        .ok (String.ofList (acc.reverse ++ cs), rest) := by
    intro cs
    induction cs with
    | nil => intro acc; simp [readString]
    | cons c cs ih =>
      intro acc
      rw [List.flatMap_cons, List.append_assoc, readString_writeChar c (by simp), ih]
      simp
  simpa using hread s.toList []

end Json

end InlineMarkup
