/-
# Numbers in text

Numbers are written in decimal digits of any count or in hexadecimal digits of a
fixed count, each with its inverse on one digit. Integers have any size, but only
those with at most 4300 decimal digits are read from text and written to it, the
sign not counted. Positions in a sequence and sizes are smaller: they fit a signed
word of 64 bits.

Key definitions: `decimal`, `decimalInt`, `hexFixed`, `hexValue?`, `hasText`,
`fitsWord`.
-/

namespace InlineMarkup

/-- The character of a digit below sixteen, in lower case. -/
def digitChar (d : Nat) : Char :=
  if d < 10 then Char.ofNat (48 + d) else Char.ofNat (87 + d)

/-- The value of a decimal digit. -/
def digitValue? (c : Char) : Option Nat :=
  if '0' ≤ c ∧ c ≤ '9' then some (c.toNat - 48) else none

/-- The value of a hexadecimal digit, in either case. -/
def hexValue? (c : Char) : Option Nat :=
  if '0' ≤ c ∧ c ≤ '9' then some (c.toNat - 48)
  else if 'a' ≤ c ∧ c ≤ 'f' then some (c.toNat - 87)
  else if 'A' ≤ c ∧ c ≤ 'F' then some (c.toNat - 55)
  else none

/-- The decimal digits of a number, without leading zeros. -/
def decimal (n : Nat) : List Char :=
  if n < 10 then [digitChar n] else decimal (n / 10) ++ [digitChar (n % 10)]
termination_by n

/-- The decimal form of an integer. -/
def decimalInt : Int → List Char
  | .ofNat n => decimal n
  | .negSucc n => '-' :: decimal (n + 1)

/-- The last `width` hexadecimal digits of a number. -/
def hexFixed : Nat → Nat → List Char
  | 0, _ => []
  | width + 1, n => hexFixed width (n / 16) ++ [digitChar (n % 16)]

/-- The number that a list of decimal digits writes, after the digits of `acc`. -/
def decimalValue (acc : Nat) (ds : List Char) : Nat :=
  ds.foldl (fun n c => 10 * n + (digitValue? c).getD 0) acc

/-- The largest number of digits that an integer in text may have. -/
def maxDigits : Nat := 4300

/-- Whether an integer has few enough digits to be written. -/
def hasText (n : Int) : Bool :=
  (decimal n.natAbs).length ≤ maxDigits

/-- Whether an integer fits a signed word of 64 bits. -/
def fitsWord (n : Int) : Bool :=
  -9223372036854775808 ≤ n && n ≤ 9223372036854775807

end InlineMarkup
