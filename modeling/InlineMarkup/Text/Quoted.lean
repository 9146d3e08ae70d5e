/-
# Quoted text

Text inside messages is quoted so that it stays on one line and shows its
invisible characters. The quote is an apostrophe, unless the text holds
apostrophes and no double quote. The backslash and the quote are escaped, line
breaks and tabs have escapes of their own, and the other characters that do not
print are written by their code points.

Key definitions: `quoteMark`, `quoted`.
-/
import InlineMarkup.Text.Digits
import InlineMarkup.Text.Printable

namespace InlineMarkup

/-- The apostrophe. -/
def apostrophe : Char := '\x27'

/-- The double quote. -/
def doubleQuote : Char := '\x22'

/-- The backslash. -/
def backslash : Char := '\x5c'

/-- The quote for a text: an apostrophe, unless the text has apostrophes and no
double quote. -/
def quoteMark (cs : List Char) : Char :=
  if cs.contains apostrophe && !cs.contains doubleQuote then doubleQuote else apostrophe

/-- A character as it stands between quotes `q`. -/
def quotedChar (q : Char) (c : Char) : List Char :=
  if c = q ∨ c = backslash then [backslash, c]
  else if c = '\n' then [backslash, 'n']
  else if c = '\r' then [backslash, 'r']
  else if c = '\t' then [backslash, 't']
  else if isPrintable c then [c]
  else if c.toNat < 0x100 then backslash :: 'x' :: hexFixed 2 c.toNat
  else if c.toNat < 0x10000 then backslash :: 'u' :: hexFixed 4 c.toNat
  else backslash :: 'U' :: hexFixed 8 c.toNat

/-- A text in quotes. -/
def quoted (s : String) : String :=
  let cs := s.toList
  let q := quoteMark cs
  String.ofList (q :: (cs.flatMap (quotedChar q) ++ [q]))

/-- A long text cut to its first `keep` characters and three dots, when it has
more than `limit` characters. -/
def shortened (limit keep : Nat) (s : String) : String :=
  if limit < s.length then String.ofList (s.toList.take keep) ++ "..." else s

end InlineMarkup
