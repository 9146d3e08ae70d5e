/-
# Reading JSON

A reader consumes a text from the left and hands on what is left of it. A fault
names its cause and the rest of the text at which it was found; its position is
the length of what was consumed before. The checks are made in the order of the
text, so the first fault of a text is the one reported.

A number is an optional minus sign and digits without leading zeros, at most
4300 of them; whatever follows them is not part of it.

Key definitions: `ReadFault`, `Json.readString`, `Json.readValue`, `Json.parse`.
-/
import InlineMarkup.Json
import InlineMarkup.Text.Quoted

namespace InlineMarkup

/-- Why a text is not JSON. -/
inductive ReadCause where
  | byteOrderMark
  | valueExpected
  | nameExpected
  | colonExpected
  | commaExpected
  | stringOpen
  | controlCharacter
  | badEscape
  | badCodeUnit
  | extraData
  | tooManyDigits (count : Nat)
  deriving DecidableEq, Inhabited

/-- The wording of a cause. -/
def ReadCause.message : ReadCause → String
  | byteOrderMark => "Unexpected UTF-8 BOM (decode using utf-8-sig)"
  | valueExpected => "Expecting value"
  | nameExpected => "Expecting property name enclosed in double quotes"
  | colonExpected => "Expecting ':' delimiter"
  | commaExpected => "Expecting ',' delimiter"
  | stringOpen => "Unterminated string starting at"
  | controlCharacter => "Invalid control character at"
  | badEscape => "Invalid \\escape"
  | badCodeUnit => "Invalid \\uXXXX escape"
  | extraData => "Extra data"
  | tooManyDigits _ => "Too many digits"

/-- A cause and the rest of the text at which it was found. -/
structure ReadFault where
  cause : ReadCause
  rest : List Char
  deriving Inhabited

/-- A cause and its place: the number of characters before it, its line and its
column, both counted from one. -/
structure JsonFault where
  cause : ReadCause
  position : Nat
  line : Nat
  column : Nat
  deriving DecidableEq, Inhabited

/-- The wording of a fault with its place. -/
def JsonFault.message (f : JsonFault) : String :=
  f.cause.message ++ ": line " ++ toString f.line ++ " column " ++ toString f.column ++
    " (char " ++ toString f.position ++ ")"

/-- The place of a position in a text. A line ends with `\n`. -/
def placeOf (cause : ReadCause) (text : List Char) (position : Nat) : JsonFault :=
  let passed := text.take position
  { cause := cause
    position := position
    line := passed.count '\n' + 1
    column := (passed.reverse.takeWhile fun c => c != '\n').length + 1 }

namespace Json

/-- Blanks between the parts of a value. -/
def isBlank (c : Char) : Bool :=
  c == ' ' || c == '\t' || c == '\n' || c == '\r'

/-- A text without its leading blanks. -/
def skipBlanks (cs : List Char) : List Char :=
  cs.dropWhile isBlank

/-- The number written by four hexadecimal digits. -/
def codeUnit? (a b c d : Char) : Option Nat :=
  match hexValue? a, hexValue? b, hexValue? c, hexValue? d with
  | some a, some b, some c, some d => some (((a * 16 + b) * 16 + c) * 16 + d)
  | _, _, _, _ => none

/-- The first half of a surrogate pair. -/
def isHighSurrogate (n : Nat) : Bool :=
  0xd800 ≤ n && n ≤ 0xdbff

/-- The second half of a surrogate pair. -/
def isLowSurrogate (n : Nat) : Bool :=
  0xdc00 ≤ n && n ≤ 0xdfff

/-- The character of a surrogate pair. -/
def joinSurrogates (high low : Nat) : Char :=
  Char.ofNat (0x10000 + (high - 0xd800) * 0x400 + (low - 0xdc00))

/-- The character of a single code unit. Half a pair alone is no character, so no
text holds it: it is read as U+FFFD, and names that differ in such halves only
become one. -/
def ofCodeUnit (n : Nat) : Char :=
  if 0xd800 ≤ n ∧ n ≤ 0xdfff then '\ufffd' else Char.ofNat n

/-- The character that a one-letter escape stands for. -/
def simpleEscape? (c : Char) : Option Char :=
  if c = doubleQuote then some doubleQuote
  else if c = backslash then some backslash
  else if c = '/' then some '/'
  else if c = 'b' then some '\x08'
  else if c = 'f' then some '\x0c'
  else if c = 'n' then some '\n'
  else if c = 'r' then some '\r'
  else if c = 't' then some '\t'
  else none

/-- The number that the first four characters write in hexadecimal digits, when a
further character follows them. -/
def leadingUnit? : List Char → Option Nat
  | a :: b :: c :: d :: _ :: _ => codeUnit? a b c d
  | _ => none

/-- The text behind a `\u` that stands at the start. -/
def behindUnitMark? : List Char → Option (List Char)
  | b :: 'u' :: cs => if b = backslash then some cs else none
  | _ => none

/-- Reads an escape whose text behind the backslash is `cs`: the character it
stands for and the number of characters it takes of `cs`. A `\u` is followed by
four digits; when they name the first half of a pair and a `\u` with the second
half follows, the two escapes are one character. `start` is the text from the
opening quote of the string on. -/
def readEscape (start cs : List Char) : Except ReadFault (Char × Nat) :=
  match cs with
  | [] => .error ⟨.stringOpen, start⟩
  | 'u' :: digits =>
    match leadingUnit? digits with
    | none => .error ⟨.badCodeUnit, cs⟩
    | some high =>
      if isHighSurrogate high then
        match behindUnitMark? (digits.drop 4) with
        | none => .ok (ofCodeUnit high, 5)
        | some second =>
          match leadingUnit? second with
          | none => .error ⟨.badCodeUnit, 'u' :: second⟩
          | some low =>
            if isLowSurrogate low then .ok (joinSurrogates high low, 11)
            else .ok (ofCodeUnit high, 5)
      else .ok (ofCodeUnit high, 5)
  | c :: _ =>
    match simpleEscape? c with
    | none => .error ⟨.badEscape, backslash :: cs⟩
    | some d => .ok (d, 1)

/-- Reads a string behind its opening quote. `start` is the text from that quote
on, `acc` the characters read so far, last one first; the next `taken`
characters belong to an escape that has been read. -/
def readString (start : List Char) :
    Nat → List Char → List Char → Except ReadFault (String × List Char)
  | _, _, [] => .error ⟨.stringOpen, start⟩
  | taken + 1, acc, _ :: cs => readString start taken acc cs
  | 0, acc, c :: cs =>
    if c = doubleQuote then .ok (String.ofList acc.reverse, cs)
    else if c = backslash then
      match readEscape start cs with
      | .error e => .error e
      | .ok (d, taken) => readString start taken (d :: acc) cs
    else if c.toNat < 0x20 then .error ⟨.controlCharacter, c :: cs⟩
    else readString start 0 (c :: acc) cs

/-- The digits at the start of a text, and what follows them; a leading zero
stands alone. -/
def splitDigits (cs : List Char) : List Char × List Char :=
  match cs with
  | '0' :: rest => (['0'], rest)
  | cs => (cs.takeWhile fun c => (digitValue? c).isSome, cs.dropWhile fun c => (digitValue? c).isSome)

/-- Reads the digits `cs` of a number that starts with the text `start`. -/
def readDigits (start cs : List Char) : Except ReadFault (Nat × List Char) :=
  let (digits, rest) := splitDigits cs
  if digits.isEmpty then .error ⟨.valueExpected, start⟩
  else if maxDigits < digits.length then .error ⟨.tooManyDigits digits.length, start⟩
  else .ok (decimalValue 0 digits, rest)

/-- Reads a number. -/
def readNumber (cs : List Char) : Except ReadFault (Json × List Char) :=
  match cs with
  | '-' :: rest =>
    match readDigits cs rest with
    | .error e => .error e
    | .ok (n, rest) => .ok (.int (-(n : Int)), rest)
  | cs =>
    match readDigits cs cs with
    | .error e => .error e
    | .ok (n, rest) => .ok (.int n, rest)

mutual

/-- Reads a value that starts with the first character of the text. -/
def readValue : Nat → List Char → Except ReadFault (Json × List Char)
  | 0, cs => .error ⟨.valueExpected, cs⟩
  | fuel + 1, cs =>
    match cs with
    | '\x22' :: rest =>
      match readString cs 0 [] rest with
      | .error e => .error e
      | .ok (s, rest) => .ok (.str s, rest)
    | '[' :: rest =>
      match skipBlanks rest with
      | ']' :: rest => .ok (.arr [], rest)
      | rest => readItems fuel [] rest
    | '\x7b' :: rest =>
      match skipBlanks rest with
      | '\x7d' :: rest => .ok (.obj [], rest)
      | rest => readMembers fuel [] rest
    | 'n' :: 'u' :: 'l' :: 'l' :: rest => .ok (.null, rest)
    | 't' :: 'r' :: 'u' :: 'e' :: rest => .ok (.bool true, rest)
    | 'f' :: 'a' :: 'l' :: 's' :: 'e' :: rest => .ok (.bool false, rest)
    | cs => readNumber cs

/-- Reads the items of an array, the next of which starts with the first
character of the text; `acc` holds those before it, last one first. -/
def readItems : Nat → List Json → List Char → Except ReadFault (Json × List Char)
  | 0, _, cs => .error ⟨.valueExpected, cs⟩
  | fuel + 1, acc, cs =>
    match readValue fuel cs with
    | .error e => .error e
    | .ok (v, rest) =>
      match skipBlanks rest with
      | ']' :: rest => .ok (.arr (v :: acc).reverse, rest)
      | ',' :: rest => readItems fuel (v :: acc) (skipBlanks rest)
      | rest => .error ⟨.commaExpected, rest⟩

/-- Reads the members of an object, the next of which starts with the first
character of the text; `acc` holds those before it, last one first. -/
def readMembers : Nat → List (String × Json) → List Char → Except ReadFault (Json × List Char)
  | 0, _, cs => .error ⟨.nameExpected, cs⟩
  | fuel + 1, acc, cs =>
    match cs with
    | '\x22' :: rest =>
      match readString cs 0 [] rest with
      | .error e => .error e
      | .ok (name, rest) =>
        match skipBlanks rest with
        | ':' :: rest =>
          match readValue fuel (skipBlanks rest) with
          | .error e => .error e
          | .ok (v, rest) =>
            match skipBlanks rest with
            | '\x7d' :: rest => .ok (.obj (membersOf ((name, v) :: acc).reverse), rest)
            | ',' :: rest => readMembers fuel ((name, v) :: acc) (skipBlanks rest)
            | rest => .error ⟨.commaExpected, rest⟩
        | rest => .error ⟨.colonExpected, rest⟩
    | cs => .error ⟨.nameExpected, cs⟩

end

/-- Reads a text that holds one value and nothing else but blanks. -/
def readTextWith (fuel : Nat) (cs : List Char) : Except ReadFault Json :=
  if cs.head? = some '\ufeff' then .error ⟨.byteOrderMark, cs⟩
  else
    match readValue fuel (skipBlanks cs) with
    | .error e => .error e
    | .ok (v, rest) =>
      match skipBlanks rest with
      | [] => .ok v
      | rest => .error ⟨.extraData, rest⟩

/-- Reads a text with two calls of the reader for each character and two more, which
is enough: with any larger number of calls the text is read no differently. -/
def readText (cs : List Char) : Except ReadFault Json :=
  readTextWith (2 * cs.length + 2) cs

/-- The value that a text holds, or the first fault of the text. -/
def parse (text : String) : Except JsonFault Json :=
  let cs := text.toList
  match readText cs with
  | .ok v => .ok v
  | .error f => .error (placeOf f.cause cs (cs.length - f.rest.length))

end Json

end InlineMarkup
