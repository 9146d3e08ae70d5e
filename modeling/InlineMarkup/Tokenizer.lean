/-
# Cutting a note into tokens

The note is cut into maximal runs of characters of one type, and each line
break stands alone. Nothing is dropped: the runs put together are the note.

Key definitions: `sameRun`, `runs`, `locate`, `tokenize`, `firstToken?`.
-/
import InlineMarkup.Token

namespace InlineMarkup

/-- Two neighbouring characters belong to one token when they have one type and
are not line breaks. -/
def sameRun (c d : Char) : Bool :=
  TokenType.ofChar c == TokenType.ofChar d && TokenType.ofChar c != .newline

/-- The maximal runs of a text, in order. -/
def runs (cs : List Char) : List (List Char) :=
  cs.splitBy sameRun

/-- The type of a run is that of its first character. -/
def runType : List Char → TokenType
  | [] => .text
  | c :: _ => .ofChar c

/-- The token of a run that starts at `offset`. -/
def tokenOfRun (offset : Nat) (r : List Char) : Token :=
  { type := runType r, value := String.ofList r, offset := offset }

/-- The tokens of consecutive runs, the first of which starts at `offset`. -/
def locate : Nat → List (List Char) → List Token
  | _, [] => []
  | offset, r :: rs => tokenOfRun offset r :: locate (offset + r.length) rs

/-- The tokens of a text that starts at `offset`. -/
def tokensFrom (offset : Nat) (cs : List Char) : List Token :=
  locate offset (runs cs)

/-- The tokens of a note. -/
def tokenize (source : String) : List Token :=
  tokensFrom 0 source.toList

/-- The first token of a text that starts at `offset`: its first character and
all that directly follow in the same run. -/
def firstToken? (offset : Nat) : List Char → Option Token
  | [] => none
  | c :: cs => some (tokenOfRun offset (c :: cs.takeWhile (sameRun c)))

end InlineMarkup
