/-
# Looking ahead in a token sequence

Matchers look at tokens through a view, which is a bare array or a sequence with
next-kind tables. Both answer the same questions: is there a marker here, what
precedes this position, where is the closer, where does the word end. A
sequence finds a closer in its tables, which are filled on the way; a bare array is
scanned token by token.

A closer is searched up to the end of the line unless line breaks are allowed
before it, and likewise for spaces. The first closer counts: when a forbidden
token stands before it there is none.

Key definitions: `TokenView`, `CloserRule.scan?`, `CloserRule.search`,
`TokenView.isMarkerAt`, `TokenView.tokenBefore?`, `TokenView.closer?`,
`TokenView.wordEnd`, `TokenView.slice`.
-/
import InlineMarkup.TokenSeq

namespace InlineMarkup

/-- Tokens as a matcher sees them. -/
inductive TokenView where
  | plain (tokens : Array Token)
  | indexed (seq : TokenSeq)

/-- What a search for a closer looks for and what it may cross. -/
structure CloserRule where
  closer : TokenType
  run : Int := 1
  allowNewline : Bool := false
  allowSpace : Bool := true
  deriving DecidableEq, Inhabited

namespace CloserRule

/-- The tokens a rule accepts as closer. -/
def accepts (r : CloserRule) (t : Token) : Bool :=
  t.isMarker r.closer r.run

/-- The tokens that end the search without a closer. -/
def forbids (r : CloserRule) (t : Token) : Bool :=
  (t.type == .newline && !r.allowNewline) || (t.type == .space && !r.allowSpace)

/-- The closer in a list of tokens whose first has index `i`. -/
def scan? (r : CloserRule) : Nat → List Token → Option Nat
  | _, [] => none
  | i, t :: ts =>
    if r.accepts t then some i
    else if r.forbids t then none
    else scan? r (i + 1) ts

/-- Whether a token of a type stands from `start` on before index `close`. Nothing is
asked when the type is allowed. -/
def blocked (allowed : Bool) (type : TokenType) (seq : TokenSeq) (start close : Nat) :
    Bool × TokenSeq :=
  if allowed then (false, seq)
  else
    let (first, seq) := seq.ask start { type }
    (first < close, seq)

/-- The closer at or after `start`, read from the tables of a sequence, and the
sequence behind the questions it took. -/
def search (r : CloserRule) (seq : TokenSeq) (start : Nat) : Option Nat × TokenSeq :=
  let (close, seq) := seq.ask start { type := r.closer, run := some r.run }
  if close = seq.size then (none, seq)
  else
    let (broken, seq) := blocked r.allowNewline .newline seq start close
    if broken then (none, seq)
    else
      let (spaced, seq) := blocked r.allowSpace .space seq start close
      (if spaced then none else some close, seq)

/-- The closer at or after `start`, read from the tables of a sequence. -/
def lookUp? (r : CloserRule) (seq : TokenSeq) (start : Nat) : Option Nat :=
  (r.search seq start).1

end CloserRule

/-- The first index from `i` on whose token satisfies `p`; the number of tokens
when there is none, and `i` itself when it lies behind the end. -/
def firstFrom (p : Token → Bool) (tokens : Array Token) (i : Nat) : Nat :=
  if h : i < tokens.size then
    if p tokens[i] then i else firstFrom p tokens (i + 1)
  else i
termination_by tokens.size - i

namespace TokenView

/-- The tokens of a view. -/
def tokens : TokenView → Array Token
  | plain tokens => tokens
  | indexed seq => seq.tokens

/-- The number of tokens. -/
def size (v : TokenView) : Nat :=
  v.tokens.size

/-- The token at an index. -/
def get? (v : TokenView) (i : Nat) : Option Token :=
  v.tokens[i]?

/-- There is a token at index `i`, and it is a marker of the type and run. -/
def isMarkerAt (v : TokenView) (i : Nat) (type : TokenType) (run : Int := 1) : Bool :=
  (v.get? i).any fun t => t.isMarker type run

/-- There is a token at index `i`, and it has the type. -/
def hasTypeAt (v : TokenView) (i : Nat) (type : TokenType) : Bool :=
  (v.get? i).any fun t => t.type == type

/-- The token that precedes index `i` in the note. Only a sequence knows what
stands before its first token. -/
def tokenBefore? (v : TokenView) (i : Nat) : Option Token :=
  match i, v with
  | i + 1, v => v.get? i
  | 0, indexed seq => seq.before
  | 0, plain _ => none

/-- The closer at or after `start`. -/
def closer? (v : TokenView) (start : Nat) (r : CloserRule) : Option Nat :=
  match v with
  | plain tokens => r.scan? start (tokens.toList.drop start)
  | indexed seq => r.lookUp? seq start

/-- The end of the word at `start`: the first index whose token has one of the
types `stops`. -/
def wordEnd (v : TokenView) (start : Nat) (stops : List TokenType) : Nat :=
  firstFrom (fun t => stops.contains t.type) v.tokens start

/-- The tokens from index `a` up to, and not including, index `b`. -/
def slice (v : TokenView) (a b : Nat) : List Token :=
  (v.tokens.extract a b).toList

end TokenView

end InlineMarkup
