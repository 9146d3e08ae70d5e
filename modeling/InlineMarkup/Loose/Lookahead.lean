/-
# Looking ahead among loose values

A loose sequence holds values where tokens are expected. Its questions are those
of a token sequence. They fail where a value is met that has no type, because it
is no token, or no length, because its text is no text. An array and an object
have a length as a text has.

A table of a kind is made from the back over the whole sequence, so the last
value that cannot be told to be of the kind is the one that fails it, wherever
the search starts.

Key definitions: `LooseSeq`, `LooseSeq.isMarkerAt`, `LooseSeq.closer?`,
`LooseSeq.wordEnd`, `LooseSeq.slice`.
-/
import InlineMarkup.Loose.Value
import InlineMarkup.TokenView

namespace InlineMarkup

/-- The length of a plain value. -/
def Json.size : Json → Except Fault Nat
  | str s => .ok s.length
  | arr items => .ok items.length
  | obj members => .ok members.length
  | v => .error (.noLength v.typeName)

namespace Value

/-- The type of a token, if it is a proper one. -/
def tokenType : Value → Except Fault (Option TokenType)
  | token (.proper type) _ _ => .ok (some type)
  | token (.plain _) _ _ => .ok none
  | v => .error (.noAttribute v.typeName "type")

/-- Whether a value is a marker of a type and run. -/
def isMarker (v : Value) (type : TokenType) (run : Int) : Except Fault Bool :=
  match v with
  | token (.proper t) value _ =>
    if t = type then value.size.map fun n => (n : Int) == run else .ok false
  | token (.plain _) _ _ => .ok false
  | v => .error (.noAttribute v.typeName "is_marker")

/-- Whether a pattern describes a value. -/
def accepted (k : KindPattern) (v : Value) : Except Fault Bool :=
  match v.tokenType with
  | .error fault => .error fault
  | .ok type =>
    match k.run with
    | none => .ok (type == some k.type)
    | some run => v.isMarker k.type run

end Value

/-- Values where tokens are expected, and the value before them. -/
structure LooseSeq where
  items : Array Value
  before : Option Value := none

namespace LooseSeq

/-- The tokens of a view as a loose sequence. -/
def ofView : TokenView → LooseSeq
  | .plain tokens => { items := tokens.map Token.stored }
  | .indexed seq => { items := seq.tokens.map Token.stored, before := seq.before.map Token.stored }

/-- The number of values. -/
def size (seq : LooseSeq) : Nat :=
  seq.items.size

/-- There is a value at index `i`, and it is a marker of the type and run. -/
def isMarkerAt (seq : LooseSeq) (i : Nat) (type : TokenType) (run : Int := 1) :
    Except Fault Bool :=
  match seq.items[i]? with
  | none => .ok false
  | some v => v.isMarker type run

/-- There is a value at index `i`, and it has the type. -/
def hasTypeAt (seq : LooseSeq) (i : Nat) (type : TokenType) : Except Fault Bool :=
  match seq.items[i]? with
  | none => .ok false
  | some v => v.tokenType.map (· == some type)

/-- The value that precedes index `i` in the note. -/
def before? (seq : LooseSeq) : Nat → Option Value
  | 0 => seq.before
  | i + 1 => seq.items[i]?

/-- Which of the values a pattern describes; the last one that cannot be told
fails it. -/
def acceptance (k : KindPattern) : List Value → Except Fault (List Bool)
  | [] => .ok []
  | v :: vs =>
    match acceptance k vs with
    | .error fault => .error fault
    | .ok bs => (v.accepted k).map (· :: bs)

/-- The index of the first value at or after `start` that `k` describes, or the
number of values when there is none. -/
def nextIndex (seq : LooseSeq) (start : Nat) (k : KindPattern) : Except Fault Nat :=
  if seq.size ≤ start then .ok seq.size
  else (acceptance k seq.items.toList).map fun bs => start + (bs.drop start).findIdx id

/-- The closer at or after `start`. -/
def closer? (seq : LooseSeq) (start : Nat) (r : CloserRule) : Except Fault (Option Nat) := do
  let close ← seq.nextIndex start { type := r.closer, run := some r.run }
  if close = seq.size then return none
  if !r.allowNewline then
    let line ← seq.nextIndex start { type := .newline }
    if line < close then return none
  if !r.allowSpace then
    let space ← seq.nextIndex start { type := .space }
    if space < close then return none
  return some close

/-- The number of values up to the first whose type is one of `stops`. -/
def wordLength (stops : List TokenType) : List Value → Except Fault Nat
  | [] => .ok 0
  | v :: vs =>
    match v.tokenType with
    | .error fault => .error fault
    | .ok type =>
      if type.any stops.contains then .ok 0 else (wordLength stops vs).map (· + 1)

/-- The end of the word at `start`. -/
def wordEnd (seq : LooseSeq) (start : Nat) (stops : List TokenType) : Except Fault Nat :=
  (wordLength stops (seq.items.toList.drop start)).map (start + ·)

/-- The values from index `a` up to, and not including, index `b`. -/
def slice (seq : LooseSeq) (a b : Nat) : List Value :=
  (seq.items.extract a b).toList

end LooseSeq

end InlineMarkup
