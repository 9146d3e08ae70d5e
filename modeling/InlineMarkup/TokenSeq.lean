/-
# Token sequences with next-kind tables

A sequence answers "where is the next token of this kind, from here on?" from a
table: the table of a kind has an entry for each position, and the entry is the
index of the first token at or after the position that is of the kind, or the
number of tokens when there is none. A table is filled from the back, when it is
first asked for, and kept for later questions. For a kind that does not occur the
answer is the number of tokens, and so is every entry of its table.

A question so has two results, its answer and the sequence behind it, which differs
from the one before by at most one filled table. A sequence also knows the token
that precedes it in the note.

Key definitions: `nextTable`, `TokenSeq`, `TokenSeq.ofList`,
`TokenSeq.nextIndex`, `TokenSeq.ask`.
-/
import InlineMarkup.Token

namespace InlineMarkup

/-- The table of `p` for the tokens from position `i` on, in a sequence of
`size` tokens. -/
def nextTable (p : Token → Bool) (size : Nat) : Nat → List Token → List Nat
  | _, [] => []
  | i, t :: ts =>
    let table := nextTable p size (i + 1) ts
    (if p t then i else table.headD size) :: table

/-- The patterns that describe a token: its type, and its type and length. -/
def Token.patterns (t : Token) : List KindPattern :=
  [{ type := t.type }, { type := t.type, run := some t.length }]

/-- The patterns that describe some token of a list, each once. -/
def patternsOf (ts : List Token) : List KindPattern :=
  (ts.flatMap Token.patterns).eraseDups

/-- Tokens in order, the token before them in the note, the table of each kind that
occurs, to be made on demand, and the tables filled so far. -/
structure TokenSeq where
  tokens : Array Token
  before : Option Token
  tables : List (KindPattern × Thunk (Array Nat))
  filled : List (KindPattern × Thunk (Array Nat)) := []

namespace TokenSeq

/-- The sequence of the tokens `ts`, which follow `before` in the note. No table is
filled yet. -/
def ofList (ts : List Token) (before : Option Token := none) : TokenSeq where
  tokens := ts.toArray
  before := before
  tables := (patternsOf ts).map fun k =>
    (k, Thunk.mk fun _ => (nextTable k.accepts ts.length 0 ts).toArray)

/-- The number of tokens. -/
def size (seq : TokenSeq) : Nat :=
  seq.tokens.size

/-- The table of a kind: the one that was filled, or else the one of a kind that
occurs. -/
def table? (seq : TokenSeq) (k : KindPattern) : Option (Thunk (Array Nat)) :=
  match seq.filled.lookup k with
  | some table => some table
  | none => seq.tables.lookup k

/-- The index of the first token at or after `start` that `k` describes, or the
number of tokens when there is none. -/
def nextIndex (seq : TokenSeq) (start : Nat) (k : KindPattern) : Nat :=
  if seq.size ≤ start then seq.size
  else
    match seq.table? k with
    | none => seq.size
    | some table => table.get.getD start seq.size

/-- The table of a kind that does not occur. -/
def emptyTable (seq : TokenSeq) : Thunk (Array Nat) :=
  Thunk.mk fun _ => Array.replicate seq.size seq.size

/-- The sequence with the table of a kind filled. -/
def fill (seq : TokenSeq) (k : KindPattern) : TokenSeq :=
  match seq.filled.lookup k with
  | some _ => seq
  | none => { seq with filled := (k, (seq.table? k).getD seq.emptyTable) :: seq.filled }

/-- The answer to a question for the next token of a kind, and the sequence behind
it. A question from behind the last token needs no table. -/
def ask (seq : TokenSeq) (start : Nat) (k : KindPattern) : Nat × TokenSeq :=
  (seq.nextIndex start k, if seq.size ≤ start then seq else seq.fill k)

/-- How a sequence is shown: by its number of tokens. -/
def summary (seq : TokenSeq) : String :=
  "TokenSequence(" ++ toString seq.size ++ " tokens)"

end TokenSeq

end InlineMarkup
