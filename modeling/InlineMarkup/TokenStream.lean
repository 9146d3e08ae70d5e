/-
# Token streams that share a cursor

A note can be read through several token streams. They share one cursor. A
stream starts at the cursor of the moment it is first resumed; from then on it
remembers where its last token stopped, and moves the shared cursor there when
it is resumed again. A stream that has ended stays ended.

Key definitions: `TokenStream`, `StreamPool`, `StreamPool.resume`,
`StreamPool.drain`, `StreamPool.run`.
-/
import InlineMarkup.Tokenizer

namespace InlineMarkup

/-- Where a stream stands between two resumptions: `fresh` has not been resumed
yet, `paused` handed out a token that stops at the given offset, and `ended`
reached the end of the note. -/
inductive TokenStream where
  | fresh
  | paused (stop : Nat)
  | ended
  deriving DecidableEq, Inhabited

/-- A note, the shared cursor, and the streams created so far. -/
structure StreamPool where
  source : List Char
  cursor : Nat := 0
  streams : List TokenStream := []
  deriving Inhabited

namespace StreamPool

/-- No streams yet, and the cursor at the start of the note. -/
def ofSource (source : String) : StreamPool :=
  { source := source.toList }

/-- A new stream; its number is the count of streams before it. -/
def create (p : StreamPool) : Nat × StreamPool :=
  (p.streams.length, { p with streams := p.streams ++ [.fresh] })

/-- The token that starts at the shared cursor. -/
def tokenAtCursor? (p : StreamPool) : Option Token :=
  firstToken? p.cursor (p.source.drop p.cursor)

/-- Stream `i` goes on from the shared cursor: it hands out the token there and
remembers where that stops, or it ends. -/
def advance (p : StreamPool) (i : Nat) : Option Token × StreamPool :=
  match p.tokenAtCursor? with
  | none => (none, { p with streams := p.streams.set i .ended })
  | some t => (some t, { p with streams := p.streams.set i (.paused (p.cursor + t.length)) })

/-- The next token of stream `i`. A paused stream first puts the shared cursor
behind its own last token. -/
def resume (p : StreamPool) (i : Nat) : Option Token × StreamPool :=
  match p.streams[i]? with
  | none => (none, p)
  | some .ended => (none, p)
  | some .fresh => p.advance i
  | some (.paused stop) => advance { p with cursor := stop } i

/-- At most `fuel` further tokens of stream `i`. -/
def drainUpTo : Nat → StreamPool → Nat → List Token × StreamPool
  | 0, p, _ => ([], p)
  | fuel + 1, p, i =>
    match p.resume i with
    | (none, p) => ([], p)
    | (some t, p) =>
      let (ts, p) := drainUpTo fuel p i
      (t :: ts, p)

/-- All remaining tokens of stream `i`. A stream has no more tokens than the
note has characters, and one resumption more finds the end. -/
def drain (p : StreamPool) (i : Nat) : List Token × StreamPool :=
  drainUpTo (p.source.length + 1) p i

end StreamPool

/-- What is asked of the streams: a new stream, the next token of one, or all of
its remaining tokens. -/
inductive StreamCall where
  | create
  | next (i : Nat)
  | rest (i : Nat)
  deriving DecidableEq, Inhabited

/-- The answer to a call: the number of a new stream, a token if there was one,
or tokens. -/
inductive StreamReply where
  | created (i : Nat)
  | token (t : Option Token)
  | tokens (ts : List Token)
  deriving Inhabited

namespace StreamPool

/-- Answers a call. -/
def call (p : StreamPool) : StreamCall → StreamReply × StreamPool
  | .create =>
    let (i, p) := p.create
    (.created i, p)
  | .next i =>
    let (t, p) := p.resume i
    (.token t, p)
  | .rest i =>
    let (ts, p) := p.drain i
    (.tokens ts, p)

/-- Answers calls in order. -/
def run (p : StreamPool) : List StreamCall → List StreamReply × StreamPool
  | [] => ([], p)
  | c :: cs =>
    let (reply, p) := p.call c
    let (replies, p) := run p cs
    (reply :: replies, p)

end StreamPool

end InlineMarkup
