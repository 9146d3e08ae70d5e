/-
# Questions to a token sequence

The questions that can be put to a sequence of tokens, with their answers. An
index may be negative and then counts from the end; the bounds of a slice are
moved into the sequence. To ask for a token outside the sequence is a fault, and
so is to ask a bare array for what only a sequence with tables knows.

Questions about next tokens and closers fill tables of a sequence, and later
questions are put to the sequence with these tables.

Key definitions: `TokenQuery`, `TokenAnswer`, `TokenQuery.run`,
`TokenQuery.behind`, `TokenQuery.runAll`.
-/
import InlineMarkup.TokenView
import InlineMarkup.Loose.Display

namespace InlineMarkup

/-- A question about a sequence of tokens: the next token of a kind, the closer,
the end of a word, whether a marker stands at an index, the token before an
index, the token at an index, a slice, the number of tokens, the tokens
themselves, or how the sequence is shown. -/
inductive TokenQuery where
  | next (start : Nat) (kind : KindPattern)
  | closer (start : Nat) (rule : CloserRule)
  | word (start : Nat) (stops : List TokenType)
  | marker (i : Nat) (type : TokenType) (run : Int)
  | before (i : Nat)
  | index (i : Int)
  | slice (a b : Option Int)
  | size
  | all
  | summary

/-- The answer to a question. -/
inductive TokenAnswer where
  | number (n : Nat)
  | place (i : Option Nat)
  | verdict (b : Bool)
  | token (t : Option Token)
  | tokens (ts : List Token)
  | text (s : String)
  deriving Inhabited

/-- A position of a sequence of `size` elements, where negative numbers count
from the end. -/
def resolveIndex? (size : Nat) (i : Int) : Option Nat :=
  let j := if i < 0 then i + size else i
  if 0 ≤ j ∧ j < size then some j.toNat else none

/-- A bound of a slice: negative numbers count from the end, and what lies
outside is moved to the nearer end. -/
def resolveBound (size : Nat) (i : Int) : Nat :=
  let j := if i < 0 then i + size else i
  min j.toNat size

namespace TokenQuery

/-- The fault of an index at which there is no token. -/
def outside (i : Int) : Fault :=
  if fitsWord i then .indexOutOfRange "tuple" else .indexTooLarge

/-- Answers a question about the tokens of a view. -/
def run (view : TokenView) (q : TokenQuery) : Except Fault TokenAnswer :=
  match q with
  | next start kind =>
    match view with
    | .indexed seq => .ok (.number (seq.nextIndex start kind))
    | .plain _ => .error (.noAttribute "tuple" "next_index")
  | closer start rule => .ok (.place (view.closer? start rule))
  | word start stops => .ok (.number (view.wordEnd start stops))
  | marker i type run => .ok (.verdict (view.isMarkerAt i type run))
  | before i =>
    if view.size < i then .error (outside (i - 1)) else .ok (.token (view.tokenBefore? i))
  | index i =>
    match (resolveIndex? view.size i).bind view.get? with
    | none => .error (outside i)
    | some t => .ok (.token (some t))
  | slice a b =>
    .ok (.tokens (view.slice ((a.map (resolveBound view.size)).getD 0)
      ((b.map (resolveBound view.size)).getD view.size)))
  | size => .ok (.number view.size)
  | all => .ok (.tokens view.tokens.toList)
  | summary =>
    match view with
    | .indexed seq => .ok (.text seq.summary)
    | .plain ts => (ts.toList.mapM Token.display).map fun ss => .text (inParentheses ss)

/-- The view behind a question. -/
def behind (q : TokenQuery) (view : TokenView) : TokenView :=
  match q, view with
  | next start kind, .indexed seq => .indexed (seq.ask start kind).2
  | closer start rule, .indexed seq => .indexed (rule.search seq start).2
  | _, view => view

/-- The view behind questions put one after the other. -/
def behindAll (qs : List TokenQuery) (view : TokenView) : TokenView :=
  qs.foldl (fun view q => q.behind view) view

/-- Answers questions put one after the other. -/
def runAll (view : TokenView) : List TokenQuery → List (Except Fault TokenAnswer)
  | [] => []
  | q :: qs => q.run view :: runAll (q.behind view) qs

end TokenQuery

end InlineMarkup
