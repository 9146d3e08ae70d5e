/-
# Matchers on loose sequences

The constructs are recognised on loose sequences by the same rules as on tokens,
and a question that fails ends the attempt. What is made of the content of a
delimited construct is said by a wrap: a leaf of the joined text, or a container
of the tokens themselves. So it is said once for tokens and for loose values.

A fixed matcher may give any record, and report anything as the number of tokens
it covers.

Key definitions: `Wrap`, `LooseMatch`, `LooseMatcher`, `LooseMatcher.delimited`,
`LooseMatcher.link`, `LooseMatcher.image`, `LooseMatcher.tag`,
`LooseMatcher.fixed`.
-/
import InlineMarkup.Loose.Lookahead
import InlineMarkup.Loose.Text
import InlineMarkup.Matcher.Construct

namespace InlineMarkup

/-- What a delimited construct makes of its content. -/
inductive Wrap where
  /-- a leaf of the joined text -/
  | leaf (make : String → Node)
  /-- a container that has not been parsed yet -/
  | box (kind : ContainerKind)

/-- The node of tokens. -/
def Wrap.node : Wrap → List Token → Node
  | leaf make, ts => make (joinTokens ts)
  | box kind, ts => Node.unparsed kind ts

/-- The record of loose values. -/
def Wrap.value : Wrap → List Value → Except Fault Value
  | leaf make, vs => (joinLoose vs).map fun s => (make s).stored
  | box kind, vs => .ok (.record kind.cls [.list vs, .list []])

/-- A recognised construct: its record and what it reports as the number of
tokens it covers. -/
structure LooseMatch where
  node : Value
  consumed : Json
  deriving Inhabited

/-- A way to recognise a construct among loose values, with a name. -/
structure LooseMatcher where
  name : String
  attempt : LooseSeq → Nat → Except Fault (Option LooseMatch)

namespace LooseMatcher

/-- A match that covers the values from `start` up to `stop`. -/
def covering (node : Value) (start stop : Nat) : Option LooseMatch :=
  some { node, consumed := .int (stop - start : Nat) }

/-- Recognises a construct between delimiters. -/
def delimited (d : Delimited) (wrap : Wrap) : LooseMatcher where
  name := d.name
  attempt seq start := do
    if !(← seq.isMarkerAt start d.marker d.run) then return none
    match ← seq.closer? (start + 1) d.closerRule with
    | none => return none
    | some close =>
      if close = start + 1 then return none
      if !d.allowEdgeSpace then
        let first ← seq.hasTypeAt (start + 1) .space
        let last ← seq.hasTypeAt (close - 1) .space
        if first || last then return none
      let node ← wrap.value (seq.slice (start + 1) close)
      return covering node start (close + 1)

/-- The index of the bracket that closes a label which opens at `start`. -/
def labelEnd? (seq : LooseSeq) (start : Nat) : Except Fault (Option Nat) := do
  if !(← seq.isMarkerAt start .leftBracket) then return none
  seq.closer? (start + 1) { closer := .rightBracket }

/-- The address whose parenthesis opens at `start`, with the index just behind
its closing parenthesis. -/
def address? (seq : LooseSeq) (start : Nat) : Except Fault (Option (String × Nat)) := do
  if !(← seq.isMarkerAt start .leftParen) then return none
  match ← seq.closer? (start + 1) { closer := .rightParen, allowSpace := false } with
  | none => return none
  | some close =>
    if close = start + 1 then return none
    let url ← joinLoose (seq.slice (start + 1) close)
    return some (url, close + 1)

/-- Recognises a link. -/
def link (name : String) : LooseMatcher where
  name := name
  attempt seq start := do
    match ← labelEnd? seq start with
    | none => return none
    | some close =>
      if close = start + 1 then return none
      match ← address? seq (close + 1) with
      | none => return none
      | some (url, stop) =>
        let label ← joinLoose (seq.slice (start + 1) close)
        return covering (Node.link label url).stored start stop

/-- Recognises an image. -/
def image (name : String) : LooseMatcher where
  name := name
  attempt seq start := do
    if !(← seq.isMarkerAt start .exclamation) then return none
    match ← labelEnd? seq (start + 1) with
    | none => return none
    | some close =>
      match ← address? seq (close + 1) with
      | none => return none
      | some (url, stop) =>
        let alt ← joinLoose (seq.slice (start + 2) close)
        return covering (Node.image alt url).stored start stop

/-- Whether a word may start at a position. -/
def startsWord (seq : LooseSeq) (start : Nat) : Except Fault Bool :=
  match seq.before? start with
  | none => .ok true
  | some v => v.tokenType.map fun type => type == some .space || type == some .newline

/-- Recognises a tag. -/
def tag (name : String) : LooseMatcher where
  name := name
  attempt seq start := do
    if !(← seq.isMarkerAt start .hash) then return none
    if !(← startsWord seq start) then return none
    let stop ← seq.wordEnd (start + 1) tagStops
    if stop = start + 1 then return none
    let content ← joinLoose (seq.slice (start + 1) stop)
    return covering (Node.tag content).stored start stop

/-- Gives the same match at every value, or at every token of the type `on`. -/
def fixed (name : String) (on : Option TokenType) (node : Value) (consumed : Json) :
    LooseMatcher where
  name := name
  attempt seq start :=
    match seq.items[start]?, on with
    | none, _ => .ok none
    | some _, none => .ok (some { node, consumed })
    | some v, some type =>
      v.tokenType.map fun t => if t == some type then some { node, consumed } else none

/-- What has a name and cannot match; to ask it for a match fails. -/
def unable (type name : String) : LooseMatcher where
  name := name
  attempt _ _ := .error (.noAttribute type "match")

end LooseMatcher

end InlineMarkup
