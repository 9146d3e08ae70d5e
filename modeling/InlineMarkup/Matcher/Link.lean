/-
# Links, images and tags

A link is a label in square brackets and, directly behind it, an address in round
ones; an image is the same behind an exclamation mark. Neither part may reach
over a line break. The address is not empty and holds no space; the label of a
link is not empty, and that of an image may be.

A tag is a single `#` at the start of a word, with the rest of the word behind it. A
word starts at the start of the note and behind a space or a line break; it ends
before the next space, line break or `#`. Inside a container the delimiters do not
count: what precedes the container precedes its content.

Key definitions: `labelEnd?`, `address?`, `linkAttempt`, `imageAttempt`,
`startsWord`, `tagAttempt`.
-/
import InlineMarkup.Matcher

namespace InlineMarkup

/-- The index of the bracket that closes a label which opens at `start`. -/
def labelEnd? (view : TokenView) (start : Nat) : Option Nat :=
  if view.isMarkerAt start .leftBracket then
    view.closer? (start + 1) { closer := .rightBracket }
  else none

/-- The address whose parenthesis opens at `start`, with the index just behind
its closing parenthesis. -/
def address? (view : TokenView) (start : Nat) : Option (String × Nat) :=
  if view.isMarkerAt start .leftParen then
    match view.closer? (start + 1) { closer := .rightParen, allowSpace := false } with
    | none => none
    | some close =>
      if close = start + 1 then none
      else some (joinTokens (view.slice (start + 1) close), close + 1)
  else none

/-- Recognises a link at a position. -/
def linkAttempt (view : TokenView) (start : Nat) : Option Match :=
  match labelEnd? view start with
  | none => none
  | some close =>
    if close = start + 1 then none
    else
      match address? view (close + 1) with
      | none => none
      | some (url, stop) =>
        some { node := .link (joinTokens (view.slice (start + 1) close)) url, consumed := stop - start }

/-- Recognises an image at a position. -/
def imageAttempt (view : TokenView) (start : Nat) : Option Match :=
  if view.isMarkerAt start .exclamation then
    match labelEnd? view (start + 1) with
    | none => none
    | some close =>
      match address? view (close + 1) with
      | none => none
      | some (url, stop) =>
        some { node := .image (joinTokens (view.slice (start + 2) close)) url, consumed := stop - start }
  else none

/-- The types that end the word of a tag. -/
def tagStops : List TokenType :=
  [.space, .newline, .hash]

/-- Whether a word may start at a position. -/
def startsWord (view : TokenView) (start : Nat) : Bool :=
  match view.tokenBefore? start with
  | none => true
  | some t => t.type == .space || t.type == .newline

/-- Recognises a tag at a position. -/
def tagAttempt (view : TokenView) (start : Nat) : Option Match :=
  if view.isMarkerAt start .hash && startsWord view start then
    let stop := view.wordEnd (start + 1) tagStops
    if stop = start + 1 then none
    else some { node := .tag (joinTokens (view.slice (start + 1) stop)), consumed := stop - start }
  else none

end InlineMarkup
