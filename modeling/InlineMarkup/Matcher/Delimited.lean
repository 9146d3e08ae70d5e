/-
# Constructs between delimiters

Most constructs have one shape: an opening marker, at least one token of content,
and a closing marker of the same run. The first closer behind the opener counts.
When it is not acceptable, because nothing stands before it or because a space
touches a delimiter that allows none, the construct is not there, and no later
closer is tried.

Key definitions: `Delimited`, `Delimited.attempt`.
-/
import InlineMarkup.Matcher

namespace InlineMarkup

/-- A construct between delimiters: its opening marker, the run of both
delimiters, the type of the closing marker when it is another one, what the
content may hold, and the node made of the content. -/
structure Delimited where
  name : String
  marker : TokenType
  run : Int
  build : List Token → Node
  closer : Option TokenType := none
  allowNewline : Bool := false
  allowSpace : Bool := true
  allowEdgeSpace : Bool := true

namespace Delimited

/-- The rule for the closing marker. -/
def closerRule (d : Delimited) : CloserRule where
  closer := d.closer.getD d.marker
  run := d.run
  allowNewline := d.allowNewline
  allowSpace := d.allowSpace

/-- Recognises the construct at a position. -/
def attempt (d : Delimited) (view : TokenView) (start : Nat) : Option Match :=
  if view.isMarkerAt start d.marker d.run then
    match view.closer? (start + 1) d.closerRule with
    | none => none
    | some close =>
      if close = start + 1 then none
      else if !d.allowEdgeSpace &&
          (view.hasTypeAt (start + 1) .space || view.hasTypeAt (close - 1) .space) then none
      else some { node := d.build (view.slice (start + 1) close), consumed := close - start + 1 }
  else none

/-- The construct as a matcher. -/
def matcher (d : Delimited) : Matcher :=
  { name := d.name, attempt := d.attempt }

end Delimited

end InlineMarkup
