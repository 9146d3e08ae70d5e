/-
# Matchers

A matcher tries to recognise one construct at a position of a token sequence. A
match gives the node and the number of tokens it covers, delimiters included.
A matcher is a pure function of what it sees and of the position, and nothing
more is asked of it: the number it reports may be anything.

A fixed matcher gives the same match at every token, or at every token of one type,
whatever the tokens around it, so it shows what the engine makes of matchers that do
not behave.

Key definitions: `Match`, `Matcher`, `firstMatch?`, `Fixed.matcher`.
-/
import InlineMarkup.Node
import InlineMarkup.TokenView

namespace InlineMarkup

/-- A recognised construct: its node and the number of tokens it covers. -/
structure Match where
  node : Node
  consumed : Int
  deriving Inhabited

/-- A way to recognise a construct, with a name. -/
structure Matcher where
  name : String
  attempt : TokenView → Nat → Option Match

/-- The first matcher that matches at a position, with its match. -/
def firstMatch? : List Matcher → TokenView → Nat → Option (Matcher × Match)
  | [], _, _ => none
  | m :: ms, view, position =>
    match m.attempt view position with
    | some found => some (m, found)
    | none => firstMatch? ms view position

/-- A match to be given at every token, or at every token of the type `on`. -/
structure Fixed where
  name : String
  on : Option TokenType := none
  node : Node
  consumed : Int

namespace Fixed

/-- Gives the match where a token stands, provided it has the type asked for. -/
def attempt (f : Fixed) (view : TokenView) (start : Nat) : Option Match :=
  if (view.get? start).any fun t => f.on.all fun type => t.type == type then
    some { node := f.node, consumed := f.consumed }
  else none

/-- The fixed match as a matcher. -/
def matcher (f : Fixed) : Matcher :=
  { name := f.name, attempt := f.attempt }

end Fixed

end InlineMarkup
