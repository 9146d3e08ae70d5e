/-
# JSON values in messages

A message that is about a value shows it in one line, with text in quotes.

Key definitions: `Json.literal`.
-/
import InlineMarkup.Json
import InlineMarkup.Text.Quoted

namespace InlineMarkup

namespace Json

mutual

/-- A value as a message shows it. -/
def literal : Json → String
  | null => "None"
  | bool true => "True"
  | bool false => "False"
  | int n => toString n
  | str s => quoted s
  | arr [] => "[]"
  | arr (v :: vs) => "[" ++ literal v ++ literalItems vs ++ "]"
  | obj [] => "\x7b\x7d"
  | obj ((name, v) :: ms) => "\x7b" ++ quoted name ++ ": " ++ literal v ++ literalMembers ms ++ "\x7d"

/-- The items of an array behind its first one. -/
def literalItems : List Json → String
  | [] => ""
  | v :: vs => ", " ++ literal v ++ literalItems vs

/-- The members of an object behind its first one. -/
def literalMembers : List (String × Json) → String
  | [] => ""
  | (name, v) :: ms => ", " ++ quoted name ++ ": " ++ literal v ++ literalMembers ms

end

/-- A value as running text shows it: a string stands as it is. -/
def plain : Json → String
  | str s => s
  | v => v.literal

end Json

end InlineMarkup
