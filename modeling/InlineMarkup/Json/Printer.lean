/-
# Writing JSON

Values are written in ASCII: quotes, backslashes and controls are escaped, and a
character beyond ASCII is written by its code units, two of them when it needs a
surrogate pair. Without an indent a value stands on one line; with an indent each
item stands on a line of its own, indented by its depth. Object members can be
put into the order of their names first, so that equal objects are written alike.

Key definitions: `Json.writeString`, `Json.write`, `Json.sorted`, `Json.render`.
-/
import InlineMarkup.Json
import InlineMarkup.Text.Quoted

namespace InlineMarkup

namespace Json

/-- A code unit as an escape. -/
def writeCodeUnit (n : Nat) : List Char :=
  backslash :: 'u' :: hexFixed 4 n

/-- A character as it stands in a string. -/
def writeChar (c : Char) : List Char :=
  if c = doubleQuote ∨ c = backslash then [backslash, c]
  else if c = '\n' then [backslash, 'n']
  else if c = '\r' then [backslash, 'r']
  else if c = '\t' then [backslash, 't']
  else if c = '\x0c' then [backslash, 'f']
  else if c = '\x08' then [backslash, 'b']
  else if 0x20 ≤ c.toNat ∧ c.toNat < 0x7f then [c]
  else if c.toNat < 0x10000 then writeCodeUnit c.toNat
  else
    writeCodeUnit (0xd800 + (c.toNat - 0x10000) / 0x400) ++
      writeCodeUnit (0xdc00 + (c.toNat - 0x10000) % 0x400)

/-- A string in quotes. -/
def writeString (s : String) : List Char :=
  doubleQuote :: (s.toList.flatMap writeChar ++ [doubleQuote])

/-- How items are set apart: on one line, or on lines of their own with `step`
blanks for each level of depth. -/
inductive Layout where
  | oneLine
  | lines (step : Nat)
  deriving DecidableEq, Inhabited

/-- What stands before the first item and behind the last one at a depth. -/
def Layout.edge (layout : Layout) (depth : Nat) : List Char :=
  match layout with
  | oneLine => []
  | lines step => '\n' :: List.replicate (step * depth) ' '

/-- What stands between two items at a depth. -/
def Layout.between (layout : Layout) (depth : Nat) : List Char :=
  match layout with
  | oneLine => [',', ' ']
  | lines _ => ',' :: layout.edge depth

mutual

/-- A value at a depth. -/
def write (layout : Layout) (depth : Nat) : Json → List Char
  | null => ['n', 'u', 'l', 'l']
  | bool true => ['t', 'r', 'u', 'e']
  | bool false => ['f', 'a', 'l', 's', 'e']
  | int n => decimalInt n
  | str s => writeString s
  | arr [] => ['[', ']']
  | arr (v :: vs) =>
    '[' :: (layout.edge (depth + 1) ++ write layout (depth + 1) v ++
      writeItems layout (depth + 1) vs ++ layout.edge depth ++ [']'])
  | obj [] => ['\x7b', '\x7d']
  | obj ((name, v) :: ms) =>
    '\x7b' :: (layout.edge (depth + 1) ++ writeString name ++ [':', ' '] ++
      write layout (depth + 1) v ++ writeMembers layout (depth + 1) ms ++
      layout.edge depth ++ ['\x7d'])

/-- The items of an array behind its first one. -/
def writeItems (layout : Layout) (depth : Nat) : List Json → List Char
  | [] => []
  | v :: vs => layout.between depth ++ write layout depth v ++ writeItems layout depth vs

/-- The members of an object behind its first one. -/
def writeMembers (layout : Layout) (depth : Nat) : List (String × Json) → List Char
  | [] => []
  | (name, v) :: ms =>
    layout.between depth ++ writeString name ++ [':', ' '] ++ write layout depth v ++
      writeMembers layout depth ms

end

/-- The member put into its place among members in the order of their names. -/
def insertSorted (m : String × Json) : List (String × Json) → List (String × Json)
  | [] => [m]
  | n :: ns => if m.1 ≤ n.1 then m :: n :: ns else n :: insertSorted m ns

mutual

/-- The value with the members of every object in the order of their names. -/
def sorted : Json → Json
  | arr items => arr (sortedItems items)
  | obj members => obj (sortedMembers members)
  | v => v

/-- The items with the members of every object in order. -/
def sortedItems : List Json → List Json
  | [] => []
  | v :: vs => sorted v :: sortedItems vs

/-- The members in the order of their names, and so inside them. -/
def sortedMembers : List (String × Json) → List (String × Json)
  | [] => []
  | (name, v) :: ms => insertSorted (name, sorted v) (sortedMembers ms)

end

/-- The layout that an indent asks for: none is one line, and a negative indent
is one of zero. -/
def Layout.ofIndent : Option Int → Layout
  | none => oneLine
  | some step => lines step.toNat

/-- A value as text, its members in order. -/
def render (indent : Option Int) (v : Json) : String :=
  String.ofList (v.sorted.write (Layout.ofIndent indent) 0)

/-- A value as text on one line, its members as they stand. -/
def compact (v : Json) : String :=
  String.ofList (v.write .oneLine 0)

end Json

end InlineMarkup
