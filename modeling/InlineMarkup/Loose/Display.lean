/-
# Tokens and nodes in messages

A token is shown by its type, its text in quotes, cut short when it is long, and
its offset. A record is shown by its class and its fields, a list in parentheses;
a list of one item has a comma behind the item.

A token whose value has no length cannot be shown, and one whose value is long
and cannot be cut short like a text cannot either. Nor can a type that is none,
or a number of too many digits.

Key definitions: `Token.display`, `LooseType.name`, `Value.display`.
-/
import InlineMarkup.Loose.Value

namespace InlineMarkup

/-- The length up to which the value of a token is shown whole. -/
def displayLimit : Nat := 20

/-- A plain value as a message shows it, if its numbers have a text. -/
def displayPlain (v : Json) : Except Fault String :=
  if v.hasText then .ok v.literal else .error .noNumberText

/-- A plain value as running text shows it: a text stands as it is. -/
def displayRunning : Json → Except Fault String
  | .str s => .ok s
  | v => displayPlain v

/-- The value of a token, cut short when it is long. -/
def displayedValue : Json → Except Fault Json
  | .str s => .ok (.str (shortened displayLimit 17 s))
  | .arr items =>
    if displayLimit < items.length then .error (.notJoinable (Json.arr items).typeName "str")
    else .ok (.arr items)
  | .obj members =>
    if displayLimit < members.length then .error (.notKey "slice") else .ok (.obj members)
  | v => .error (.noLength v.typeName)

/-- The name of a token's type. A plain value in its place has none. -/
def LooseType.name : LooseType → Except Fault String
  | proper type => .ok type.name
  | plain v => .error (.noAttribute v.typeName "name")

/-- How a token of any type, value and offset is shown. -/
def displayToken (type : LooseType) (value offset : Json) : Except Fault String := do
  let cut ← displayedValue value
  let name ← type.name
  let s ← displayPlain cut
  let place ← displayRunning offset
  pure ("Token(" ++ name ++ ", " ++ s ++ ", @" ++ place ++ ")")

/-- How a token is shown. -/
def Token.display (t : Token) : Except Fault String :=
  displayToken (.proper t.type) (.str t.value) (.int t.offset)

/-- Items in parentheses, with a comma behind a single one. -/
def inParentheses : List String → String
  | [] => "()"
  | [s] => "(" ++ s ++ ",)"
  | ss => "(" ++ String.intercalate ", " ss ++ ")"

mutual

/-- How a value is shown. -/
def Value.display : Value → Except Fault String
  | .plain v => displayPlain v
  | .list items => (displayItems items).map inParentheses
  | .token type value offset => displayToken type value offset
  | .record cls fields =>
    (displayItems fields).map fun ss =>
      cls.name ++ "(" ++
        String.intercalate ", " ((cls.fields.zip ss).map fun p => p.1 ++ "=" ++ p.2) ++ ")"

/-- How values are shown, up to the first that cannot be. -/
def displayItems : List Value → Except Fault (List String)
  | [] => .ok []
  | v :: vs =>
    match v.display with
    | .error fault => .error fault
    | .ok s => (displayItems vs).map (s :: ·)

end

/-- A value as running text shows it: a text stands as it is. -/
def Value.shown : Value → Except Fault String
  | .plain v => displayRunning v
  | v => v.display

end InlineMarkup
