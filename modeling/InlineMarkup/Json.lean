/-
# JSON values

The values in which nodes are stored. Numbers are integers of any size. The
members of an object keep the order in which they were written; a name written
twice keeps its first place and its last value.

Key definitions: `Json`, `Json.member?`, `Json.setMember`, `Json.same`,
`Json.typeName`, `Json.hasText`.
-/
import InlineMarkup.Text.Digits

namespace InlineMarkup

/-- A JSON value with integer numbers. -/
inductive Json where
  | null
  | bool (b : Bool)
  | int (n : Int)
  | str (s : String)
  | arr (items : List Json)
  | obj (members : List (String × Json))
  deriving Inhabited

namespace Json

/-- The value of the member with a given name. -/
def member? (name : String) (members : List (String × Json)) : Option Json :=
  members.lookup name

/-- The members with `name` set to `value`: in the place of the member of that
name, or at the end when there is none. -/
def setMember (members : List (String × Json)) (name : String) (value : Json) :
    List (String × Json) :=
  if members.any fun m => m.1 == name then
    members.map fun m => if m.1 == name then (name, value) else m
  else members ++ [(name, value)]

/-- The members of an object that is written as the pairs `pairs`. -/
def membersOf (pairs : List (String × Json)) : List (String × Json) :=
  pairs.foldl (fun ms p => setMember ms p.1 p.2) []

/-- The integer that a number or a truth value stands for. -/
def toInt? : Json → Option Int
  | .int n => some n
  | .bool b => some (if b then 1 else 0)
  | _ => none

/-- Whether a value counts as true where a flag is asked for: null, false, zero
and what is empty do not. -/
def truthy : Json → Bool
  | null => false
  | bool b => b
  | int n => n != 0
  | str s => s != ""
  | arr items => !items.isEmpty
  | obj members => !members.isEmpty

/-- The name of a value's type in messages. -/
def typeName : Json → String
  | null => "NoneType"
  | bool _ => "bool"
  | int _ => "int"
  | str _ => "str"
  | arr _ => "list"
  | obj _ => "dict"

mutual

/-- JSON values are the same when they are equal as numbers, texts or lists, or
are objects with the same members in any order. A truth value equals the number
it stands for. -/
def same : Json → Json → Bool
  | null, null => true
  | str a, str b => a == b
  | arr as, arr bs => sameItems as bs
  | obj ms, obj ns => ms.length == ns.length && sameMembers ms ns
  | bool a, bool b => a == b
  | int a, int b => a == b
  | bool a, int b => (if a then 1 else 0) == b
  | int a, bool b => a == (if b then 1 else 0)
  | _, _ => false

/-- Lists of JSON values are the same when they are so item by item. -/
def sameItems : List Json → List Json → Bool
  | [], [] => true
  | a :: as, b :: bs => same a b && sameItems as bs
  | _, _ => false

/-- Each of the members has an equal one of its name among the others. -/
def sameMembers : List (String × Json) → List (String × Json) → Bool
  | [], _ => true
  | (name, a) :: ms, ns =>
    (match member? name ns with
      | none => false
      | some b => same a b) && sameMembers ms ns

end

mutual

/-- Whether all numbers in a value have few enough digits to be written. -/
def hasText : Json → Bool
  | int n => InlineMarkup.hasText n
  | arr items => itemsHaveText items
  | obj members => membersHaveText members
  | _ => true

/-- Whether all numbers in the values of a list do. -/
def itemsHaveText : List Json → Bool
  | [] => true
  | v :: vs => hasText v && itemsHaveText vs

/-- Whether all numbers in the values of members do. -/
def membersHaveText : List (String × Json) → Bool
  | [] => true
  | (_, v) :: ms => hasText v && membersHaveText ms

end

end Json

end InlineMarkup
