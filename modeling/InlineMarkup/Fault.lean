/-
# Faults

What can go wrong in using the library: matchers that are registered or behave
wrongly, settings that make no sense, stored nodes that cannot be read, and
nodes asked for what they do not have. A fault is a cause with what it concerns;
its wording and its kind are derived from that.

A wording may show a value. A number of too many digits cannot be shown; then
there is another fault in the place of the first.

Key definitions: `FaultKind`, `FaultKind.wording`, `Fault`, `Fault.showing`,
`Fault.message`, `Fault.kind`.
-/
import InlineMarkup.Json.Reader
import InlineMarkup.Json.Literal
import InlineMarkup.NodeClass

namespace InlineMarkup

/-- The kinds of faults. The first three are the library's own; the others say
that a value, a type, an index or an attribute is not what it must be, or that a
size is too large. -/
inductive FaultKind where
  | general
  | matcher
  | serialization
  | value
  | type
  | index
  | attribute
  | overflow
  deriving DecidableEq, Inhabited

namespace FaultKind

/-- The kinds that are the library's own. -/
def isOwn : FaultKind → Bool
  | general => true
  | matcher => true
  | serialization => true
  | _ => false

/-- The kinds that are faults of a value. A stored node that cannot be read is
one. -/
def isValueFault : FaultKind → Bool
  | serialization => true
  | value => true
  | _ => false

end FaultKind

/-- A message about the matcher of a given name. -/
def aboutMatcher (name message : String) : String :=
  "Matcher '" ++ name ++ "': " ++ message

/-- The matcher that a fault of a kind names, when it is raised about `name`. -/
def FaultKind.matcherName? (k : FaultKind) (name : String) : Option String :=
  if k = .matcher then some name else none

/-- The wording of a fault of a kind that is raised about `name` with a message. -/
def FaultKind.wording (k : FaultKind) (name message : String) : String :=
  match k.matcherName? name with
  | none => message
  | some name => aboutMatcher name message

/-- A cause of failure. -/
inductive Fault where
  /-- a second matcher of this name -/
  | alreadyRegistered (name : String)
  /-- a matcher to be put before one that is not there -/
  | unknownNeighbour (name neighbour : String)
  /-- no matcher of this name to remove -/
  | notRegistered (name : String)
  /-- a matcher that matched at a position and consumed less than one token -/
  | nothingConsumed (name : String) (position : Nat) (consumed : Json)
  /-- a would-be matcher of this type without a name -/
  | nameMissing (type : String)
  /-- a would-be matcher of this type that cannot match -/
  | matchMissing (type : String)
  /-- a nesting depth below zero -/
  | negativeDepth (depth : Int)
  /-- a value of this type where an integer is compared -/
  | notComparable (type : String)
  /-- a node of a class that has no markup -/
  | noMarkup (type : String)
  /-- an index outside a sequence of this type -/
  | indexOutOfRange (type : String)
  /-- an index that is no position of any sequence -/
  | indexTooLarge
  /-- a size that nothing can have -/
  | sizeTooLarge
  /-- a text that is not JSON -/
  | badJson (fault : JsonFault)
  /-- a number of so many digits, which is more than are read -/
  | tooManyDigits (count : Nat)
  /-- a number of more digits than are written -/
  | noNumberText
  /-- a value of this type where an array of nodes must stand -/
  | arrayExpected (type : String)
  /-- a value of this type where a stored node must stand -/
  | recordExpected (type : String)
  /-- a stored node that does not say its class -/
  | classMissing
  /-- a stored node of a class that is none -/
  | unknownClass (value : Json)
  /-- a stored token whose type is none, or that lacks its type or value -/
  | badToken (members : List (String × Json))
  /-- a stored node of a class that lacks fields -/
  | fieldsMissing (type : NodeClass) (fields : List String)
  /-- too few values for the fields of a class -/
  | valuesMissing (type : NodeClass) (fields : List String)
  /-- a field that a class has not -/
  | fieldUnknown (type field : String)
  /-- a field of the name that the node itself goes by -/
  | fieldTaken (type field : String)
  /-- more values than a class has fields -/
  | fieldsSurplus (type : NodeClass) (given : Nat)
  /-- what is no record asked for its fields -/
  | notRecord
  /-- what is no record asked for a changed copy -/
  | notChangeable
  /-- a token where a node is written, whose type has no stored form there -/
  | typeUnwritable
  /-- a value of this type where a name is looked up -/
  | notKey (type : String)
  /-- an item at an index that is no text where texts are joined -/
  | textExpected (index : Nat) (type : String)
  /-- a value of the second type put behind one of the first -/
  | notJoinable (left right : String)
  /-- a value of the second type added to one of the first -/
  | notAddable (left right : String)
  /-- a value of this type where a list must stand -/
  | listExpected (type : String)
  /-- a value of this type where something with a length must stand -/
  | noLength (type : String)
  /-- a value of this type asked for an attribute that it has not -/
  | noAttribute (type name : String)
  deriving Inhabited

namespace Fault

/-- The fault that a text which cannot be read as JSON gives. -/
def ofJson (f : JsonFault) : Fault :=
  match f.cause with
  | .tooManyDigits count => .tooManyDigits count
  | _ => .badJson f

/-- The fault that comes of `fault`, whose wording shows `v`. -/
def showing (v : Json) (fault : Fault) : Fault :=
  if v.hasText then fault else .noNumberText

/-- The fault of a match that covers less than one token. -/
def ofShortMatch (name : String) (position : Nat) (consumed : Json) : Fault :=
  showing consumed (.nothingConsumed name position consumed)

/-- The fault of a value that names no class. -/
def ofClass (value : Json) : Fault :=
  showing value (.unknownClass value)

/-- The fault of a stored token that is none. -/
def ofToken (members : List (String × Json)) : Fault :=
  showing (.obj members) (.badToken members)

/-- The fault of a nesting depth below zero. -/
def ofDepth (depth : Int) : Fault :=
  showing (.int depth) (.negativeDepth depth)

/-- Names in quotes, the last two joined by "and". -/
def quotedNames : List String → String
  | [] => ""
  | [a] => quoted a
  | [a, b] => quoted a ++ " and " ++ quoted b
  | a :: rest => quoted a ++ ", " ++ quotedNames rest

/-- The fault that a field gives which a class has not. One name is taken by the
node itself. -/
def noField (type field : String) : Fault :=
  if field == "self" then .fieldTaken type field else .fieldUnknown type field

/-- How many values a node of a class is made of. The node itself counts as one. -/
def arity (type : NodeClass) : String :=
  let most := type.fields.length + 1
  let least := type.fields.countP (fun field => !type.isOptional field) + 1
  (if least = most then toString most else "from " ++ toString least ++ " to " ++ toString most) ++
    " positional argument" ++ (if most = 1 then "" else "s")

/-- Says that the values of some fields of a class are missing. -/
def lacking (type : NodeClass) (fields : List String) : String :=
  type.name ++ ".__init__() missing " ++ toString fields.length ++ " required positional argument" ++
    (if fields.length = 1 then "" else "s") ++ ": " ++ quotedNames fields

/-- Says that a number has more digits than numbers in text may have, with a
detail about it. -/
def overMaxDigits (detail : String) : String :=
  "Exceeds the limit (" ++ toString maxDigits ++ " digits) for integer string conversion" ++ detail ++
    "; use sys.set_int_max_str_digits() to increase the limit"

/-- Says that a number fits no word. -/
def overWord : String :=
  "cannot fit 'int' into an index-sized integer"

/-- The kind of a fault. -/
def kind : Fault → FaultKind
  | alreadyRegistered _ => .matcher
  | unknownNeighbour _ _ => .matcher
  | notRegistered _ => .matcher
  | nothingConsumed _ _ _ => .matcher
  | nameMissing _ => .type
  | matchMissing _ => .type
  | negativeDepth _ => .value
  | notComparable _ => .type
  | noMarkup _ => .type
  | indexOutOfRange _ => .index
  | indexTooLarge => .index
  | sizeTooLarge => .overflow
  | badJson _ => .serialization
  | tooManyDigits _ => .value
  | noNumberText => .value
  | arrayExpected _ => .serialization
  | recordExpected _ => .serialization
  | classMissing => .serialization
  | unknownClass _ => .serialization
  | badToken _ => .serialization
  | fieldsMissing _ _ => .serialization
  | valuesMissing _ _ => .type
  | fieldUnknown _ _ => .type
  | fieldTaken _ _ => .type
  | fieldsSurplus _ _ => .type
  | notRecord => .type
  | notChangeable => .type
  | typeUnwritable => .type
  | notKey _ => .type
  | textExpected _ _ => .type
  | notJoinable _ _ => .type
  | notAddable _ _ => .type
  | listExpected _ => .type
  | noLength _ => .type
  | noAttribute _ _ => .attribute

/-- The wording of a fault. -/
def message : Fault → String
  | alreadyRegistered name => aboutMatcher name "already registered"
  | unknownNeighbour name neighbour =>
    aboutMatcher name ("cannot insert before unknown matcher '" ++ neighbour ++ "'")
  | notRegistered name => aboutMatcher name "not registered"
  | nothingConsumed name position consumed =>
    aboutMatcher name
      ("matched at " ++ toString position ++ " but consumed " ++ consumed.plain ++ " tokens")
  | nameMissing type => "Matcher " ++ type ++ " missing 'name' attribute"
  | matchMissing type => "Matcher " ++ type ++ " missing 'match' method"
  | negativeDepth depth => "max_nesting_depth must be >= 0, got " ++ toString depth
  | notComparable type =>
    "'<' not supported between instances of '" ++ type ++ "' and 'int'"
  | noMarkup type => "Cannot restore markup for " ++ type
  | indexOutOfRange type => type ++ " index out of range"
  | indexTooLarge => overWord
  | sizeTooLarge => overWord
  | badJson fault => "Invalid JSON: " ++ fault.message
  | tooManyDigits count => overMaxDigits (": value has " ++ toString count ++ " digits")
  | noNumberText => overMaxDigits ""
  | arrayExpected type => "Expected a JSON array of nodes, got " ++ type
  | recordExpected type => "Expected a serialized node dict, got " ++ type
  | classMissing => "Missing '_type' field in serialized node"
  | unknownClass value => "Unknown node type: " ++ value.literal
  | badToken members => "Invalid serialized token: " ++ (Json.obj members).literal
  | fieldsMissing type fields => "Cannot build " ++ type.name ++ ": " ++ lacking type fields
  | valuesMissing type fields => lacking type fields
  | fieldUnknown type field =>
    type ++ ".__init__() got an unexpected keyword argument '" ++ field ++ "'"
  | fieldTaken type field =>
    type ++ ".__init__() got multiple values for argument '" ++ field ++ "'"
  | fieldsSurplus type given =>
    type.name ++ ".__init__() takes " ++ arity type ++ " but " ++ toString (given + 1) ++ " were given"
  | notRecord => "must be called with a dataclass type or instance"
  | notChangeable => "replace() should be called on dataclass instances"
  | typeUnwritable => "Object of type TokenType is not JSON serializable"
  | notKey type => "unhashable type: '" ++ type ++ "'"
  | textExpected index type =>
    "sequence item " ++ toString index ++ ": expected str instance, " ++ type ++ " found"
  | notJoinable left right =>
    "can only concatenate " ++ left ++ " (not \"" ++ right ++ "\") to " ++ left
  | notAddable left right =>
    "unsupported operand type(s) for +: '" ++ left ++ "' and '" ++ right ++ "'"
  | listExpected type => "'" ++ type ++ "' object is not iterable"
  | noLength type => "object of type '" ++ type ++ "' has no len()"
  | noAttribute type name => "'" ++ type ++ "' object has no attribute '" ++ name ++ "'"

end Fault

end InlineMarkup
