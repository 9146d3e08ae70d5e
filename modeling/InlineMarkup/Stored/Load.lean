/-
# Reading stored nodes

A stored node is a JSON object that names its class under `_type` and has a
member for each field. Members that belong to no field are ignored, and only the
children of a container may be missing. Inside a field an array is a list, an
object is a stored token when its `_type` says so and a stored node otherwise,
and everything else stands for itself.

The fields are read in the order of the class, and a fault inside one of them
comes before a missing field.

Key definitions: `lookUpName`, `loadValue`, `loadRecord`, `loadArray`, `loadNodes`.
-/
import InlineMarkup.Stored.Store

namespace InlineMarkup

/-- What a value leads to that stands for a name. Only a text is a name, and it leads
to what `find?` finds for it; arrays and objects cannot even be looked up. -/
def lookUpName {α : Type} (find? : String → Option α) (unknown : Fault) : Json → Except Fault α
  | .str s =>
    match find? s with
    | none => .error unknown
    | some a => .ok a
  | .arr items => .error (.notKey (Json.arr items).typeName)
  | .obj members => .error (.notKey (Json.obj members).typeName)
  | _ => .error unknown

/-- The class that the members of a stored node name. -/
def storedClass (members : List (String × Json)) : Except Fault NodeClass :=
  match Json.member? "_type" members with
  | none => .error .classMissing
  | some .null => .error .classMissing
  | some v => lookUpName NodeClass.ofStoredName? (.ofClass v) v

/-- Whether the members are those of a stored token. -/
def isStoredToken (members : List (String × Json)) : Bool :=
  match Json.member? "_type" members with
  | some (.str s) => s == "Token"
  | _ => false

/-- The token that the members of a stored token describe. Its value and its
offset are taken as they are; a missing offset is zero. -/
def loadToken (members : List (String × Json)) : Except Fault Value :=
  match Json.member? "type" members with
  | none => .error (.ofToken members)
  | some v => do
    let type ← lookUpName TokenType.ofName? (.ofToken members) v
    match Json.member? "value" members with
    | none => .error (.ofToken members)
    | some value => .ok (.token (.proper type) value ((Json.member? "offset" members).getD (.int 0)))

/-- Each field with what `read` gives for it, in order, up to the first fault. -/
def readFields (read : String → Except Fault (Option Value)) :
    List String → Except Fault (List (String × Option Value))
  | [] => .ok []
  | field :: rest =>
    match read field with
    | .error fault => .error fault
    | .ok v => (readFields read rest).map ((field, v) :: ·)

/-- The record that the members of a stored node describe, where `read` gives the
value of a field. -/
def recordOf (members : List (String × Json)) (read : String → Except Fault (Option Value)) :
    Except Fault Record :=
  match storedClass members with
  | .error fault => .error fault
  | .ok cls =>
    match readFields read cls.fields with
    | .error fault => .error fault
    | .ok found => Value.ofFields cls found

mutual

/-- The value that a JSON value describes inside a field. -/
def loadValue : Json → Except Fault Value
  | .null => .ok (.plain .null)
  | .bool b => .ok (.plain (.bool b))
  | .int n => .ok (.plain (.int n))
  | .str s => .ok (.plain (.str s))
  | .arr items => (loadItems items).map .list
  | .obj members =>
    if isStoredToken members then loadToken members
    else (recordOf members fun field => loadField field members).map Record.value

/-- The values that JSON values describe, in order, up to the first fault. -/
def loadItems : List Json → Except Fault (List Value)
  | [] => .ok []
  | v :: vs =>
    match loadValue v with
    | .error fault => .error fault
    | .ok w => (loadItems vs).map (w :: ·)

/-- The value that the member for a field describes, if there is such a member. -/
def loadField (field : String) : List (String × Json) → Except Fault (Option Value)
  | [] => .ok none
  | (name, v) :: members =>
    if name == field then (loadValue v).map some else loadField field members

end

/-- The record that a JSON value describes. -/
def loadRecord : Json → Except Fault Record
  | .obj members => recordOf members fun field => loadField field members
  | v => .error (.recordExpected v.typeName)

/-- The records that JSON values describe, in order, up to the first fault. -/
def loadRecords : List Json → Except Fault (List Record)
  | [] => .ok []
  | v :: vs =>
    match loadRecord v with
    | .error fault => .error fault
    | .ok r => (loadRecords vs).map (r :: ·)

/-- The records of a JSON value that must be an array of stored nodes. -/
def loadArray : Json → Except Fault (List Record)
  | .arr items => loadRecords items
  | v => .error (.arrayExpected v.typeName)

/-- The records of a JSON text that holds an array of stored nodes. -/
def loadNodes (text : String) (codec : JsonCodec := .standard) : Except Fault (List Record) :=
  match codec.read text with
  | .error fault => .error fault
  | .ok v => loadArray v

end InlineMarkup
