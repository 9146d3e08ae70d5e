/-
# Attributes

A value can be asked for what it has under a name. A field has a value. Of
everything else only the type counts, since it can be put nowhere. A token also
has its run, kind and end, which are found from its fields and fail where these
do not allow it. Records and tokens know some things about themselves, under
names between double underscores.

What is neither a record nor a token has nothing that a rule could use.

Key definitions: `Attribute`, `Value.attribute`.
-/
import InlineMarkup.Loose.Lookahead

namespace InlineMarkup

/-- What a value has under a name: the value of a field, a text that is no field,
or something else of a type. -/
inductive Attribute where
  | field (v : Value)
  | text
  | other (type : String)
  deriving Inhabited

/-- An integer added to a plain value. -/
def Json.plus (delta : Int) : Json → Except Fault Int
  | null => .error (.notAddable null.typeName "int")
  | obj ms => .error (.notAddable (obj ms).typeName "int")
  | str s => .error (.notJoinable (str s).typeName "int")
  | arr vs => .error (.notJoinable (arr vs).typeName "int")
  | bool b => .ok ((if b then 1 else 0) + delta)
  | int n => .ok (n + delta)

namespace Attribute

/-- An attribute that is a number. -/
def number : Attribute :=
  other "int"

/-- The type of a token as an attribute. -/
def ofType : LooseType → Attribute
  | .proper _ => other "TokenType"
  | .plain v => field (.plain v)

/-- Whether a token of a type and value has a run: that of a markup type is the
length of the value. -/
def checkRun (type : LooseType) (value : Json) : Except Fault Unit :=
  match type with
  | .plain v => .error (.noAttribute v.typeName "is_markup")
  | .proper type => if type.isMarkup then value.size.map fun _ => () else .ok ()

/-- Whether a token of a value and offset has an end. -/
def checkEnd (value offset : Json) : Except Fault Unit := do
  let size ← value.size
  let _ ← offset.plus size
  pure ()

/-- What a token has under a name that is its own. -/
def ofToken? (type : LooseType) (value offset : Json) (name : String) :
    Option (Except Fault Attribute) :=
  match name with
  | "type" => some (.ok (ofType type))
  | "value" => some (.ok (field (.plain value)))
  | "offset" => some (.ok (field (.plain offset)))
  | "run" => some ((checkRun type value).map fun _ => number)
  | "kind" => some ((checkRun type value).map fun _ => other "tuple")
  | "end" => some ((checkEnd value offset).map fun _ => number)
  | "is_marker" => some (.ok (other "method"))
  | _ => none

/-- What every record and token has under a name. -/
def aboutItself? (name : String) : Option Attribute :=
  if ["__doc__", "__module__"].contains name then some text
  else if ["__match_args__", "__slots__"].contains name then some (other "tuple")
  else if name == "__class__" then some (other "type")
  else if name == "__dataclass_fields__" then some (other "dict")
  else if name == "__dataclass_params__" then some (other "_DataclassParams")
  else if ["__delattr__", "__eq__", "__getstate__", "__hash__", "__init__", "__repr__",
      "__setattr__", "__setstate__"].contains name then some (other "method")
  else if ["__ge__", "__getattribute__", "__gt__", "__le__", "__lt__", "__ne__",
      "__str__"].contains name then some (other "method-wrapper")
  else if ["__dir__", "__format__", "__init_subclass__", "__new__", "__reduce__",
      "__reduce_ex__", "__sizeof__", "__subclasshook__"].contains name then
    some (other "builtin_function_or_method")
  else none

/-- What a record or token with some fields has under a name that is no field. The
types of its fields are known where there are any. -/
def ofFields? (fields : List String) (name : String) : Option Attribute :=
  if name == "__annotations__" && !fields.isEmpty then some (other "dict")
  else aboutItself? name

end Attribute

/-- What a value has under a name. -/
def Value.attribute (v : Value) (name : String) : Except Fault Attribute :=
  let missing : Fault := .noAttribute v.typeName name
  match v with
  | record cls fields =>
    match (cls.fields.zip fields).lookup name with
    | some w => .ok (.field w)
    | none => (Attribute.ofFields? cls.fields name).elim (.error missing) .ok
  | token type value offset =>
    match Attribute.ofToken? type value offset name with
    | some r => r
    | none => (Attribute.ofFields? ["type", "value", "offset"] name).elim (.error missing) .ok
  | _ => .error missing

end InlineMarkup
