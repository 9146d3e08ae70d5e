/-
# Writing stored nodes

A record is written as a JSON object that names its class and has a member for
each field, in the order of the class. Lists become arrays, tokens become objects
with type, value and offset. As text the members stand in the order of their
names, so that the text of a node never varies.

The type of a token is written by its name only inside a record. A token that
stands where a record should has a type that cannot be written, which shows when
all the records have been gone through.

A codec writes values as texts and reads texts as values. The standard one writes
the members of an object in the order of their names and reads one value from a
text. An indent is a size, and a number of too many digits has no text; the first
fault of a text is the one reported.

Key definitions: `storeValue`, `Record.store`, `Node.store`, `storeRecords`,
`JsonCodec`, `JsonCodec.standard`, `storeNodes`.
-/
import InlineMarkup.Loose.Value
import InlineMarkup.Json.Printer

namespace InlineMarkup

/-- The type of a token as JSON: its name, or the plain value in its place. -/
def LooseType.store : LooseType → Json
  | proper type => .str type.name
  | plain v => v

mutual

/-- A value as JSON. -/
def storeValue : Value → Json
  | .plain v => v
  | .list items => .arr (storeItems items)
  | .token type value offset =>
    .obj [("_type", .str "Token"), ("type", type.store), ("value", value), ("offset", offset)]
  | .record cls fields => .obj (("_type", .str cls.name) :: cls.fields.zip (storeItems fields))

/-- Values as JSON. -/
def storeItems : List Value → List Json
  | [] => []
  | v :: vs => storeValue v :: storeItems vs

end

/-- A record as JSON. -/
def Record.store (r : Record) : Json :=
  storeValue r.value

/-- A node as JSON. -/
def Node.store (n : Node) : Json :=
  storeValue n.stored

mutual

/-- The first plain value in the place of a type in a value. -/
def Value.strayType? : Value → Option Json
  | .plain _ => none
  | .list items => strayTypes? items
  | .token (.proper _) _ _ => none
  | .token (.plain v) _ _ => some v
  | .record _ fields => strayTypes? fields

/-- The first plain value in the place of a type in values. -/
def strayTypes? : List Value → Option Json
  | [] => none
  | v :: vs => v.strayType? <|> strayTypes? vs

end

/-- A value that must be a record, as JSON. -/
def storeRecord : Value → Except Fault Json
  | .record cls fields =>
    match strayTypes? fields with
    | some v => .error (.noAttribute v.typeName "name")
    | none => .ok (storeValue (.record cls fields))
  | .token (.proper _) _ _ => .error .typeUnwritable
  | .token (.plain v) value offset => .ok (storeValue (.token (.plain v) value offset))
  | _ => .error .notRecord

/-- Values that must be records, as JSON, up to the first that is none. -/
def storeRecords : List Value → Except Fault (List Json)
  | [] => .ok []
  | v :: vs =>
    match storeRecord v, storeRecords vs with
    | .error .typeUnwritable, .error fault => .error fault
    | .error fault, _ => .error fault
    | .ok j, rest => rest.map (j :: ·)

/-- How values are written as texts, with an indent or on one line, and how texts
are read as values. -/
structure JsonCodec where
  write : Option Int → Json → Except Fault String
  read : String → Except Fault Json

/-- The codec that nodes are stored by. -/
def JsonCodec.standard : JsonCodec where
  write indent v :=
    if !indent.all fitsWord then .error .sizeTooLarge
    else if !v.hasText then .error .noNumberText
    else .ok (v.render indent)
  read text := (Json.parse text).mapError Fault.ofJson

/-- Records as a JSON text, with an indent or on one line. -/
def storeNodes (records : List Value) (indent : Option Int := none)
    (codec : JsonCodec := .standard) : Except Fault String :=
  match storeRecords records with
  | .error fault => .error fault
  | .ok vs => codec.write indent (.arr vs)

end InlineMarkup
