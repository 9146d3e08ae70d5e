/-
# Loose values

What the fields of a node hold is not checked when the node is read from outside
or changed by a rule. A loose value is whatever may stand there: a plain value, a
list that no longer changes, a token with any type, value and offset, or a record,
which is a class of nodes with a value for each of its fields.

A record need not be a node of the language; `Value.node?` tells whether it is
one. Every node has its record (`Node.stored`), and that is the node again.

Key definitions: `LooseType`, `Value`, `Record`, `Value.items`, `Value.make`,
`Node.stored`, `Value.node?`. Key theorem: `Value.node?_stored`.
-/
import InlineMarkup.Node
import InlineMarkup.Fault

namespace InlineMarkup

/-- What may stand where the type of a token is expected: a proper type, or a plain
value in its place. -/
inductive LooseType where
  | proper (type : TokenType)
  | plain (v : Json)
  deriving Inhabited

/-- Types are the same when they are one proper type or equal plain values. -/
def LooseType.same : LooseType → LooseType → Bool
  | proper t, proper u => t == u
  | plain a, plain b => a.same b
  | _, _ => false

/-- What may stand where a node or the field of a node is expected. -/
inductive Value where
  | plain (v : Json)
  | list (items : List Value)
  | token (type : LooseType) (value offset : Json)
  | record (cls : NodeClass) (fields : List Value)
  deriving Inhabited

/-- A class and the values of its fields, in the order of the class. -/
structure Record where
  cls : NodeClass
  fields : List Value
  deriving Inhabited

/-- A record as a value. -/
def Record.value (r : Record) : Value :=
  .record r.cls r.fields

namespace Value

/-- A text as a value. -/
def text (s : String) : Value :=
  .plain (.str s)

/-- The name of a value's type in messages. -/
def typeName : Value → String
  | plain v => v.typeName
  | list _ => "tuple"
  | token _ _ _ => "Token"
  | record cls _ => cls.name

/-- Whether a value counts as present: null, false, zero and what is empty do
not. -/
def present : Value → Bool
  | plain v => v.truthy
  | list items => !items.isEmpty
  | token _ _ _ => true
  | record _ _ => true

/-- The values that are met when a plain value is walked through: the characters
of a text, the items of an array, the names of an object. -/
def plainItems : Json → Except Fault (List Value)
  | .str s => .ok (s.toList.map fun c => text (String.singleton c))
  | .arr vs => .ok (vs.map plain)
  | .obj members => .ok (members.map fun m => text m.1)
  | v => .error (.listExpected v.typeName)

/-- The values that are met when a value is walked through. -/
def items : Value → Except Fault (List Value)
  | list vs => .ok vs
  | plain v => plainItems v
  | v => .error (.listExpected v.typeName)

/-- The values below a container: those that are met when its children are walked
through. Below everything else there are none. -/
def inner : Value → Except Fault (List Value)
  | record cls [_, children] => if cls.isContainer then children.items else .ok []
  | _ => .ok []

/-- The values below the values of a list. -/
def innerAll : List Value → Except Fault (List Value)
  | [] => .ok []
  | v :: vs =>
    match v.inner with
    | .error fault => .error fault
    | .ok front => (innerAll vs).map (front ++ ·)

/-- What a field holds that was not given, if it need not be. -/
def missing? (cls : NodeClass) (field : String) : Option Value :=
  if cls.isOptional field then some (.list []) else none

/-- The values of the fields, each as it was given or as it is when it was not,
or the names of the fields that lack a value. -/
def completeFields (cls : NodeClass) :
    List (String × Option Value) → Except (List String) (List Value)
  | [] => .ok []
  | (field, given) :: rest =>
    match given <|> missing? cls field, completeFields cls rest with
    | some v, .ok vs => .ok (v :: vs)
    | some _, .error names => .error names
    | none, .ok _ => .error [field]
    | none, .error names => .error (field :: names)

/-- The record of a class from what was given for its fields. -/
def ofFields (cls : NodeClass) (given : List (String × Option Value)) : Except Fault Record :=
  match completeFields cls given with
  | .error names => .error (.fieldsMissing cls names)
  | .ok fields => .ok { cls, fields }

/-- Values with the names of the fields they are for; fields without a value come
last. -/
def pairFields : List String → List Value → List (String × Option Value)
  | [], _ => []
  | field :: rest, [] => (field, none) :: pairFields rest []
  | field :: rest, v :: vs => (field, some v) :: pairFields rest vs

/-- The record of a class from values in the order of its fields. -/
def make (cls : NodeClass) (values : List Value) : Except Fault Value :=
  if cls.fields.length < values.length then .error (.fieldsSurplus cls values.length)
  else
    match completeFields cls (pairFields cls.fields values) with
    | .error names => .error (.valuesMissing cls names)
    | .ok fields => .ok (.record cls fields)

end Value

/-- A token as a value. -/
def Token.stored (t : Token) : Value :=
  .token (.proper t.type) (.str t.value) (.int t.offset)

namespace Value

/-- The token that a value is. -/
def token? : Value → Option Token
  | .token (.proper type) (.str value) (.int offset) => some { type, value, offset }
  | _ => none

/-- The tokens that the values of a list are, if all of them are tokens. -/
def tokens? : List Value → Option (List Token)
  | [] => some []
  | v :: vs =>
    match v.token?, tokens? vs with
    | some t, some ts => some (t :: ts)
    | _, _ => none

end Value

namespace Node

mutual

/-- A node as a value. -/
def stored : Node → Value
  | bare => .record .node []
  | text content => .record .text [.text content]
  | code content => .record .code [.text content]
  | image alt url => .record .image [.text alt, .text url]
  | link label url => .record .link [.text label, .text url]
  | wikiLink target => .record .wikiLink [.text target]
  | highlight content => .record .highlight [.text content]
  | tag content => .record .tag [.text content]
  | container kind content children =>
    .record kind.cls [.list (content.map Token.stored), .list (storedAll children)]

/-- Nodes as values. -/
def storedAll : List Node → List Value
  | [] => []
  | n :: ns => stored n :: storedAll ns

end

end Node

/-- The kind of container that a class is. -/
def NodeClass.containerKind? : NodeClass → Option ContainerKind
  | container => some .plain
  | bold => some .bold
  | italic => some .italic
  | strikethrough => some .strikethrough
  | _ => none

namespace Value

mutual

/-- The node that a value is. -/
def node? : Value → Option Node
  | .record .node [] => some .bare
  | .record .text [.plain (.str content)] => some (.text content)
  | .record .code [.plain (.str content)] => some (.code content)
  | .record .image [.plain (.str alt), .plain (.str url)] => some (.image alt url)
  | .record .link [.plain (.str label), .plain (.str url)] => some (.link label url)
  | .record .wikiLink [.plain (.str target)] => some (.wikiLink target)
  | .record .highlight [.plain (.str content)] => some (.highlight content)
  | .record .tag [.plain (.str content)] => some (.tag content)
  | .record cls [.list content, .list children] =>
    match cls.containerKind?, tokens? content, nodes? children with
    | some kind, some ts, some ns => some (.container kind ts ns)
    | _, _, _ => none
  | _ => none

/-- The nodes that the values of a list are, if all of them are nodes. -/
def nodes? : List Value → Option (List Node)
  | [] => some []
  | v :: vs =>
    match node? v, nodes? vs with
    | some n, some ns => some (n :: ns)
    | _, _ => none

end

/-- A token is the token that its value is. -/
theorem token?_stored (t : Token) : t.stored.token? = some t :=
  rfl

/-- Tokens are the tokens that their values are. -/
theorem tokens?_stored : ∀ ts : List Token, tokens? (ts.map Token.stored) = some ts
  | [] => rfl
  | t :: ts => by simp [tokens?, token?_stored, tokens?_stored ts]

mutual

/-- A node is the node that its value is. -/
theorem node?_stored : ∀ n : Node, n.stored.node? = some n
  | .bare => rfl
  | .text _ => rfl
  | .code _ => rfl
  | .image _ _ => rfl
  | .link _ _ => rfl
  | .wikiLink _ => rfl
  | .highlight _ => rfl
  | .tag _ => rfl
  | .container kind content children => by
    cases kind <;>
      simp [Node.stored, ContainerKind.cls, node?, NodeClass.containerKind?, tokens?_stored,
        nodes?_storedAll children]

/-- Nodes are the nodes that their values are. -/
theorem nodes?_storedAll : ∀ ns : List Node, nodes? (Node.storedAll ns) = some ns
  | [] => rfl
  | n :: ns => by simp [Node.storedAll, nodes?, node?_stored n, nodes?_storedAll ns]

end

mutual

/-- Values are the same when they are equal as plain values, lists, tokens or
records. Offsets of tokens do not count. -/
def same : Value → Value → Bool
  | .plain a, .plain b => a.same b
  | .list as, .list bs => sameAll as bs
  | .token t v _, .token u w _ => t.same u && v.same w
  | .record c as, .record d bs => c == d && sameAll as bs
  | _, _ => false

/-- Lists of values are the same when they are so item by item. -/
def sameAll : List Value → List Value → Bool
  | [], [] => true
  | a :: as, b :: bs => same a b && sameAll as bs
  | _, _ => false

end

end Value

/-- The node that a record is. -/
def Record.node? (r : Record) : Option Node :=
  r.value.node?

end InlineMarkup
