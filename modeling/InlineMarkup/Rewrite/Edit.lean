/-
# Edits

An edit changes a value that stands for a node in one of a few ways: it sets or
surrounds a field, replaces the value by a text, exchanges its class, drops the
children of a container or moves its content tokens.

An edit that does not fit fails: a field that a class has not cannot be set, what
is no text cannot be surrounded, and a class takes no more values than it has
fields. Only a move leaves what is no container as it is.

Key definitions: `Value.withField`, `Value.surround`, `Value.recast`,
`Value.move`, `Edit`, `Edit.apply`.
-/
import InlineMarkup.Loose.Text
import InlineMarkup.Rewrite.Attribute

namespace InlineMarkup

namespace Value

/-- The values of fields with that of one field replaced, if it is among them. -/
def replaceIn (field : String) (w : Value) : List String → List Value → Option (List Value)
  | name :: names, v :: vs =>
    if name == field then some (w :: vs) else (replaceIn field w names vs).map (v :: ·)
  | _, _ => none

/-- A value with the value of a field replaced by `w`. -/
def withField (v : Value) (field : String) (w : Value) : Except Fault Value :=
  match v with
  | record cls fields =>
    match replaceIn field w cls.fields fields with
    | none => .error (.noField cls.name field)
    | some fields => .ok (record cls fields)
  | token type value offset =>
    match field, w with
    | "type", plain new => .ok (token (.plain new) value offset)
    | "value", plain new => .ok (token type new offset)
    | "offset", plain new => .ok (token type value new)
    | _, _ => .error (.noField (token type value offset).typeName field)
  | _ => .error .notChangeable

/-- A value with a field put between two texts. A text that is no field can be
put between them, but there is nowhere to put the result. -/
def surround (v : Value) (field before after : String) : Except Fault Value :=
  match v.attribute field with
  | .error fault => .error fault
  | .ok (.field (.plain (.str s))) => v.withField field (.text (before ++ s ++ after))
  | .ok (.field w) => .error (.notJoinable "str" w.typeName)
  | .ok .text => v.withField field (.text (before ++ after))
  | .ok (.other type) => .error (.notJoinable "str" type)

/-- A value of the class `cls` with the same values in its fields, in order. A
token has three of them. -/
def recast (cls : NodeClass) : Value → Except Fault Value
  | record _ fields => make cls fields
  | token _ _ _ => .error (.fieldsSurplus cls 3)
  | _ => .error .notRecord

/-- Tokens moved by `delta`, up to the first item that cannot be. -/
def moveAll (delta : Int) : List Value → Except Fault (List Value)
  | [] => .ok []
  | token type value offset :: vs =>
    match offset.plus delta with
    | .error fault => .error fault
    | .ok offset => (moveAll delta vs).map (token type value (.int offset) :: ·)
  | v :: _ => .error (.noAttribute v.typeName "offset")

/-- A container with its content tokens moved by `delta`; every other value as it
is. -/
def move (delta : Int) : Value → Except Fault Value
  | record cls [content, children] =>
    if cls.isContainer then
      match content.items with
      | .error fault => .error fault
      | .ok vs => (moveAll delta vs).map fun vs => .record cls [.list vs, children]
    else .ok (record cls [content, children])
  | v => .ok v

/-- The text of the content tokens of a container. -/
def contentText : Value → Except Fault String
  | record cls [content, children] =>
    if cls.isContainer then joinContent content
    else .error (.noAttribute (record cls [content, children]).typeName "content_tokens")
  | v => .error (.noAttribute v.typeName "content_tokens")

end Value

/-- A change to a value that stands for a node: a field set or surrounded, a
container replaced by the text of its content tokens, a value replaced by its
plain text or by its markup, the class exchanged for another with the same values
in its fields, the children of a container dropped, its content tokens moved, or
the value replaced by a given one, which need not have come about. -/
inductive Edit where
  | set (field : String) (value : Json)
  | surround (field before after : String)
  | unwrap
  | flatten
  | spell
  | recast (cls : NodeClass)
  | childless
  | move (delta : Int)
  | replace (value : Except Fault Value)

/-- A text node that holds a value. -/
def textHolding (v : Value) : Value :=
  .record .text [v]

/-- A change applied to a value. -/
def Edit.apply (e : Edit) (v : Value) : Except Fault Value :=
  match e with
  | set field value => v.withField field (.plain value)
  | surround field before after => v.surround field before after
  | unwrap => v.contentText.map fun s => textHolding (.text s)
  | flatten => (Loose.textOf v).map textHolding
  | spell => (Loose.markupOf v).map textHolding
  | recast cls => v.recast cls
  | childless => v.withField "children" (.list [])
  | move delta => v.move delta
  | replace value => value

end InlineMarkup
