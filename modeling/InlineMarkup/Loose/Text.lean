/-
# Text, markup and tags of loose values

Loose values can be asked for their text, their markup and their tags as nodes
can. Where a field does not hold what it should, the answer is a fault: texts are
joined with other values, what is no list is walked through, or a value that
cannot be a key is looked up. A field that is put between delimiters is written
out whatever it holds. A field that is the answer is the answer as it is.

Values that are nodes of the language answer as nodes.

Key definitions: `valueText`, `valueMarkup`, `looseTagVisitor`, `Loose.plainText`,
`Loose.markup`, `Loose.tags`.
-/
import InlineMarkup.Loose.Display
import InlineMarkup.Loose.Visit
import InlineMarkup.NodeText

namespace InlineMarkup

/-- The texts in a list joined, where the first has the index `i`. What is no
text fails it. -/
def joinTexts (i : Nat) : List Value → Except Fault String
  | [] => .ok ""
  | .plain (.str s) :: vs => (joinTexts (i + 1) vs).map (s ++ ·)
  | v :: _ => .error (.textExpected i v.typeName)

/-- The values of the tokens in a list, up to the first item that is none. -/
def tokenValues : List Value → Except Fault (List Value)
  | [] => .ok []
  | .token _ value _ :: vs => (tokenValues vs).map (.plain value :: ·)
  | v :: _ => .error (.noAttribute v.typeName "value")

/-- The text of tokens that may have any value. -/
def joinLoose (tokens : List Value) : Except Fault String :=
  match tokenValues tokens with
  | .error fault => .error fault
  | .ok vs => joinTexts 0 vs

/-- The text of the content tokens that a field holds. -/
def joinContent (content : Value) : Except Fault String :=
  match content.items with
  | .error fault => .error fault
  | .ok tokens => joinLoose tokens

mutual

/-- The text of a value that stands for a node. What is no node has the empty
text. -/
def valueText : Value → Except Fault Value
  | .record .text [v] => .ok v
  | .record .code [v] => .ok v
  | .record .highlight [v] => .ok v
  | .record .image [v, _] => .ok v
  | .record .link [v, _] => .ok v
  | .record .wikiLink [v] => .ok v
  | .record .tag [v] => v.shown.map fun s => .text ("#" ++ s)
  | .record _ [_, .list items] =>
    match valueTexts items with
    | .error fault => .error fault
    | .ok vs => (joinTexts 0 vs).map .text
  | .record _ [_, .record cls fields] => valueText (.record cls fields)
  | .record _ [_, v] => v.items.map fun _ => .text ""
  | _ => .ok (.text "")

/-- The texts of values that stand for nodes. -/
def valueTexts : List Value → Except Fault (List Value)
  | [] => .ok []
  | v :: vs =>
    match valueText v with
    | .error fault => .error fault
    | .ok w => (valueTexts vs).map (w :: ·)

end

/-- A value between two texts. -/
def between (before : String) (v : Value) (after : String) : Except Fault Value :=
  v.shown.map fun s => .text (before ++ s ++ after)

/-- A label and an address, each between its brackets, behind a text. -/
def betweenBrackets (before : String) (label url : Value) : Except Fault Value := do
  let label ← label.shown
  let url ← url.shown
  pure (.text (before ++ "[" ++ label ++ "](" ++ url ++ ")"))

/-- The delimiter of a class of containers. -/
def NodeClass.marker? (cls : NodeClass) : Option String :=
  cls.containerKind?.bind ContainerKind.marker?

/-- The markup of values of which none is a record. -/
def markupOfOthers : List Value → Except Fault Value
  | [] => .ok (.text "")
  | v :: _ => .error (.noMarkup v.typeName)

mutual

/-- The markup of a value that stands for a node. -/
def valueMarkup : Value → Except Fault Value
  | .record .text [v] => .ok v
  | .record .code [v] => between "\x60" v "\x60"
  | .record .highlight [v] => between "==" v "=="
  | .record .wikiLink [v] => between "[[" v "]]"
  | .record .tag [v] => between "#" v ""
  | .record .image [v, u] => betweenBrackets "!" v u
  | .record .link [v, u] => betweenBrackets "" v u
  | .record cls [_, .list (v :: vs)] =>
    match cls.marker? with
    | none => .error (.noMarkup cls.name)
    | some marker =>
      match valueMarkups (v :: vs) with
      | .error fault => .error fault
      | .ok ws => (joinTexts 0 ws).map fun s => .text (marker ++ s ++ marker)
  | .record cls [_, .record d fields] =>
    match cls.marker? with
    | none => .error (.noMarkup cls.name)
    | some marker =>
      match valueMarkup (.record d fields) with
      | .error fault => .error fault
      | .ok w => between marker w marker
  | .record cls [content, v] =>
    match cls.marker? with
    | none => .error (.noMarkup cls.name)
    | some marker =>
      if v.present then
        match v.items with
        | .error fault => .error fault
        | .ok ws => markupOfOthers ws
      else (joinContent content).map fun s => .text (marker ++ s ++ marker)
  | v => .error (.noMarkup v.typeName)

/-- The markups of values that stand for nodes. -/
def valueMarkups : List Value → Except Fault (List Value)
  | [] => .ok []
  | v :: vs =>
    match valueMarkup v with
    | .error fault => .error fault
    | .ok w => (valueMarkups vs).map (w :: ·)

end

mutual

/-- Whether a value can be looked up; an array and an object cannot, nor what
holds one. -/
def Value.asKey : Value → Except Fault Unit
  | .plain (.arr vs) => .error (.notKey (Json.arr vs).typeName)
  | .plain (.obj ms) => .error (.notKey (Json.obj ms).typeName)
  | .plain _ => .ok ()
  | .list items => valuesAsKeys items
  | .token (.plain (.arr vs)) _ _ => .error (.notKey (Json.arr vs).typeName)
  | .token (.plain (.obj ms)) _ _ => .error (.notKey (Json.obj ms).typeName)
  | .token _ (.arr vs) _ => .error (.notKey (Json.arr vs).typeName)
  | .token _ (.obj ms) _ => .error (.notKey (Json.obj ms).typeName)
  | .token _ _ _ => .ok ()
  | .record _ fields => valuesAsKeys fields

/-- Whether all values of a list can be looked up. -/
def valuesAsKeys : List Value → Except Fault Unit
  | [] => .ok ()
  | v :: vs =>
    match v.asKey with
    | .error fault => .error fault
    | .ok _ => valuesAsKeys vs

end

/-- Notes the name of a tag, when it is not among those noted. -/
def noteTag (v : Value) : StateT (List Value) (Except Fault) Unit :=
  match v with
  | .record _ [name] => do
    name.asKey
    modify fun names => if names.any name.same then names else names ++ [name]
  | _ => pure ()

/-- A visitor that notes the name of every tag when it first sees it. -/
def looseTagVisitor : LooseVisitor (StateT (List Value) (Except Fault)) Unit where
  handle h := if h = .tag then some noteTag else none

namespace Loose

/-- What a value answers that stands for a node or for a list of nodes: `ofNode`
answers for nodes of the language, `read` for other values, and `readAll` for each
value of a list. -/
def answer (ofNode : Node → Except Fault Value) (read : Value → Except Fault Value)
    (readAll : List Value → Except Fault (List Value)) : Value → Except Fault Value
  | .record cls fields =>
    match (Value.record cls fields).node? with
    | some n => ofNode n
    | none => read (.record cls fields)
  | v => do
    let vs ← v.items
    let ws ← readAll vs
    (joinTexts 0 ws).map .text

/-- The text of a value that stands for a node or for a list of nodes. -/
def textOf : Value → Except Fault Value :=
  answer (fun n => .ok (.text n.plainText)) valueText valueTexts

/-- The markup of a value that stands for a node or for a list of nodes. -/
def markupOf : Value → Except Fault Value :=
  answer (fun n => n.markup.map .text) valueMarkup valueMarkups

/-- What values in a row answer: `ofNodes` answers for nodes of the language, and
`readAll` for each of other values. -/
def joinedAnswers (ofNodes : List Node → Except Fault String)
    (readAll : List Value → Except Fault (List Value)) (values : List Value) : Except Fault String :=
  match Value.nodes? values with
  | some ns => ofNodes ns
  | none => readAll values >>= joinTexts 0

/-- The text of values in a row. -/
def plainText (values : List Value) : Except Fault String :=
  joinedAnswers (fun ns => .ok (InlineMarkup.plainText ns)) valueTexts values

/-- The markup of values in a row. -/
def markup (values : List Value) : Except Fault String :=
  joinedAnswers InlineMarkup.markup valueMarkups values

/-- The names of the tags in values, in the order in which they first occur. -/
def tags (values : List Value) : Except Fault (List Value) :=
  match Value.nodes? values with
  | some ns => .ok ((tagsOf ns).map .text)
  | none => ((looseTagVisitor.visitAll values).run []).map Prod.snd

end Loose

end InlineMarkup
