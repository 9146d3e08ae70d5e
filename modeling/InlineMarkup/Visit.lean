/-
# Visiting nodes

A visitor has a handler for some of the classes of nodes, and possibly one for
all the others. It visits a node before the nodes below it, and those from left
to right. Nothing is called for a node that no handler is for.

The tags of a note are collected by such a visitor.

Key definitions: `Handler`, `Visitor`, `Visitor.visit`, `Visitor.visitAll`,
`preorder`, `tagsOf`.
-/
import InlineMarkup.Node

namespace InlineMarkup

/-- What a handler is for: the nodes of a class, or, for `other`, the nodes
without a handler of their own. -/
inductive Handler where
  | other
  | text
  | code
  | image
  | link
  | wikiLink
  | highlight
  | tag
  | bold
  | italic
  | strikethrough
  deriving DecidableEq, Inhabited

namespace Handler

/-- All handlers. -/
def all : List Handler :=
  [other, text, code, image, link, wikiLink, highlight, tag, bold, italic, strikethrough]

/-- The name of a handler. -/
def name : Handler → String
  | other => "visit_default"
  | text => "visit_text"
  | code => "visit_code"
  | image => "visit_image"
  | link => "visit_link"
  | wikiLink => "visit_wiki_link"
  | highlight => "visit_highlight"
  | tag => "visit_tag"
  | bold => "visit_bold"
  | italic => "visit_italic"
  | strikethrough => "visit_strikethrough"

/-- The handler with a given name. -/
def ofName? (s : String) : Option Handler :=
  all.find? fun h => h.name == s

/-- The handler for the nodes of a class. The bare node and the plain container
have none of their own. -/
def ofClass : NodeClass → Handler
  | .node => other
  | .container => other
  | .text => text
  | .code => code
  | .image => image
  | .link => link
  | .wikiLink => wikiLink
  | .highlight => highlight
  | .tag => tag
  | .bold => bold
  | .italic => italic
  | .strikethrough => strikethrough

end Handler

/-- The handlers of a visitor: what it does with a node, where it has a handler. -/
structure Visitor (m : Type → Type) (α : Type) where
  handle : Handler → Option (Node → m α)

namespace Visitor

variable {m : Type → Type} {α : Type}

/-- The handler that is called for a node: that of its class, or else the one for
all others. -/
def handlerFor (v : Visitor m α) (n : Node) : Option (Node → m α) :=
  v.handle (Handler.ofClass n.cls) <|> v.handle .other

variable [Monad m]

/-- Calls the handler for a node, if there is one. -/
def dispatch (v : Visitor m α) (n : Node) : m (Option α) :=
  match v.handlerFor n with
  | none => pure none
  | some f => do
    let a ← f n
    pure (some a)

mutual

/-- Visits a node and then the nodes below it; the answer is that of its own
handler. -/
def visit (v : Visitor m α) : Node → m (Option α)
  | .container kind content children => do
    let a ← v.dispatch (.container kind content children)
    visitAll v children
    pure a
  | n => v.dispatch n

/-- Visits nodes from left to right. -/
def visitAll (v : Visitor m α) : List Node → m Unit
  | [] => pure ()
  | n :: ns => do
    let _ ← visit v n
    visitAll v ns

end

end Visitor

mutual

/-- A node and the nodes below it, each before those below it. -/
def Node.preorder : Node → List Node
  | .container kind content children =>
    .container kind content children :: preorderAll children
  | n => [n]

/-- Nodes and the nodes below them, from left to right. -/
def preorderAll : List Node → List Node
  | [] => []
  | n :: ns => n.preorder ++ preorderAll ns

end

/-- Names with one more at the end, unless it is among them. -/
def addName (names : List String) (s : String) : List String :=
  if names.contains s then names else names ++ [s]

/-- A visitor that notes the name of every tag when it first sees it. -/
def tagVisitor : Visitor (StateM (List String)) Unit where
  handle
    | .tag => some fun n =>
      match n with
      | .tag name => modify fun names => addName names name
      | _ => pure ()
    | _ => none

/-- The names of the tags in nodes, in the order in which they first occur, each
once. -/
def tagsOf (nodes : List Node) : List String :=
  ((tagVisitor.visitAll nodes).run []).2

end InlineMarkup
