/-
# Classes of nodes

The classes a node can have, with the names under which they are stored and
shown and the fields they hold, in order. Containers hold the tokens between
their delimiters and the nodes parsed from them; the plain container has no
delimiters of its own, and the bare node has no fields.

Key definitions: `NodeClass`, `NodeClass.name`, `NodeClass.fields`,
`NodeClass.ofName?`.
-/

namespace InlineMarkup

/-- The class of a node. -/
inductive NodeClass where
  | node
  | container
  | text
  | code
  | image
  | link
  | wikiLink
  | highlight
  | tag
  | bold
  | italic
  | strikethrough
  deriving DecidableEq, Inhabited

namespace NodeClass

/-- The classes whose nodes can be stored. -/
def stored : List NodeClass :=
  [text, code, image, link, wikiLink, highlight, tag, bold, italic, strikethrough]

/-- All classes. -/
def all : List NodeClass :=
  node :: container :: stored

/-- The name of a class. -/
def name : NodeClass → String
  | node => "Node"
  | container => "Container"
  | text => "Text"
  | code => "Code"
  | image => "Image"
  | link => "Link"
  | wikiLink => "WikiLink"
  | highlight => "Highlight"
  | tag => "Tag"
  | bold => "Bold"
  | italic => "Italic"
  | strikethrough => "Strikethrough"

/-- Whether nodes of a class have content tokens and children. -/
def isContainer : NodeClass → Bool
  | container => true
  | bold => true
  | italic => true
  | strikethrough => true
  | _ => false

/-- The fields of a class, in order. -/
def fields : NodeClass → List String
  | node => []
  | text => ["content"]
  | code => ["content"]
  | image => ["alt_text", "url"]
  | link => ["text", "url"]
  | wikiLink => ["target"]
  | highlight => ["content"]
  | tag => ["content"]
  | container => ["content_tokens", "children"]
  | bold => ["content_tokens", "children"]
  | italic => ["content_tokens", "children"]
  | strikethrough => ["content_tokens", "children"]

/-- Whether a field of a class need not be given. Only the children of a container
need not: there are none then. -/
def isOptional (cls : NodeClass) (field : String) : Bool :=
  cls.isContainer && field == "children"

/-- The class with a given name, among those whose nodes can be stored. -/
def ofStoredName? (s : String) : Option NodeClass :=
  stored.find? fun c => c.name == s

/-- The class with a given name. -/
def ofName? (s : String) : Option NodeClass :=
  all.find? fun c => c.name == s

end NodeClass

end InlineMarkup
