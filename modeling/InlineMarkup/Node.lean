/-
# Nodes

A parsed note is a list of nodes. A leaf holds text; a container holds the
tokens that stand between its delimiters and the nodes parsed from them.

Nodes are the same when class and fields agree; offsets of tokens do not count.

Key definitions: `ContainerKind`, `Node`, `Node.cls`, `Node.same`.
-/
import InlineMarkup.Token
import InlineMarkup.NodeClass

namespace InlineMarkup

/-- The kinds of containers. Only the plain one has no delimiters. -/
inductive ContainerKind where
  | plain
  | bold
  | italic
  | strikethrough
  deriving DecidableEq, Inhabited

namespace ContainerKind

/-- The delimiter on both sides of a container. -/
def marker? : ContainerKind → Option String
  | plain => none
  | bold => some "**"
  | italic => some "*"
  | strikethrough => some "~~"

/-- The class of the containers of a kind. -/
def cls : ContainerKind → NodeClass
  | plain => .container
  | bold => .bold
  | italic => .italic
  | strikethrough => .strikethrough

end ContainerKind

/-- A node of a parsed note. The bare node stands for nothing in particular. -/
inductive Node where
  | bare
  | text (content : String)
  | code (content : String)
  | image (alt url : String)
  | link (label url : String)
  | wikiLink (target : String)
  | highlight (content : String)
  | tag (content : String)
  | container (kind : ContainerKind) (content : List Token) (children : List Node)
  deriving Inhabited

namespace Node

/-- The class of a node. -/
def cls : Node → NodeClass
  | bare => .node
  | text _ => .text
  | code _ => .code
  | image _ _ => .image
  | link _ _ => .link
  | wikiLink _ => .wikiLink
  | highlight _ => .highlight
  | tag _ => .tag
  | container kind _ _ => kind.cls

/-- The nodes below a node, which only containers have. -/
def children : Node → List Node
  | container _ _ children => children
  | _ => []

/-- Whether a node is a container. -/
def isContainer : Node → Bool
  | container _ _ _ => true
  | _ => false

/-- A container whose content has not been parsed yet. -/
def unparsed (kind : ContainerKind) (content : List Token) : Node :=
  container kind content []

mutual

/-- Nodes are the same when class and fields agree. -/
def same : Node → Node → Bool
  | bare, bare => true
  | text a, text b => a == b
  | code a, code b => a == b
  | image a u, image b v => a == b && u == v
  | link a u, link b v => a == b && u == v
  | wikiLink a, wikiLink b => a == b
  | highlight a, highlight b => a == b
  | tag a, tag b => a == b
  | container k ts ns, container l us ms => k == l && sameTokens ts us && sameAll ns ms
  | _, _ => false

/-- Lists of nodes are the same when they are so node by node. -/
def sameAll : List Node → List Node → Bool
  | [], [] => true
  | n :: ns, m :: ms => same n m && sameAll ns ms
  | _, _ => false

end

end Node

end InlineMarkup
