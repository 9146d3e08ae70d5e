/-
# Text and markup of nodes

The plain text of a node is what a reader sees: delimiters and addresses are
dropped, an image shows its alternative text, and a tag keeps its `#`. The
markup of a node is the note it was parsed from. A container is written from its
children, so that changes to them show; only without children is it written from
its content tokens.

Key definitions: `Node.plainText`, `plainText`, `Node.markup`, `markup`.
-/
import InlineMarkup.Node
import InlineMarkup.Fault

namespace InlineMarkup

namespace Node

mutual

/-- The plain text of a node. -/
def plainText : Node → String
  | bare => ""
  | text content => content
  | code content => content
  | image alt _ => alt
  | link label _ => label
  | wikiLink target => target
  | highlight content => content
  | tag content => "#" ++ content
  | container _ _ children => plainTextAll children

/-- The plain text of nodes in a row. -/
def plainTextAll : List Node → String
  | [] => ""
  | n :: ns => plainText n ++ plainTextAll ns

end

mutual

/-- The markup of a node. The bare node and the plain container have none. -/
def markup : Node → Except Fault String
  | bare => .error (.noMarkup NodeClass.node.name)
  | text content => .ok content
  | code content => .ok ("\x60" ++ content ++ "\x60")
  | image alt url => .ok ("![" ++ alt ++ "](" ++ url ++ ")")
  | link label url => .ok ("[" ++ label ++ "](" ++ url ++ ")")
  | wikiLink target => .ok ("[[" ++ target ++ "]]")
  | highlight content => .ok ("==" ++ content ++ "==")
  | tag content => .ok ("#" ++ content)
  | container kind content children =>
    match kind.marker? with
    | none => .error (.noMarkup kind.cls.name)
    | some marker =>
      if children.isEmpty then .ok (marker ++ joinTokens content ++ marker)
      else (markupAll children).map fun inner => marker ++ inner ++ marker

/-- The markup of nodes in a row; the first node without markup fails it. -/
def markupAll : List Node → Except Fault String
  | [] => .ok ""
  | n :: ns =>
    match markup n with
    | .error e => .error e
    | .ok s => (markupAll ns).map (s ++ ·)

end

end Node

/-- The plain text of a parsed note. -/
def plainText (nodes : List Node) : String :=
  Node.plainTextAll nodes

/-- The markup of a parsed note. -/
def markup (nodes : List Node) : Except Fault String :=
  Node.markupAll nodes

end InlineMarkup
