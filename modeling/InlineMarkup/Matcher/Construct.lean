/-
# The constructs of the markup

Every construct is one of four shapes: content between delimiters, an image, a
link, a tag. The built-in constructs are code spans, images, wiki links, links,
bold, italic and struck-through text, highlights and tags, in this order of
priority. A delimiter is known by its run: `*` never closes `**`.

Key definitions: `Construct`, `Construct.matcher`, `builtIns`.
-/
import InlineMarkup.Matcher.Delimited
import InlineMarkup.Matcher.Link

namespace InlineMarkup

/-- A construct of one of the known shapes, under a name. -/
inductive Construct where
  | delimited (d : Delimited)
  | image (name : String)
  | link (name : String)
  | tag (name : String)

/-- The matcher of a construct. -/
def Construct.matcher : Construct → Matcher
  | delimited d => d.matcher
  | image name => { name := name, attempt := imageAttempt }
  | link name => { name := name, attempt := linkAttempt }
  | tag name => { name := name, attempt := tagAttempt }

/-- Inline code. Its content is not parsed. -/
def codeSpan : Delimited :=
  { name := "code", marker := .backtick, run := 1, build := fun ts => .code (joinTokens ts) }

/-- A link to another note by its name. -/
def wikiLink : Delimited :=
  { name := "wikilink", marker := .leftBracket, run := 2, closer := some .rightBracket,
    build := fun ts => .wikiLink (joinTokens ts) }

/-- Bold text. -/
def bold : Delimited :=
  { name := "bold", marker := .asterisk, run := 2, build := Node.unparsed .bold }

/-- Italic text. No space touches its delimiters on the inside. -/
def italic : Delimited :=
  { name := "italic", marker := .asterisk, run := 1, build := Node.unparsed .italic,
    allowEdgeSpace := false }

/-- Struck-through text. -/
def strikethrough : Delimited :=
  { name := "strikethrough", marker := .tilde, run := 2, build := Node.unparsed .strikethrough }

/-- Highlighted text. Its content is not parsed. -/
def highlight : Delimited :=
  { name := "highlight", marker := .equals, run := 2,
    build := fun ts => .highlight (joinTokens ts) }

/-- The built-in constructs in the order of their priority. -/
def builtInConstructs : List Construct :=
  [.delimited codeSpan, .image "image", .delimited wikiLink, .link "link", .delimited bold,
    .delimited italic, .delimited strikethrough, .delimited highlight, .tag "tag"]

/-- The built-in matchers in the order of their priority. -/
def builtIns : List Matcher :=
  builtInConstructs.map Construct.matcher

end InlineMarkup
