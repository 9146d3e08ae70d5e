/-
# Tokens of a note

A token is a stretch of the note's text together with the type of its
characters and the offset at which it starts. Markup types are the punctuation
characters that can delimit a construct; a markup token is a run of one such
character, so `*` and `**` share a type and differ in their run length.

Every character has exactly one type (`TokenType.ofChar`). Two tokens count as
the same when type and text agree; the offset says where a token stands, not
what it is (`Token.same`).

Key definitions: `TokenType`, `TokenType.ofChar`, `Token`, `Token.isMarker`,
`KindPattern.accepts`, `joinTokens`.
-/

namespace InlineMarkup

/-- The type of a token's characters. -/
inductive TokenType where
  | text
  | space
  | newline
  | asterisk
  | underscore
  | backtick
  | exclamation
  | leftBracket
  | rightBracket
  | leftParen
  | rightParen
  | hash
  | tilde
  | equals
  deriving DecidableEq, Inhabited

namespace TokenType

/-- All token types, in their order of declaration. -/
def all : List TokenType :=
  [text, space, newline, asterisk, underscore, backtick, exclamation, leftBracket, rightBracket,
    leftParen, rightParen, hash, tilde, equals]

/-- The character a markup type is made of; the other types have none. -/
def markChar? : TokenType → Option Char
  | text => none
  | space => none
  | newline => none
  | asterisk => some '*'
  | underscore => some '_'
  | backtick => some '\x60'
  | exclamation => some '!'
  | leftBracket => some '['
  | rightBracket => some ']'
  | leftParen => some '('
  | rightParen => some ')'
  | hash => some '#'
  | tilde => some '~'
  | equals => some '='

/-- Markup types are those whose tokens carry a run length. -/
def isMarkup (t : TokenType) : Bool :=
  t.markChar?.isSome

/-- The type of a character. Line breaks are `\n` and `\r`; horizontal space is
the blank, the tab, the form feed and the vertical tab; what is neither of these
nor markup is text. -/
def ofChar (c : Char) : TokenType :=
  match c with
  | '\n' => newline
  | '\r' => newline
  | ' ' => space
  | '\t' => space
  | '\x0c' => space
  | '\x0b' => space
  | '*' => asterisk
  | '_' => underscore
  | '\x60' => backtick
  | '!' => exclamation
  | '[' => leftBracket
  | ']' => rightBracket
  | '(' => leftParen
  | ')' => rightParen
  | '#' => hash
  | '~' => tilde
  | '=' => equals
  | _ => text

/-- The name under which a type is written in stored tokens. -/
def name : TokenType → String
  | text => "TEXT"
  | space => "SPACE"
  | newline => "NEWLINE"
  | asterisk => "ASTERISK"
  | underscore => "UNDERSCORE"
  | backtick => "BACKTICK"
  | exclamation => "EXCLAMATION"
  | leftBracket => "LEFT_BRACKET"
  | rightBracket => "RIGHT_BRACKET"
  | leftParen => "LEFT_PAREN"
  | rightParen => "RIGHT_PAREN"
  | hash => "HASH"
  | tilde => "TILDE"
  | equals => "EQUALS"

/-- The short form of a type: its character for markup, a word otherwise. -/
def symbol : TokenType → String
  | text => "text"
  | space => "space"
  | newline => "newline"
  | asterisk => "*"
  | underscore => "_"
  | backtick => "\x60"
  | exclamation => "!"
  | leftBracket => "["
  | rightBracket => "]"
  | leftParen => "("
  | rightParen => ")"
  | hash => "#"
  | tilde => "~"
  | equals => "="

/-- The type with a given name. -/
def ofName? (s : String) : Option TokenType :=
  all.find? fun t => t.name == s

end TokenType

/-- A stretch of source text of one type, starting at `offset`. -/
structure Token where
  type : TokenType
  value : String
  offset : Int := 0
  deriving DecidableEq, Inhabited

namespace Token

/-- The number of characters of a token. -/
def length (t : Token) : Nat :=
  t.value.length

/-- The run length of a markup token; every other token counts as a run of one. -/
def run (t : Token) : Nat :=
  if t.type.isMarkup then t.length else 1

/-- The type of a token together with its run length. -/
def kind (t : Token) : TokenType × Nat :=
  (t.type, t.run)

/-- The offset just behind a token. -/
def stop (t : Token) : Int :=
  t.offset + t.length

/-- A token is a marker of a type and run when it has the type and its text is
`run` characters long, whatever the type. -/
def isMarker (t : Token) (type : TokenType) (run : Int) : Bool :=
  t.type == type && (t.length : Int) == run

theorem isMarker_iff {t : Token} {type : TokenType} {run : Int} :
    t.isMarker type run = true ↔ t.type = type ∧ (t.length : Int) = run := by
  unfold isMarker
  rw [Bool.and_eq_true, beq_iff_eq, beq_iff_eq]

/-- Tokens are the same when type and text agree; offsets do not count. -/
def same (a b : Token) : Bool :=
  a.type == b.type && a.value == b.value

/-- The same token, `delta` places further on. -/
def shift (delta : Int) (t : Token) : Token :=
  { t with offset := t.offset + delta }

end Token

/-- Token lists are the same when they are so token by token. -/
def sameTokens : List Token → List Token → Bool
  | [], [] => true
  | a :: as, b :: bs => a.same b && sameTokens as bs
  | _, _ => false

/-- The source text of a list of tokens. -/
def joinTokens (ts : List Token) : String :=
  String.join (ts.map Token.value)

/-- A description of the tokens looked for: those of a type, of one length
when `run` gives one and of any length otherwise. -/
structure KindPattern where
  type : TokenType
  run : Option Int := none
  deriving DecidableEq, Inhabited

/-- The tokens a pattern describes. -/
def KindPattern.accepts (k : KindPattern) (t : Token) : Bool :=
  match k.run with
  | none => t.type == k.type
  | some run => t.isMarker k.type run

end InlineMarkup
