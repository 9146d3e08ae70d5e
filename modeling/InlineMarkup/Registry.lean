/-
# Registries of matchers

A registry is an ordered list of entries; the order is their priority. An entry
is a matcher under a name. Most entries give nodes of the language only, and so
have a matcher of token sequences; every entry has one of loose sequences.

A registry is put together by a builder, which keeps the names distinct: an entry
is added at the end or in front of another one, and removed by its name. A step
that fails leaves the builder as it was. Not everything offered to a builder is a
matcher: it may lack a name or lack the ability to match, and is then refused.

Key definitions: `Entry`, `Candidate`, `Registry`, `Registry.get?`,
`Registry.checked?`, `RegistryBuilder`, `RegistryBuilder.register`,
`RegistryBuilder.unregister`.
-/
import InlineMarkup.Loose.Matcher
import InlineMarkup.Outcome

namespace InlineMarkup

/-- What stands in a registry under a name: a matcher of loose sequences, and the
matcher of token sequences that it is when all its nodes are nodes of the
language. -/
structure Entry where
  name : String
  checked : Option Matcher
  loose : LooseMatcher

namespace Entry

/-- A construct between delimiters, with what it makes of its content. -/
def delimited (d : Delimited) (wrap : Wrap) : Entry where
  name := d.name
  checked := some { d with build := wrap.node }.matcher
  loose := LooseMatcher.delimited d wrap

/-- Images, under a name. -/
def image (name : String) : Entry where
  name := name
  checked := some (Construct.image name).matcher
  loose := LooseMatcher.image name

/-- Links, under a name. -/
def link (name : String) : Entry where
  name := name
  checked := some (Construct.link name).matcher
  loose := LooseMatcher.link name

/-- Tags, under a name. -/
def tag (name : String) : Entry where
  name := name
  checked := some (Construct.tag name).matcher
  loose := LooseMatcher.tag name

/-- A fixed match, of any record and any number. -/
def fixed (name : String) (on : Option TokenType) (node : Value) (consumed : Json) : Entry where
  name := name
  checked :=
    match node.node?, consumed with
    | some n, .int count => some { name, on, node := n, consumed := count : Fixed }.matcher
    | _, _ => none
  loose := LooseMatcher.fixed name on node consumed

/-- What has a name and cannot match. -/
def unable (type name : String) : Entry where
  name := name
  checked := none
  loose := LooseMatcher.unable type name

/-- What an entry finds at a position of a view. A loose sequence without a value
before it stands for a bare array. -/
def attempt (e : Entry) (view : TokenView) (start : Nat) : Except Fault (Option LooseMatch) :=
  match e.checked with
  | some m =>
    .ok ((m.attempt view start).map fun found =>
      { node := found.node.stored, consumed := .int found.consumed })
  | none => e.loose.attempt (LooseSeq.ofView view) start

/-- The built-in matchers in the order of their priority. -/
def builtIns : List Entry :=
  [delimited codeSpan (.leaf .code), image "image", delimited wikiLink (.leaf .wikiLink),
    link "link", delimited bold (.box .bold), delimited italic (.box .italic),
    delimited strikethrough (.box .strikethrough), delimited highlight (.leaf .highlight),
    tag "tag"]

/-- The built-in matchers are matchers of token sequences. -/
theorem checked_builtIns : builtIns.map checked = InlineMarkup.builtIns.map some :=
  rfl

/-- The built-in matcher with a given name. -/
def builtIn? (name : String) : Option Entry :=
  builtIns.find? fun e => e.name == name

end Entry

/-- What may be offered to a builder: an entry, something of a type without a
name, or something of a type that has a name and cannot match. -/
inductive Candidate where
  | complete (e : Entry)
  | nameless (type : String)
  | matchless (type name : String)

namespace Candidate

/-- Whether a candidate is a matcher. -/
def isMatcher : Candidate → Bool
  | complete _ => true
  | _ => false

/-- The entry that a candidate is in a registry that is made without asking. -/
def entry : Candidate → Except Fault Entry
  | complete e => .ok e
  | nameless type => .error (.noAttribute type "name")
  | matchless type name => .ok (Entry.unable type name)

/-- What a candidate finds at a position of a view. What has no name finds
nothing. -/
def attempt (c : Candidate) (view : TokenView) (start : Nat) : Except Fault (Option LooseMatch) :=
  match c with
  | complete e => e.attempt view start
  | nameless _ => .ok none
  | matchless type name => (Entry.unable type name).attempt view start

end Candidate

/-- Entries in the order of their priority. -/
structure Registry where
  entries : List Entry

namespace Registry

/-- The names in the order of priority. -/
def names (r : Registry) : List String :=
  r.entries.map Entry.name

/-- The number of entries. -/
def size (r : Registry) : Nat :=
  r.entries.length

/-- The entry of a name; the last one, should the name stand twice. -/
def get? (r : Registry) (name : String) : Option Entry :=
  r.entries.reverse.find? fun e => e.name == name

/-- The place of the entry that `get?` finds. -/
def place? (r : Registry) (name : String) : Option Nat :=
  (r.names.reverse.findIdx? fun n => n == name).map fun i => r.size - 1 - i

/-- Whether an entry has the name. -/
def contains (r : Registry) (name : String) : Bool :=
  r.names.contains name

/-- How a registry is shown: by the names in order. -/
def summary (r : Registry) : String :=
  "MatcherRegistry(" ++ String.intercalate ", " r.names ++ ")"

/-- The matchers of token sequences, if all entries are such. -/
def checked? (r : Registry) : Option (List Matcher) :=
  r.entries.mapM Entry.checked

/-- The matchers of loose sequences. -/
def loose (r : Registry) : List LooseMatcher :=
  r.entries.map Entry.loose

end Registry

/-- The entries put together so far. -/
structure RegistryBuilder where
  entries : List Entry := []

namespace RegistryBuilder

/-- The names so far, in the order of priority. -/
def names (b : RegistryBuilder) : List String :=
  b.entries.map Entry.name

/-- A list with `m` in front of the first entry of the name `neighbour`. -/
def insertBefore (m : Entry) (neighbour : String) : List Entry → List Entry
  | [] => [m]
  | n :: ns => if n.name == neighbour then m :: n :: ns else n :: insertBefore m neighbour ns

/-- A list without the first entry of a name. -/
def removeNamed (name : String) : List Entry → List Entry
  | [] => []
  | n :: ns => if n.name == name then ns else n :: removeNamed name ns

/-- The builder with a candidate added, at the end or in front of the entry of
the name `before`, and the event to report. -/
def register (b : RegistryBuilder) (c : Candidate) (before : Option String := none) :
    Except Fault (RegistryBuilder × Event) :=
  match c with
  | .nameless type => .error (.nameMissing type)
  | .matchless type _ => .error (.matchMissing type)
  | .complete m =>
    if b.names.contains m.name then .error (.alreadyRegistered m.name)
    else
      match before with
      | none =>
        .ok ({ entries := b.entries ++ [m] }, .registered m.name (b.entries.length + 1))
      | some neighbour =>
        if b.names.contains neighbour then
          .ok ({ entries := insertBefore m neighbour b.entries },
            .registered m.name (b.entries.length + 1))
        else .error (.unknownNeighbour m.name neighbour)

/-- What a run of registrations leaves: the builder, the events reported, and the
fault that ended it, if any. -/
structure Registration where
  builder : RegistryBuilder
  events : List Event
  fault : Option Fault

/-- The candidates registered in order up to the first that is refused. -/
def registerAll (b : RegistryBuilder) : List Candidate → Registration
  | [] => { builder := b, events := [], fault := none }
  | c :: cs =>
    match b.register c with
    | .error fault => { builder := b, events := [], fault := some fault }
    | .ok (b, event) =>
      let rest := registerAll b cs
      { rest with events := event :: rest.events }

/-- The builder without the entry of a name. -/
def unregister (b : RegistryBuilder) (name : String) : Except Fault RegistryBuilder :=
  if b.names.contains name then .ok { entries := removeNamed name b.entries }
  else .error (.notRegistered name)

/-- The registry of the entries put together so far. -/
def build (b : RegistryBuilder) : Registry :=
  { entries := b.entries }

/-- What registering the built-in matchers with an empty builder leaves. -/
def defaultRegistration : Registration :=
  registerAll {} (Entry.builtIns.map .complete)

/-- A builder with the built-in matchers. -/
def withDefaults : RegistryBuilder :=
  defaultRegistration.builder

end RegistryBuilder

/-- The registry of the built-in matchers. -/
def Registry.standard : Registry :=
  RegistryBuilder.withDefaults.build

end InlineMarkup
