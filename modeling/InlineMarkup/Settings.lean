/-
# Settings

Settings say how notes are parsed: with which registry, to which nesting depth,
and whether neighbouring texts are merged. One value of them is in force at any
time. It can be set, reset to the default, and replaced for the length of a
computation, after which the former value is in force again.

An engine takes what its options leave open from the settings in force when it is
made. Later settings do not touch it.

Key definitions: `Settings`, `Settings.make`, `EngineOptions`, `Parser`,
`Parser.make`, `Ambient`, `Ambient.within`, `parseNote`.
-/
import InlineMarkup.Engine
import InlineMarkup.Loose.Engine
import InlineMarkup.Registry
import InlineMarkup.Tokenizer

namespace InlineMarkup

/-- A nesting depth as it was given: a number, or a truth value, which stands for
one level or none. -/
inductive Depth where
  | count (n : Nat)
  | flag (b : Bool)
  deriving DecidableEq, Inhabited

namespace Depth

/-- The number of levels. -/
def levels : Depth → Nat
  | count n => n
  | flag b => if b then 1 else 0

/-- A depth as the value it was given by. -/
def json : Depth → Json
  | count n => .int n
  | flag b => .bool b

/-- The depth that a value asks for: an integer that is not negative. -/
def ofJson : Json → Except Fault Depth
  | .int n => if n < 0 then .error (.ofDepth n) else .ok (count n.toNat)
  | .bool b => .ok (flag b)
  | v => .error (.notComparable v.typeName)

end Depth

/-- How notes are parsed. Without a registry the standard one is used. The flag
for merging texts is kept as it was given; `Json.truthy` reads it. -/
structure Settings where
  registry : Option Registry := none
  maxDepth : Depth := .count 16
  coalesce : Json := .bool true

namespace Settings

/-- Settings with the given fields; those not given have their default. -/
def make (registry : Option Registry) (depth coalesce : Option Json) : Except Fault Settings :=
  match depth with
  | none => .ok { registry := registry, coalesce := coalesce.getD (.bool true) }
  | some v =>
    (Depth.ofJson v).map fun d =>
      { registry := registry, maxDepth := d, coalesce := coalesce.getD (.bool true) }

/-- Whether settings equal the default ones. A flag given as the number one
equals the flag given as true. -/
def isDefault (s : Settings) : Bool :=
  s.registry.isNone && s.maxDepth.levels == 16 && s.coalesce.toInt? == some 1

/-- The registry that settings lead to. -/
def registryInUse (s : Settings) : Registry :=
  s.registry.getD Registry.standard

end Settings

/-- What an engine is to be made of; what is left open comes from the settings in
force. -/
structure EngineOptions where
  registry : Option Registry := none
  depth : Option Json := none
  coalesce : Option Json := none

/-- An engine ready to parse: the engine on tokens when all entries of its
registry give nodes of the language, and else the engine on loose sequences. -/
inductive Parser where
  | checked (e : Engine)
  | loose (e : LooseEngine)

namespace Parser

/-- The engine for a registry, a limit to nesting, and whether texts are merged. -/
def ofRegistry (r : Registry) (limit : Nat) (coalesce : Bool) : Parser :=
  match r.checked? with
  | some matchers => .checked { matchers, limit, coalesce }
  | none => .loose { matchers := r.loose, limit, coalesce }

/-- The engine for options under settings. -/
def make (o : EngineOptions) (s : Settings) : Except Fault Parser :=
  let registry := o.registry.getD s.registryInUse
  let coalesce := (o.coalesce.getD s.coalesce).truthy
  match o.depth with
  | none => .ok (ofRegistry registry s.maxDepth.levels coalesce)
  | some v => (Depth.ofJson v).map fun d => ofRegistry registry d.levels coalesce

/-- The nodes of a note's tokens. -/
def parse (p : Parser) (tokens : List Token) : Outcome (List Value) :=
  match p with
  | checked e => (e.parse tokens).map Node.storedAll
  | loose e => e.parse tokens

end Parser

/-- A computation that reads and may change the settings in force. -/
abbrev Ambient (α : Type) := StateM Settings α

namespace Ambient

/-- The settings in force. -/
def current : Ambient Settings :=
  get

/-- Puts settings in force. -/
def put (s : Settings) : Ambient Unit :=
  set s

/-- Puts the default settings in force. -/
def reset : Ambient Unit :=
  set ({} : Settings)

/-- A computation for whose length `s` is in force. Whatever it sets, and however
it ends, the former settings are in force again behind it. -/
def within {α : Type} (s : Settings) (body : Ambient α) : Ambient α := do
  let former ← current
  put s
  let a ← body
  put former
  pure a

/-- A computation that starts with the default settings and leaves those in force
as they are. -/
def apart {α : Type} (body : Ambient α) : Ambient α :=
  pure (body.run {}).1

/-- An engine made under the settings in force. -/
def parser (o : EngineOptions) : Ambient (Except Fault Parser) := do
  let s ← current
  pure (Parser.make o s)

end Ambient

/-- What parsing tokens with an engine that may not have come about leaves. -/
def parseWith (p : Except Fault Parser) (tokens : List Token) : Outcome (List Value) :=
  match p with
  | .error fault => .failed fault
  | .ok p => p.parse tokens

/-- The nodes of a note, under the settings in force. -/
def parseNote (source : String) : Ambient (Outcome (List Value)) := do
  let p ← Ambient.parser {}
  pure (parseWith p (tokenize source))

/-- The nodes of a note, under the settings `s` when they are given and under
those in force otherwise. -/
def parseInline (source : String) (s : Option Settings := none) : Ambient (Outcome (List Value)) :=
  match s with
  | none => parseNote source
  | some s => Ambient.within s (parseNote source)

end InlineMarkup
