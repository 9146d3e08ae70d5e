/-
# Events and outcomes

What the library reports while it works are events, each on a channel. All channels
lie in one namespace, so one setting turns them all on. A computation may report
events on its way to a result; when it fails, the events before the failure stay
reported.

Key definitions: `channelName`, `Event`, `Event.line`, `Outcome`, `Outcome.map`,
`Outcome.andThen`.
-/
import InlineMarkup.Fault

namespace InlineMarkup

/-- The namespace of all channels. -/
def channelRoot : String := "gomark"

/-- The channel for a name: the name itself when it is the namespace or lies in
it, and else the name put into the namespace. -/
def channelName (name : String) : String :=
  if name = channelRoot ∨ (channelRoot ++ ".").toList.isPrefixOf name.toList then name
  else channelRoot ++ "." ++ name

/-- Something worth a report: a matcher was registered as the `priority`-th of a
registry, or a container was left as text because it would nest too deep. -/
inductive Event where
  | registered (name : String) (priority : Nat)
  | tooDeep (name : String) (position : Nat) (limit : Nat)
  deriving DecidableEq, Inhabited

namespace Event

/-- The channel an event is reported on. -/
def channel : Event → String
  | registered _ _ => channelName "gomark.parsing.registry"
  | tooDeep _ _ _ => channelName "gomark.parsing.inline.core"

/-- The wording of an event. -/
def message : Event → String
  | registered name priority =>
    "registered matcher " ++ name ++ " (priority " ++ toString priority ++ ")"
  | tooDeep name position limit =>
    name ++ " at token " ++ toString position ++ " exceeds nesting depth " ++ toString limit ++
      "; left as text"

/-- An event as a line of a log. -/
def line (e : Event) : String :=
  e.channel ++ ": " ++ e.message

end Event

/-- What a parse leaves: the events reported on the way, and its result. -/
structure Outcome (α : Type) where
  events : List Event
  result : Except Fault α

namespace Outcome

/-- A result without events. -/
def done {α : Type} (a : α) : Outcome α :=
  { events := [], result := .ok a }

/-- A failure without events. -/
def failed {α : Type} (fault : Fault) : Outcome α :=
  { events := [], result := .error fault }

/-- The outcome with its result changed by `f`. -/
def map {α β : Type} (f : α → β) (o : Outcome α) : Outcome β :=
  { events := o.events, result := o.result.map f }

/-- One outcome after the other. A failure ends it; the events before stay. -/
def andThen {α β : Type} (o : Outcome α) (f : α → Outcome β) : Outcome β :=
  match o.result with
  | .error fault => { events := o.events, result := .error fault }
  | .ok a =>
    let next := f a
    { events := o.events ++ next.events, result := next.result }

/-- A result or a failure, without events. -/
def ofExcept {α : Type} (result : Except Fault α) : Outcome α :=
  { events := [], result := result }

end Outcome

end InlineMarkup
