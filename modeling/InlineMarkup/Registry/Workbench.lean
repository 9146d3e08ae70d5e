/-
# Working with a registry builder

A workbench is a builder and the registries made so far. Calls on it may fail; a
call that fails leaves the builder as the call found it, except that a list of
registrations keeps those before the one that failed. A registry once made does
not change any more.

Key definitions: `Workbench`, `BuilderCall`, `Workbench.call`, `Workbench.run`.
-/
import InlineMarkup.Registry

namespace InlineMarkup

/-- A builder and the registries made so far. -/
structure Workbench where
  builder : RegistryBuilder := {}
  made : List Registry := []

/-- A call on a workbench. `clear` and `defaults` take a fresh builder, without
matchers or with the built-in ones; `build` makes a registry of the builder,
`direct` one of any entries, unchecked, and `standard` takes the registry of the
built-in matchers. -/
inductive BuilderCall where
  | clear
  | defaults
  | register (c : Candidate) (before : Option String)
  | registerAll (cs : List Candidate)
  | unregister (name : String)
  | build
  | direct (es : List Entry)
  | standard

/-- What a call leaves: the events reported, and nothing, a registry, or the
fault that ended it. -/
structure BuilderReply where
  events : List Event := []
  result : Except Fault (Option Registry) := .ok none

namespace Workbench

/-- Puts a registry with those made so far. -/
def keep (w : Workbench) (r : Registry) : BuilderReply × Workbench :=
  ({ result := .ok (some r) }, { w with made := w.made ++ [r] })

/-- Takes the builder that registrations left. -/
def take (w : Workbench) (r : RegistryBuilder.Registration) : BuilderReply × Workbench :=
  ({ events := r.events, result := match r.fault with
      | none => .ok none
      | some fault => .error fault },
    { w with builder := r.builder })

/-- Answers a call. -/
def call (w : Workbench) : BuilderCall → BuilderReply × Workbench
  | .clear => ({}, { w with builder := {} })
  | .defaults => w.take RegistryBuilder.defaultRegistration
  | .register c before =>
    match w.builder.register c before with
    | .error fault => ({ result := .error fault }, w)
    | .ok (b, event) => ({ events := [event] }, { w with builder := b })
  | .registerAll cs => w.take (w.builder.registerAll cs)
  | .unregister name =>
    match w.builder.unregister name with
    | .error fault => ({ result := .error fault }, w)
    | .ok b => ({}, { w with builder := b })
  | .build => w.keep w.builder.build
  | .direct es => w.keep { entries := es }
  | .standard => w.keep Registry.standard

/-- Answers calls in order. -/
def run (w : Workbench) : List BuilderCall → List BuilderReply × Workbench
  | [] => ([], w)
  | c :: cs =>
    let (reply, w) := w.call c
    let (replies, w) := run w cs
    (reply :: replies, w)

end Workbench

end InlineMarkup
