/-
# Programs over settings

A program is a list of steps that read the settings in force, change them, run
other steps under settings of their own, and parse notes. A step that fails
answers with its fault, and the program goes on.

Key definitions: `Step`, `Reply`, `Step.run`, `runSteps`.
-/
import InlineMarkup.Settings

namespace InlineMarkup

/-- A step of a program. Where settings or options are asked for, the attempt to
make them may have failed; the step then answers with that fault. -/
inductive Step where
  /-- shows the settings in force -/
  | show
  /-- asks whether the settings in force equal the default ones -/
  | isDefault
  /-- makes settings and shows them -/
  | make (s : Except Fault Settings)
  /-- puts settings in force -/
  | put (s : Except Fault Settings)
  /-- puts the default settings in force -/
  | reset
  /-- runs steps for whose length settings are in force; they may end in an error -/
  | within (s : Except Fault Settings) (body : List Step) (raises : Bool)
  /-- runs steps on their own, starting from the default settings -/
  | apart (body : List Step)
  /-- parses a note, under settings of its own if they are given -/
  | parse (source : String) (s : Option (Except Fault Settings))
  /-- makes an engine and parses a note with it -/
  | engine (source : String) (o : Except Fault EngineOptions)
  deriving Inhabited

/-- The answer of a step. The answers of inner steps come with the settings in
force behind them, and say whether the steps ended in an error. -/
inductive Reply where
  | settings (s : Settings)
  | verdict (b : Bool)
  | nodes (ns : List Value)
  | inner (replies : List Reply) (raised : Bool) (after : Settings)
  | fault (f : Fault)
  deriving Inhabited

/-- The answer that an outcome is. -/
def Reply.ofOutcome (o : Outcome (List Value)) : Reply :=
  match o.result with
  | .ok ns => .nodes ns
  | .error f => .fault f

mutual

/-- Runs a step. -/
def Step.run : Step → Ambient Reply
  | .show => do
    let s ← Ambient.current
    pure (.settings s)
  | .isDefault => do
    let s ← Ambient.current
    pure (.verdict s.isDefault)
  | .make (.error fault) => pure (.fault fault)
  | .make (.ok s) => pure (.settings s)
  | .put (.error fault) => pure (.fault fault)
  | .put (.ok s) => do
    Ambient.put s
    let now ← Ambient.current
    pure (.settings now)
  | .reset => do
    Ambient.reset
    let now ← Ambient.current
    pure (.settings now)
  | .within (.error fault) _ _ => pure (.fault fault)
  | .within (.ok s) body raises => do
    let replies ← Ambient.within s (runSteps body)
    let after ← Ambient.current
    pure (.inner replies raises after)
  | .apart body => do
    let replies ← Ambient.apart (runSteps body)
    let after ← Ambient.current
    pure (.inner replies false after)
  | .parse source none => do
    let o ← parseInline source
    pure (Reply.ofOutcome o)
  | .parse _ (some (.error fault)) => pure (.fault fault)
  | .parse source (some (.ok s)) => do
    let o ← parseInline source (some s)
    pure (Reply.ofOutcome o)
  | .engine _ (.error fault) => pure (.fault fault)
  | .engine source (.ok o) => do
    let p ← Ambient.parser o
    pure (Reply.ofOutcome (parseWith p (tokenize source)))

/-- Runs steps in order. -/
def runSteps : List Step → Ambient (List Reply)
  | [] => pure []
  | s :: ss => do
    let reply ← s.run
    let replies ← runSteps ss
    pure (reply :: replies)

end

/-- The answers of a program that starts with the default settings in force. -/
def runProgram (steps : List Step) : List Reply :=
  ((runSteps steps).run {}).1

end InlineMarkup
