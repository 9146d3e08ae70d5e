/-
# Threads over settings

Commands set, reset and replace the settings in force, parse notes, make engines and
parse with them, and start threads. A command may raise a fault, which ends the commands
that follow up to the end of the nearest guard.

A thread runs its commands step by step. What it has still to do is a stack of frames: on
entering a block it notes the settings to be restored behind it, and while a fault is
raised it passes over commands and undoes the blocks around them one by one. Each thread
has settings in force of its own, and starts with the default ones.

Key definitions: `Command`, `Command.perform`, `performAll`, `Frame`, `Thread`,
`Thread.step`, `ThreadPool`, `ThreadPool.run`.
-/
import InlineMarkup.Settings

namespace InlineMarkup

/-- What a thread is told to do. -/
inductive Command where
  /-- answers with the settings in force -/
  | show
  /-- puts settings in force -/
  | put (s : Settings)
  /-- puts the default settings in force -/
  | reset
  /-- performs commands for whose length settings are in force -/
  | within (s : Settings) (body : List Command)
  /-- performs commands and catches the fault that they raise -/
  | guard (body : List Command)
  /-- raises a fault -/
  | raise (fault : Fault)
  /-- starts a thread that performs commands -/
  | spawn (body : List Command)
  /-- parses a note, under settings of its own if they are given -/
  | parse (source : String) (s : Option Settings)
  /-- makes an engine and keeps it -/
  | construct (o : EngineOptions)
  /-- parses a note with engine number `k` of those that are kept, or with the last of them -/
  | use (k : Option Nat) (source : String)

/-- What a command answers: settings, what a parse left, or the fault that a guard caught. -/
inductive Answer where
  | settings (s : Settings)
  | parsed (o : Outcome (List Value))
  | caught (fault : Fault)

/-- What a thread has come to: the engines it keeps, the answers given so far, and the fault
that is raised. -/
structure Progress where
  parsers : List Parser := []
  answers : List Answer := []
  raised : Option Fault := none

namespace Progress

/-- Gives an answer. -/
def give (p : Progress) (a : Answer) : Progress :=
  { p with answers := p.answers ++ [a] }

/-- Answers with what a parse left. A parse that failed raises its fault. -/
def parsed (p : Progress) (o : Outcome (List Value)) : Progress :=
  match o.result with
  | .ok _ => p.give (.parsed o)
  | .error fault => { p.give (.parsed o) with raised := some fault }

/-- Keeps an engine. An engine that could not be made raises its fault. -/
def keep (p : Progress) : Except Fault Parser → Progress
  | .ok parser => { p with parsers := p.parsers ++ [parser] }
  | .error fault => { p with raised := some fault }

/-- Engine number `k` of those that are kept, or the last of them. -/
def parser? (p : Progress) : Option Nat → Option Parser
  | some k => p.parsers[k]?
  | none => p.parsers.getLast?

/-- Parses a note with an engine that is kept, if it is there. -/
def use (p : Progress) (k : Option Nat) (source : String) : Progress :=
  match p.parser? k with
  | none => p
  | some parser => p.parsed (parser.parse (tokenize source))

/-- Catches the fault that is raised, if one is. -/
def settle (p : Progress) : Progress :=
  match p.raised with
  | none => p
  | some fault => { p.give (.caught fault) with raised := none }

end Progress

mutual

/-- Performs a command as a whole. What is done in a thread that it starts is no part of
it. -/
def Command.perform : Command → Progress → Ambient Progress
  | .show, p => do
    let s ← Ambient.current
    pure (p.give (.settings s))
  | .put s, p => do
    Ambient.put s
    pure p
  | .reset, p => do
    Ambient.reset
    pure p
  | .within s body, p => Ambient.within s (performAll body p)
  | .guard body, p => do
    let p ← performAll body p
    pure p.settle
  | .raise fault, p => pure { p with raised := some fault }
  | .spawn _, p => pure p
  | .parse source s, p => do
    let o ← parseInline source s
    pure (p.parsed o)
  | .construct o, p => do
    let parser ← Ambient.parser o
    pure (p.keep parser)
  | .use k source, p => pure (p.use k source)

/-- Performs commands in order, up to the first that raises a fault. -/
def performAll : List Command → Progress → Ambient Progress
  | [], p => pure p
  | c :: cs, p => do
    let p ← c.perform p
    match p.raised with
    | none => performAll cs p
    | some _ => pure p

end

/-- What a thread has still to do: run a command, put the settings from in front of a block
in force again, or catch what is raised in a guard. -/
inductive Frame where
  | run (c : Command)
  | leave (former : Settings)
  | settle

/-- A thread: the settings in force in it, what it has come to, and what it has still to do,
the next first. -/
structure Thread where
  settings : Settings := {}
  progress : Progress := {}
  todo : List Frame := []

namespace Thread

/-- A thread that is to perform commands. It may use the engines of the one that starts it. -/
def start (body : List Command) (parsers : List Parser) : Thread :=
  { progress := { parsers }, todo := body.map .run }

/-- Goes into a block for whose length `s` is in force, with `todo` to be done behind it. -/
def enter (t : Thread) (s : Settings) (body : List Command) (todo : List Frame) : Thread :=
  { t with settings := s, todo := body.map .run ++ .leave t.settings :: todo }

/-- Begins a command, with `todo` to be done behind it. -/
def begin (t : Thread) (todo : List Frame) : Command → Thread
  | .within s body => t.enter s body todo
  | .parse source (some s) => t.enter s [.parse source none] todo
  | .guard body => { t with todo := body.map .run ++ .settle :: todo }
  | c =>
    let (progress, settings) := (c.perform t.progress).run t.settings
    { settings, progress, todo }

/-- One step of a thread. While a fault is raised, commands are passed over. -/
def step (t : Thread) : Thread :=
  match t.todo with
  | [] => t
  | .run c :: todo =>
    match t.progress.raised with
    | none => t.begin todo c
    | some _ => { t with todo }
  | .leave former :: todo => { t with settings := former, todo }
  | .settle :: todo => { t with progress := t.progress.settle, todo }

/-- The threads that the next step starts. -/
def spawns (t : Thread) : List Thread :=
  match t.progress.raised, t.todo with
  | none, .run (.spawn body) :: _ => [start body t.progress.parsers]
  | _, _ => []

/-- A number of steps. -/
def run (t : Thread) : Nat → Thread
  | 0 => t
  | n + 1 => t.step.run n

end Thread

/-- Threads that run side by side. -/
structure ThreadPool where
  threads : List Thread

namespace ThreadPool

/-- Thread `i` takes a step. -/
def step (p : ThreadPool) (i : Nat) : ThreadPool :=
  match p.threads[i]? with
  | none => p
  | some t => { threads := p.threads.set i t.step ++ t.spawns }

/-- The threads take steps in the given order. -/
def run (p : ThreadPool) (order : List Nat) : ThreadPool :=
  order.foldl step p

end ThreadPool

end InlineMarkup
