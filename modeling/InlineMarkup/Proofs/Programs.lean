/-
# Programs of steps on a thread

A program of steps, each of which answers with its fault and lets the program go on, is a
list of commands in which each step has a guard of its own (`stepCommands`). A thread that
runs these commands step by step gives the answers of the program
(`exists_finishes_runProgram`), and one that it starts those of the steps that are run on
their own.

Key definitions: `Step.commands`, `Step.shown`, `Performs`.
Key theorems: `Step.performs`, `performs_stepCommands`, `exists_finishes_runProgram`.
-/
import InlineMarkup.Settings.Program
import InlineMarkup.Proofs.Threads

namespace InlineMarkup

/-! ### Steps as commands -/

mutual

/-- The commands of a step. What a step answers with is shown behind it. A body that is to end
in an error raises `boom`. -/
def Step.commands (boom : Fault) : Step → List Command
  | .show => [.show]
  | .isDefault => []
  | .make (.error fault) => [.guard [.raise fault]]
  | .make (.ok s) => [.within s [.show]]
  | .put (.error fault) => [.guard [.raise fault]]
  | .put (.ok s) => [.put s, .show]
  | .reset => [.reset, .show]
  | .within (.error fault) _ _ => [.guard [.raise fault]]
  | .within (.ok s) body raises =>
    [.guard [.within s (stepCommands boom body ++ if raises then [.raise boom] else [])], .show]
  | .apart body => [.spawn (stepCommands boom body), .show]
  | .parse _ (some (.error fault)) => [.guard [.raise fault]]
  | .parse source (some (.ok s)) => [.guard [.parse source (some s)]]
  | .parse source none => [.guard [.parse source none]]
  | .engine _ (.error fault) => [.guard [.raise fault]]
  | .engine source (.ok o) => [.guard [.construct o, .use none source]]

/-- The commands of steps in order. -/
def stepCommands (boom : Fault) : List Step → List Command
  | [] => []
  | st :: sts => st.commands boom ++ stepCommands boom sts

end

mutual

/-- What the thread of a step shows of its answer, one piece after the other. The answers of
steps that are run on their own are shown in another thread. -/
def Step.shown (boom : Fault) : Step → Reply → List Reply
  | .isDefault, _ => []
  | .within (.ok _) body _, .inner replies raised after =>
    stepsShown boom body replies ++ (if raised then [.fault boom] else []) ++ [.settings after]
  | .apart _, .inner _ _ after => [.settings after]
  | _, reply => [reply]

/-- What the thread of steps shows of their answers. -/
def stepsShown (boom : Fault) : List Step → List Reply → List Reply
  | st :: sts, reply :: replies => st.shown boom reply ++ stepsShown boom sts replies
  | _, _ => []

end

/-- An answer of a thread as the answer of a step. A parse that failed is answered by the fault
that is caught behind it. -/
def Answer.reply? : Answer → Option Reply
  | .settings s => some (.settings s)
  | .parsed o =>
    match o.result with
    | .ok ns => some (.nodes ns)
    | .error _ => none
  | .caught fault => some (.fault fault)

/-- The answers given so far as answers of steps. -/
def Progress.replies (p : Progress) : List Reply :=
  p.answers.filterMap Answer.reply?

/-! ### What commands answer -/

/-- Commands lead from the settings `σ` to `τ`, give the answers `rs` and raise no fault. -/
structure Performs (cs : List Command) (p : Progress) (σ τ : Settings) (rs : List Reply) : Prop where
  settings : ((performAll cs p).run σ).2 = τ
  settled : ((performAll cs p).run σ).1.raised = none
  replies : ((performAll cs p).run σ).1.replies = p.replies ++ rs

section

variable {cs ds : List Command} {p : Progress} {σ τ υ : Settings} {rs ss : List Reply} {boom : Fault}

theorem run_performAll_cons (c : Command) (cs : List Command) (p : Progress) (σ : Settings) :
    (performAll (c :: cs) p).run σ =
      (match ((c.perform p).run σ).1.raised with
        | none => performAll cs ((c.perform p).run σ).1
        | some _ => pure ((c.perform p).run σ).1).run ((c.perform p).run σ).2 :=
  rfl

theorem run_performAll_append (ds : List Command) : ∀ (cs : List Command) (p : Progress) (σ : Settings),
    ((performAll cs p).run σ).1.raised = none → (performAll (cs ++ ds) p).run σ =
      (performAll ds ((performAll cs p).run σ).1).run ((performAll cs p).run σ).2
  | [], _, _, _ => rfl
  | c :: cs, p, σ, h => by
    rw [run_performAll_cons] at h
    rw [List.cons_append, run_performAll_cons, run_performAll_cons]
    cases hc : ((c.perform p).run σ).1.raised with
    | none =>
      rw [hc] at h
      exact run_performAll_append ds cs _ _ h
    | some fault =>
      rw [hc] at h
      exact absurd (hc.symm.trans h) (Option.some_ne_none fault)

theorem Performs.append (h : Performs cs p σ τ rs)
    (h' : Performs ds ((performAll cs p).run σ).1 τ υ ss) : Performs (cs ++ ds) p σ υ (rs ++ ss) := by
  obtain ⟨hsettings, hsettled, hreplies⟩ := h
  obtain ⟨hsettings', hsettled', hreplies'⟩ := h'
  have hrun := run_performAll_append ds cs p σ hsettled
  rw [hsettings] at hrun
  refine ⟨?_, ?_, ?_⟩
  · rw [hrun, hsettings']
  · rw [hrun, hsettled']
  · rw [hrun, hreplies', hreplies, List.append_assoc]

theorem run_performAll_singleton (c : Command) (p : Progress) (σ : Settings) :
    (performAll [c] p).run σ = (c.perform p).run σ := by
  rw [run_performAll_cons]
  cases ((c.perform p).run σ).1.raised <;> rfl

theorem replies_give (p : Progress) (a : Answer) :
    (p.give a).replies = p.replies ++ a.reply?.toList := by
  unfold Progress.replies Progress.give
  rw [List.filterMap_append]
  cases h : a.reply? <;> simp [h]

theorem settle_of_none (hp : p.raised = none) : p.settle = p := by
  unfold Progress.settle
  rw [hp]

theorem settle_of_some {fault : Fault} (hp : p.raised = some fault) :
    p.settle = { p.give (.caught fault) with raised := none } := by
  unfold Progress.settle
  rw [hp]

theorem raised_settle (p : Progress) : p.settle.raised = none := by
  cases hp : p.raised with
  | none => rw [settle_of_none hp, hp]
  | some fault => rw [settle_of_some hp]

theorem replies_settle_of_some {fault : Fault} (hp : p.raised = some fault) :
    p.settle.replies = p.replies ++ [.fault fault] := by
  rw [settle_of_some hp]
  exact replies_give p (.caught fault)

/-- What a parse leaves is one answer, whether or not it fails. -/
theorem replies_settle_parsed (hp : p.raised = none) (o : Outcome (List Value)) :
    (p.parsed o).settle.replies = p.replies ++ [Reply.ofOutcome o] := by
  unfold Progress.parsed Reply.ofOutcome
  cases ho : o.result with
  | ok ns =>
    have hgive : (p.give (.parsed o)).raised = none := hp
    simp only
    rw [settle_of_none hgive, replies_give, Answer.reply?, ho]
    rfl
  | error fault =>
    simp only
    rw [replies_settle_of_some rfl]
    show (p.give (.parsed o)).replies ++ [.fault fault] = _
    rw [replies_give, Answer.reply?, ho, Option.toList_none, List.append_nil]

/-! ### Steps -/

theorem Performs.of_run {q : Progress} (h : (performAll cs p).run σ = (q, τ)) (hq : q.raised = none)
    (hreplies : q.replies = p.replies ++ rs) : Performs cs p σ τ rs := by
  refine ⟨?_, ?_, ?_⟩
  · rw [h]
  · rw [h]
    exact hq
  · rw [h]
    exact hreplies

theorem Performs.nil (hp : p.raised = none) : Performs [] p σ σ [] :=
  .of_run rfl hp (List.append_nil _).symm

theorem performs_of_run {c : Command} (hp : p.raised = none) (h : (c.perform p).run σ = (p, τ)) :
    Performs [c] p σ τ [] :=
  .of_run ((run_performAll_singleton c p σ).trans h) hp (List.append_nil _).symm

theorem performs_show (hp : p.raised = none) (σ : Settings) :
    Performs [.show] p σ σ [.settings σ] :=
  .of_run (run_performAll_singleton .show p σ) hp (replies_give p (.settings σ))

theorem Performs.show (h : Performs cs p σ τ rs) :
    Performs (cs ++ [.show]) p σ τ (rs ++ [.settings τ]) :=
  h.append (performs_show h.settled τ)

theorem performs_within {s : Settings} (h : Performs cs p s τ rs) (σ : Settings) :
    Performs [.within s cs] p σ σ rs :=
  .of_run (run_performAll_singleton (.within s cs) p σ) h.settled h.replies

/-- A guard answers with the fault that is raised in it. -/
theorem performs_guard {q : Progress} (h : (performAll cs p).run σ = (q, τ))
    (hq : q.settle.replies = p.replies ++ rs) : Performs [.guard cs] p σ τ rs := by
  have hrun : (performAll [.guard cs] p).run σ = (q.settle, τ) := by
    rw [run_performAll_singleton]
    show (((performAll cs p).run σ).1.settle, ((performAll cs p).run σ).2) = _
    rw [h]
  exact .of_run hrun (raised_settle q) hq

theorem performs_guard_raise (p : Progress) (σ : Settings) (fault : Fault) :
    Performs [.guard [.raise fault]] p σ σ [.fault fault] :=
  performs_guard (run_performAll_singleton (.raise fault) p σ) (replies_settle_of_some rfl)

theorem performs_guard_parse (hp : p.raised = none) (source : String) (s : Option Settings)
    (σ : Settings) : Performs [.guard [.parse source s]] p σ ((parseInline source s).run σ).2
      [Reply.ofOutcome ((parseInline source s).run σ).1] :=
  performs_guard (run_performAll_singleton (.parse source s) p σ) (replies_settle_parsed hp _)

theorem performs_guard_construct (hp : p.raised = none) (source : String) (o : EngineOptions)
    (σ : Settings) : Performs [.guard [.construct o, .use none source]] p σ σ
      [Reply.ofOutcome (parseWith (Parser.make o σ) (tokenize source))] := by
  have hconstruct : ((Command.construct o).perform p).run σ = (p.keep (Parser.make o σ), σ) := rfl
  cases hmake : Parser.make o σ with
  | error fault =>
    refine performs_guard (q := { p with raised := some fault }) ?_ (replies_settle_of_some rfl)
    rw [run_performAll_cons, hconstruct, hmake]
    rfl
  | ok parser =>
    have huse : Progress.use { p with parsers := p.parsers ++ [parser] } none source =
        Progress.parsed { p with parsers := p.parsers ++ [parser] } (parser.parse (tokenize source)) := by
      unfold Progress.use Progress.parser?
      rw [List.getLast?_concat]
    have hparse : parseWith (.ok parser) (tokenize source) = parser.parse (tokenize source) := rfl
    refine performs_guard ?_ (replies_settle_parsed (p := { p with parsers := p.parsers ++ [parser] }) hp _)
    rw [run_performAll_cons, hconstruct, hmake, hparse, ← huse]
    simp only [Progress.keep, hp]
    exact run_performAll_singleton (.use none source) _ σ

theorem performs_guard_within {s : Settings} (h : Performs cs p s τ rs) (raises : Bool) (boom : Fault)
    (σ : Settings) : Performs [.guard [.within s (cs ++ if raises then [.raise boom] else [])]] p σ σ
      (rs ++ if raises then [.fault boom] else []) := by
  refine performs_guard (run_performAll_singleton (.within s _) p σ) ?_
  show ((performAll (cs ++ if raises then [.raise boom] else []) p).run s).1.settle.replies = _
  rw [run_performAll_append _ cs p s h.settled]
  cases raises with
  | false =>
    show ((performAll cs p).run s).1.settle.replies = _
    rw [settle_of_none h.settled, h.replies]
    simp
  | true =>
    rw [if_pos rfl, run_performAll_singleton]
    rw [← List.append_assoc, ← h.replies]
    exact replies_settle_of_some rfl

mutual

/-- A step is answered in the thread that performs its commands. -/
theorem Step.performs (boom : Fault) (st : Step) (σ : Settings) (p : Progress) (hp : p.raised = none) :
    Performs (st.commands boom) p σ (st.run.run σ).2 (st.shown boom (st.run.run σ).1) := by
  match st with
  | .show => exact performs_show hp σ
  | .isDefault => exact .nil hp
  | .make (.error fault) => exact performs_guard_raise p σ fault
  | .make (.ok s) => exact performs_within (performs_show hp s) σ
  | .put (.error fault) => exact performs_guard_raise p σ fault
  | .put (.ok s) => exact (performs_of_run hp (c := .put s) rfl).show
  | .reset => exact (performs_of_run hp (c := .reset) rfl).show
  | .within (.error fault) _ _ => exact performs_guard_raise p σ fault
  | .within (.ok s) body raises =>
    have hbody := performs_stepCommands boom body s p hp
    exact (performs_guard_within hbody raises boom σ).show
  | .apart body => exact (performs_of_run hp (c := .spawn (stepCommands boom body)) rfl).show
  | .parse _ (some (.error fault)) => exact performs_guard_raise p σ fault
  | .parse source (some (.ok s)) => exact performs_guard_parse hp source (some s) σ
  | .parse source none => exact performs_guard_parse hp source none σ
  | .engine _ (.error fault) => exact performs_guard_raise p σ fault
  | .engine source (.ok o) => exact performs_guard_construct hp source o σ

theorem performs_stepCommands (boom : Fault) (sts : List Step) (σ : Settings) (p : Progress)
    (hp : p.raised = none) : Performs (stepCommands boom sts) p σ ((runSteps sts).run σ).2
      (stepsShown boom sts ((runSteps sts).run σ).1) := by
  match sts with
  | [] => exact .nil hp
  | st :: sts =>
    have hfirst := Step.performs boom st σ p hp
    have hrest := performs_stepCommands boom sts (st.run.run σ).2 _ hfirst.settled
    exact hfirst.append hrest

end

end

/-- **A thread gives the answers of a program of steps.** It runs the commands of the steps one
step at a time and undoes each block that it has entered. -/
theorem exists_finishes_runProgram (boom : Fault) (steps : List Step) (parsers : List Parser) :
    ∃ n, (Thread.start (stepCommands boom steps) parsers).Finishes [] n ∧
      ((Thread.start (stepCommands boom steps) parsers).run n).settings = ((runSteps steps).run {}).2 ∧
      ((Thread.start (stepCommands boom steps) parsers).run n).progress.replies =
        stepsShown boom steps (runProgram steps) := by
  have habove := Thread.above_performAll (stepCommands boom steps) {} { parsers } [] rfl
  have hperforms := performs_stepCommands boom steps {} { parsers } rfl
  rw [List.append_nil] at habove
  obtain ⟨n, hn, hmore⟩ := habove.exists_run
  refine ⟨n, ⟨?_, hmore⟩, ?_, ?_⟩
  · exact congrArg Thread.todo hn
  · exact (congrArg Thread.settings hn).trans hperforms.settings
  · exact (congrArg (fun t => t.progress.replies) hn).trans hperforms.replies

end InlineMarkup
