/-
# What a thread comes to

A thread undoes the blocks that it has entered one by one, also while a fault is raised. So
it does to a command, step by step, what the computation of the command as a whole does to
it (`Thread.above_perform`), and comes to the end of it (`Thread.exists_finishes`). The
engines that it keeps stay as they are (`Thread.getElem?_parsers_run`).

Threads that run side by side do not touch each other: in whatever order they take their
steps, each comes to what it comes to alone (`ThreadPool.getElem?_run`).

Key definitions: `Thread.Above`, `Thread.Finishes`.
Key theorems: `Thread.above_perform`, `Thread.above_performAll`, `Thread.exists_finishes`,
`Thread.getElem?_parsers_run`, `ThreadPool.getElem?_run`.
-/
import InlineMarkup.Settings.Thread

namespace InlineMarkup

namespace Thread

variable {t u v : Thread} {K : List Frame} {σ : Settings} {p : Progress}

/-! ### Steps above what is to be done later -/

/-- `t` comes to `u`, and has more than the frames `K` to do up to there. -/
inductive Above (K : List Frame) : Thread → Thread → Prop
  | refl (t : Thread) : Above K t t
  | step {t u : Thread} (more : K.length < t.todo.length) (rest : Above K t.step u) : Above K t u

theorem Above.trans (h : Above K t u) (h' : Above K u v) : Above K t v := by
  induction h with
  | refl => exact h'
  | step more _ ih => exact .step more (ih h')

theorem Above.of_append (front : List Frame) (h : Above (front ++ K) t u) : Above K t u := by
  induction h with
  | refl t => exact .refl t
  | step more _ ih =>
    rw [List.length_append] at more
    exact .step (by omega) ih

theorem Above.exists_run (h : Above K t u) :
    ∃ n, t.run n = u ∧ ∀ k < n, K.length < (t.run k).todo.length := by
  induction h with
  | refl t => exact ⟨0, rfl, fun k hk => absurd hk (Nat.not_lt_zero k)⟩
  | @step t u more _ ih =>
    obtain ⟨n, hn, habove⟩ := ih
    refine ⟨n + 1, hn, ?_⟩
    intro k hk
    cases k with
    | zero => exact more
    | succ k => exact habove k (Nat.lt_of_succ_lt_succ hk)

theorem above_step {f : Frame} (h : t.todo = f :: K) : Above K t t.step :=
  .step (by rw [h]; exact Nat.lt_succ_self _) (.refl _)

/-! ### Commands -/

theorem step_of_run (hp : p.raised = none) (c : Command) :
    step ⟨σ, p, .run c :: K⟩ = begin ⟨σ, p, .run c :: K⟩ K c := by
  simp only [step, hp]

theorem above_skip {fault : Fault} (hp : p.raised = some fault) (cs : List Command) :
    Above K ⟨σ, p, cs.map .run ++ K⟩ ⟨σ, p, K⟩ := by
  induction cs with
  | nil => exact .refl _
  | cons c cs ih =>
    have hstep : step ⟨σ, p, .run c :: (cs.map .run ++ K)⟩ = ⟨σ, p, cs.map .run ++ K⟩ := by
      simp only [step, hp]
    have hskip : Above (cs.map .run ++ K) ⟨σ, p, .run c :: (cs.map .run ++ K)⟩
        ⟨σ, p, cs.map .run ++ K⟩ := by
      rw [← hstep]
      exact above_step rfl
    exact (hskip.of_append (cs.map .run)).trans ih

/-- A block is left with the settings from in front of it, whether or not its body raises a
fault. -/
theorem above_block {s τ : Settings} {q : Progress} {body : List Command}
    (h : Above (.leave σ :: K) ⟨s, p, body.map .run ++ .leave σ :: K⟩ ⟨τ, q, .leave σ :: K⟩) :
    Above K ⟨s, p, body.map .run ++ .leave σ :: K⟩ ⟨σ, q, K⟩ :=
  (h.of_append [.leave σ]).trans (above_step rfl)

theorem above_at_once (hp : p.raised = none) {c : Command}
    (h : begin ⟨σ, p, .run c :: K⟩ K c = ⟨((c.perform p).run σ).2, ((c.perform p).run σ).1, K⟩) :
    Above K ⟨σ, p, .run c :: K⟩ ⟨((c.perform p).run σ).2, ((c.perform p).run σ).1, K⟩ := by
  rw [← h, ← step_of_run hp]
  exact above_step rfl

/-- A command whose body is done above one more frame, which the next step finishes. -/
theorem above_begin (hp : p.raised = none) {c : Command}
    (h : Above K (begin ⟨σ, p, .run c :: K⟩ K c) u) : Above K ⟨σ, p, .run c :: K⟩ u := by
  refine .step (Nat.lt_succ_self _) ?_
  rw [step_of_run hp]
  exact h

mutual

/-- **A thread does to a command what the computation of the whole command does**, step by
step, and restores what it has replaced. The cases are the kinds of commands; a block and a
guard leave a frame below their body. -/
theorem above_perform (c : Command) (σ : Settings) (p : Progress) (K : List Frame)
    (hp : p.raised = none) :
    Above K ⟨σ, p, .run c :: K⟩ ⟨((c.perform p).run σ).2, ((c.perform p).run σ).1, K⟩ := by
  match c with
  | .within s body =>
    have hbody := above_performAll body s p (.leave σ :: K) hp
    exact above_begin hp (above_block hbody)
  | .guard body =>
    have hbody := above_performAll body σ p (.settle :: K) hp
    exact above_begin hp ((hbody.of_append [.settle]).trans (above_step rfl))
  | .parse source (some s) =>
    -- the note is parsed under `s` as one command of a block
    have hbody : Above (.leave σ :: K) ⟨s, p, [Command.parse source none].map .run ++ .leave σ :: K⟩
        ⟨s, ((Command.perform (.parse source none) p).run s).1, .leave σ :: K⟩ := above_at_once hp rfl
    exact above_begin hp (above_block hbody)
  | .parse source none => exact above_at_once hp rfl
  | .show => exact above_at_once hp rfl
  | .put s => exact above_at_once hp rfl
  | .reset => exact above_at_once hp rfl
  | .raise fault => exact above_at_once hp rfl
  | .spawn body => exact above_at_once hp rfl
  | .construct o => exact above_at_once hp rfl
  | .use k source => exact above_at_once hp rfl

/-- So it does to commands in order; those behind one that raises a fault are passed over. -/
theorem above_performAll (cs : List Command) (σ : Settings) (p : Progress) (K : List Frame)
    (hp : p.raised = none) : Above K ⟨σ, p, cs.map .run ++ K⟩
      ⟨((performAll cs p).run σ).2, ((performAll cs p).run σ).1, K⟩ := by
  match cs with
  | [] => exact .refl _
  | c :: cs =>
    have hfirst := (above_perform c σ p (cs.map .run ++ K) hp).of_append (cs.map .run)
    have hrun : (performAll (c :: cs) p).run σ =
        (match ((c.perform p).run σ).1.raised with
          | none => performAll cs ((c.perform p).run σ).1
          | some _ => pure ((c.perform p).run σ).1).run ((c.perform p).run σ).2 := rfl
    rw [hrun]
    cases hraised : ((c.perform p).run σ).1.raised with
    | none => exact hfirst.trans (above_performAll cs _ _ K hraised)
    | some fault => exact hfirst.trans (above_skip hraised cs)

end

/-- After `n` steps, and not before, a thread has done what it has to do in front of the
frames `K`. -/
def Finishes (t : Thread) (K : List Frame) (n : Nat) : Prop :=
  (t.run n).todo = K ∧ ∀ k < n, K.length < (t.run k).todo.length

/-- A command comes to its end, and then its effect is that of the computation of the whole
command. -/
theorem exists_finishes {c : Command} (htodo : t.todo = .run c :: K)
    (hraised : t.progress.raised = none) : ∃ n, t.Finishes K n ∧ t.run n =
      ⟨((c.perform t.progress).run t.settings).2, ((c.perform t.progress).run t.settings).1, K⟩ := by
  obtain ⟨settings, progress, todo⟩ := t
  obtain rfl : todo = .run c :: K := htodo
  obtain ⟨n, hn, habove⟩ := (above_perform c settings progress K hraised).exists_run
  refine ⟨n, ⟨?_, habove⟩, hn⟩
  rw [hn]

/-! ### Engines that are kept -/

theorem parsers_parsed (p : Progress) (o : Outcome (List Value)) :
    (p.parsed o).parsers = p.parsers := by
  unfold Progress.parsed
  cases o.result <;> rfl

theorem parsers_begin (t : Thread) (K : List Frame) (c : Command) :
    t.progress.parsers <+: (t.begin K c).progress.parsers := by
  match c with
  | .parse source none => exact ⟨[], (List.append_nil _).trans (parsers_parsed t.progress _).symm⟩
  | .construct o =>
    show t.progress.parsers <+: (t.progress.keep (Parser.make o t.settings)).parsers
    cases Parser.make o t.settings with
    | ok parser => exact List.prefix_append _ _
    | error fault => exact List.prefix_rfl
  | .use k source =>
    show t.progress.parsers <+: (t.progress.use k source).parsers
    unfold Progress.use
    cases t.progress.parser? k with
    | none => exact List.prefix_rfl
    | some parser => exact ⟨[], (List.append_nil _).trans (parsers_parsed t.progress _).symm⟩
  | .parse source (some s) => exact List.prefix_rfl
  | .within s body => exact List.prefix_rfl
  | .guard body => exact List.prefix_rfl
  | .show => exact List.prefix_rfl
  | .put s => exact List.prefix_rfl
  | .reset => exact List.prefix_rfl
  | .raise fault => exact List.prefix_rfl
  | .spawn body => exact List.prefix_rfl

theorem parsers_step (t : Thread) : t.progress.parsers <+: t.step.progress.parsers := by
  unfold step
  rcases t.todo with _ | ⟨c | former | _, todo⟩
  · exact List.prefix_rfl
  · cases t.progress.raised with
    | none => exact t.parsers_begin todo c
    | some fault => exact List.prefix_rfl
  · exact List.prefix_rfl
  · show t.progress.parsers <+: t.progress.settle.parsers
    unfold Progress.settle
    cases t.progress.raised <;> exact List.prefix_rfl

theorem parsers_run (n : Nat) : ∀ t : Thread, t.progress.parsers <+: (t.run n).progress.parsers := by
  induction n with
  | zero => exact fun _ => List.prefix_rfl
  | succ n ih => exact fun t => t.parsers_step.trans (ih t.step)

/-- **A thread keeps the engines that it has.** -/
theorem getElem?_parsers_run {k : Nat} {parser : Parser}
    (h : t.progress.parsers[k]? = some parser) (n : Nat) :
    (t.run n).progress.parsers[k]? = some parser := by
  obtain ⟨rest, hrest⟩ := parsers_run n t
  rw [← hrest, List.getElem?_append_left (List.getElem?_eq_some_iff.mp h).1, h]

/-! ### Single steps -/

theorem step_of_spawn {body : List Command} (htodo : t.todo = .run (.spawn body) :: K)
    (hraised : t.progress.raised = none) :
    t.step = { t with todo := K } ∧ t.spawns = [start body t.progress.parsers] := by
  obtain ⟨settings, progress, todo⟩ := t
  obtain rfl : todo = .run (.spawn body) :: K := htodo
  have hp : progress.raised = none := hraised
  refine ⟨step_of_run hp (.spawn body), ?_⟩
  simp only [spawns, hp]

theorem step_of_construct {o : EngineOptions} (htodo : t.todo = .run (.construct o) :: K)
    (hraised : t.progress.raised = none) :
    t.step = ⟨t.settings, t.progress.keep (Parser.make o t.settings), K⟩ := by
  obtain ⟨settings, progress, todo⟩ := t
  obtain rfl : todo = .run (.construct o) :: K := htodo
  exact step_of_run hraised (.construct o)

theorem step_of_use {k : Option Nat} {source : String} (htodo : t.todo = .run (.use k source) :: K)
    (hraised : t.progress.raised = none) {parser : Parser}
    (hk : t.progress.parser? k = some parser) :
    t.step = ⟨t.settings, t.progress.parsed (parser.parse (tokenize source)), K⟩ := by
  obtain ⟨settings, progress, todo⟩ := t
  obtain rfl : todo = .run (.use k source) :: K := htodo
  have huse : progress.use k source = progress.parsed (parser.parse (tokenize source)) := by
    unfold Progress.use
    rw [hk]
  rw [← huse]
  exact step_of_run hraised (.use k source)

end Thread

/-! ### Threads side by side -/

namespace ThreadPool

theorem step_eq {p : ThreadPool} {i : Nat} {t : Thread} (h : p.threads[i]? = some t) :
    p.step i = { threads := p.threads.set i t.step ++ t.spawns } := by
  simp only [step, h]

theorem getElem?_step {p : ThreadPool} {i : Nat} {t : Thread} (h : p.threads[i]? = some t)
    (j : Nat) : (p.step j).threads[i]? = some (if j = i then t.step else t) := by
  have hi : i < p.threads.length := (List.getElem?_eq_some_iff.mp h).1
  cases hj : p.threads[j]? with
  | none =>
    have hstep : p.step j = p := by simp only [step, hj]
    have hne : j ≠ i := by
      rintro rfl
      rw [h] at hj
      cases hj
    rw [hstep, if_neg hne, h]
  | some u =>
    have hi' : i < (p.threads.set j u.step).length := by
      rw [List.length_set]
      exact hi
    rw [step_eq hj, List.getElem?_append_left hi']
    by_cases hne : j = i
    · subst hne
      obtain rfl := Option.some.inj (h.symm.trans hj)
      rw [if_pos rfl, List.getElem?_set_self hi]
    · rw [if_neg hne, List.getElem?_set_ne hne, h]

/-- **A thread comes to what it comes to alone**, in whatever order the threads take their
steps. -/
theorem getElem?_run (order : List Nat) : ∀ {p : ThreadPool} {i : Nat} {t : Thread},
    p.threads[i]? = some t → (p.run order).threads[i]? = some (t.run (order.count i)) := by
  induction order with
  | nil => exact fun h => h
  | cons j order ih =>
    intro p i t h
    have hstep := getElem?_step h j
    show ((p.step j).run order).threads[i]? = _
    by_cases hji : j = i
    · rw [if_pos hji] at hstep
      rw [ih hstep, hji, List.count_cons_self]
      rfl
    · rw [if_neg hji] at hstep
      rw [ih hstep, List.count_cons_of_ne hji]

end ThreadPool

end InlineMarkup
