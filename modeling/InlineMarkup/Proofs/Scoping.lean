/-
# Settings are in force where they are put, and nowhere else

Behind a block the settings are those from in front of it, whatever was done in it and
however it ended, since a thread undoes what it has entered frame by frame. Each thread has
settings of its own. A parse reads the settings that it is given, or else those in force, and
changes none; an engine goes by those in force when it was made.

Key theorem: `scoped_settings`.
-/
import InlineMarkup.Proofs.Threads
import InlineMarkup.Proofs.StandardParse

namespace InlineMarkup

theorem settings_parseInline (source : String) (s : Option Settings) (σ : Settings) :
    ((parseInline source s).run σ).2 = σ := by
  cases s <;> rfl

/-- **Settings are in force where they are put, and nowhere else.** A block is left with the
settings from in front of it, whatever its body does, and threads come to what they come to
alone. To parse a note or to make an engine changes no settings, and an engine keeps to those in
force when it was made. -/
theorem scoped_settings :
    (∀ (t : Thread) (s : Settings) (body : List Command) (K : List Frame),
      t.todo = .run (.within s body) :: K → t.progress.raised = none →
      ∃ n, t.Finishes K n ∧ (t.run n).settings = t.settings ∧
        (t.run n).progress = ((performAll body t.progress).run s).1) ∧
    (∀ (p : ThreadPool) (i : Nat) (t : Thread), p.threads[i]? = some t →
      (∀ order, (p.run order).threads[i]? = some (t.run (order.count i))) ∧
      ∀ body K, t.todo = .run (.spawn body) :: K → t.progress.raised = none →
        (p.step i).threads = p.threads.set i { t with todo := K } ++
          [{ settings := {}, progress := { parsers := t.progress.parsers }, todo := body.map .run }]) ∧
    (∀ (t : Thread) (source : String) (s : Option Settings) (K : List Frame),
      t.todo = .run (.parse source s) :: K → t.progress.raised = none →
      ∃ n, t.Finishes K n ∧ t.run n = ⟨t.settings,
        t.progress.parsed (parseWith (Parser.make {} (s.getD t.settings)) (tokenize source)), K⟩) ∧
    (∀ (t : Thread) (o : EngineOptions) (K : List Frame),
      t.todo = .run (.construct o) :: K → t.progress.raised = none →
      t.step = ⟨t.settings, t.progress.keep (Parser.make o t.settings), K⟩) ∧
    ∀ (t : Thread) (k : Nat) (parser : Parser), t.progress.parsers[k]? = some parser →
      ∀ n source K, (t.run n).todo = .run (.use (some k) source) :: K →
        (t.run n).progress.raised = none → (t.run n).step =
          ⟨(t.run n).settings, (t.run n).progress.parsed (parser.parse (tokenize source)), K⟩ := by
  refine ⟨?_, ?_, ?_, ?_, ?_⟩
  · intro t s body K htodo hraised
    obtain ⟨n, hfinishes, hrun⟩ := Thread.exists_finishes htodo hraised
    refine ⟨n, hfinishes, ?_, ?_⟩
    · rw [hrun]
      rfl
    · rw [hrun]
      rfl
  · intro p i t h
    refine ⟨fun order => ThreadPool.getElem?_run order h, ?_⟩
    intro body K htodo hraised
    obtain ⟨hstep, hspawns⟩ := Thread.step_of_spawn htodo hraised
    rw [ThreadPool.step_eq h, hstep, hspawns]
    rfl
  · intro t source s K htodo hraised
    obtain ⟨n, hfinishes, hrun⟩ := Thread.exists_finishes htodo hraised
    refine ⟨n, hfinishes, hrun.trans ?_⟩
    have hparse : ((Command.parse source s).perform t.progress).run t.settings =
        (t.progress.parsed ((parseInline source s).run t.settings).1,
          ((parseInline source s).run t.settings).2) := rfl
    rw [hparse, run_parseInline, settings_parseInline]
  · intro t o K htodo hraised
    exact Thread.step_of_construct htodo hraised
  · intro t k parser hk n source K htodo hraised
    exact Thread.step_of_use htodo hraised (Thread.getElem?_parsers_run hk n)

/-- A matcher that covers no token ends a parse inside two blocks, behind a reset. The fault
undoes both blocks. -/
theorem scoped_settings_unwound :
    let stuck : Settings :=
      { registry := some ⟨[Entry.fixed "stuck" none (Node.text "a").stored (.int 0)]⟩ }
    let t : Thread := ⟨{ maxDepth := .count 3 }, {}, [.run (.within { maxDepth := .count 5 }
      [.within { maxDepth := .count 7 } [.reset, .parse "a" (some stuck)]])]⟩
    ∃ n, t.Finishes [] n ∧ (t.run n).settings = { maxDepth := .count 3 } ∧
      (t.run n).progress.raised = some (.nothingConsumed "stuck" 0 (.int 0)) := by
  intro stuck t
  obtain ⟨n, hfinishes, hsettings, hprogress⟩ := scoped_settings.1 t { maxDepth := .count 5 }
    [.within { maxDepth := .count 7 } [.reset, .parse "a" (some stuck)]] [] rfl rfl
  refine ⟨n, hfinishes, hsettings, ?_⟩
  have hshown : Fault.ofShortMatch "stuck" 0 (.int 0) = .nothingConsumed "stuck" 0 (.int 0) := by
    rw [Fault.ofShortMatch, Fault.showing, if_pos]
    simp [Json.hasText, hasText, decimal, maxDigits]
  rw [hprogress, ← hshown]
  rfl

end InlineMarkup
