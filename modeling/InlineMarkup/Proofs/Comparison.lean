/-
# Two engines compared

Two engines leave the same outcome, events included, if they find the same at every
position of all tokens they come to, and if they treat the containers there alike: both
parse the content, or both refuse it and report the same limit. Which tokens they come
to is said by an invariant of the levels left and of the tokens, and the content of a
container has to keep it (`Engine.Agree`). A step, then a walk, then a pass are the same
(`Engine.Agree.pass_eq`).

In the same way an engine reports nothing, if the content of all containers it comes to
finds a level left (`Engine.events_pass_eq_nil`).

Key definitions: `Engine.nestedAt`, `Engine.Agree`.
Key theorems: `Engine.Agree.pass_eq`, `Engine.events_pass_eq_nil`.
-/
import InlineMarkup.Proofs.Nesting

namespace InlineMarkup

namespace Engine

/-- What parses the content of containers where `levels` more levels may nest. -/
def nestedAt (e : Engine) : Nat → Nested
  | 0 => none
  | levels + 1 => some (e.pass levels)

theorem pass_eq_walk (e : Engine) (levels : Nat) (before : Option Token) (ts : List Token) :
    e.pass levels (TokenSeq.ofList ts before) =
      (e.walk (e.nestedAt levels) (TokenSeq.ofList ts before) 0 0 ts).map e.finish := by
  have htokens : (TokenSeq.ofList ts before).tokens.toList = ts := by simp [TokenSeq.ofList]
  cases levels with
  | zero => rw [pass, htokens, nestedAt]
  | succ levels => rw [pass, htokens, nestedAt]

/-! ### Equal outcomes -/

section Agreement

variable {e e' : Engine} {nested nested' : Nested} {seq : TokenSeq}

/-- Steps are the same where the same is found, if a container found there is refused by
both under one limit or has its content parsed to the same. -/
theorem step_congr {p : Nat}
    (hfirst : firstMatch? e'.matchers (.indexed seq) p = firstMatch? e.matchers (.indexed seq) p)
    (hbox : ∀ {m kind content inner consumed},
      firstMatch? e.matchers (.indexed seq) p = some (m, ⟨.container kind content inner, consumed⟩) →
      (nested = none ∧ nested' = none ∧ e'.limit = e.limit) ∨
        ∃ parse parse', nested = some parse ∧ nested' = some parse' ∧
          ∀ before, parse' (TokenSeq.ofList content before) = parse (TokenSeq.ofList content before)) :
    e'.step nested' seq p = e.step nested seq p := by
  unfold step
  rw [hfirst]
  cases hf : firstMatch? e.matchers (.indexed seq) p with
  | none => rfl
  | some found =>
    obtain ⟨m, node, consumed⟩ := found
    by_cases hlt : consumed < 1
    · simp only [if_pos hlt]
    · simp only [if_neg hlt]
      cases node with
      | container kind content inner =>
        rcases hbox hf with ⟨rfl, rfl, hlimit⟩ | ⟨parse, parse', rfl, rfl, hparse⟩
        · simp only [hlimit]
        · simp only [hparse]
      | _ => rfl

theorem walk_congr (h : ∀ p, e'.step nested' seq p = e.step nested seq p) :
    ∀ (p covered : Nat) (ts : List Token),
      e'.walk nested' seq p covered ts = e.walk nested seq p covered ts
  | _, _, [] => by rw [walk, walk]
  | p, covered + 1, _ :: ts => by rw [walk, walk, walk_congr h (p + 1) covered ts]
  | p, 0, t :: ts => by
    rw [walk, walk, h p]
    congr 1
    funext found
    cases found with
    | none => simp only [walk_congr h (p + 1) 0 ts]
    | some found => simp only [walk_congr h (p + 1) (found.consumed.toNat - 1) ts]

/-- Two engines agree on the tokens of an invariant `P`, which also speaks of the levels
that each of them has left: they find the same there, and open the same containers, whose
content keeps the invariant. -/
structure Agree (e e' : Engine) (P : Nat → Nat → List Token → Prop) : Prop where
  coalesce : e'.coalesce = e.coalesce
  finds : ∀ {levels levels' ts}, P levels levels' ts → ∀ before p,
    firstMatch? e'.matchers (.indexed (TokenSeq.ofList ts before)) p =
      firstMatch? e.matchers (.indexed (TokenSeq.ofList ts before)) p
  opens : ∀ {levels levels' ts content}, P levels levels' ts → e.Opens ts content →
    (levels = 0 ∧ levels' = 0 ∧ e'.limit = e.limit) ∨
      ∃ n n', levels = n + 1 ∧ levels' = n' + 1 ∧ P n n' content

/-- **Engines that agree leave the same outcome.** The induction is on the levels left to
the first one. -/
theorem Agree.pass_eq {P : Nat → Nat → List Token → Prop} (h : Agree e e' P) {levels levels' : Nat}
    {ts : List Token} (hP : P levels levels' ts) (before : Option Token) :
    e'.pass levels' (TokenSeq.ofList ts before) = e.pass levels (TokenSeq.ofList ts before) := by
  induction levels using Nat.strongRecOn generalizing levels' ts before with
  | ind levels ih =>
    have hstep : ∀ p, e'.step (e'.nestedAt levels') (TokenSeq.ofList ts before) p =
        e.step (e.nestedAt levels) (TokenSeq.ofList ts before) p := by
      intro p
      refine step_congr (h.finds hP before p) fun {m kind content inner consumed} hfound => ?_
      have hopens : e.Opens ts content := ⟨before, p, m, kind, inner, consumed, hfound⟩
      rcases h.opens hP hopens with ⟨rfl, rfl, hlimit⟩ | ⟨n, n', rfl, rfl, hcontent⟩
      · exact .inl ⟨rfl, rfl, hlimit⟩
      · exact .inr ⟨_, _, rfl, rfl, fun before' => ih n (Nat.lt_succ_self n) hcontent before'⟩
    have hfinish : e'.finish = e.finish := by
      funext nodes
      rw [finish, finish, h.coalesce]
    rw [pass_eq_walk, pass_eq_walk, walk_congr hstep, hfinish]

end Agreement

/-! ### Silent outcomes -/

section Silence

variable {e : Engine} {nested : Nested} {seq : TokenSeq}

theorem events_andThen_eq_nil {α β : Type} {o : Outcome α} {f : α → Outcome β} (h : o.events = [])
    (hf : ∀ a, (f a).events = []) : (o.andThen f).events = [] := by
  unfold Outcome.andThen
  split
  · exact h
  · simp only [h, hf, List.append_nil]

/-- A step reports nothing, if containers found there have their content parsed without a
report. -/
theorem events_step_eq_nil {p : Nat}
    (hbox : ∀ {m kind content inner consumed},
      firstMatch? e.matchers (.indexed seq) p = some (m, ⟨.container kind content inner, consumed⟩) →
      ∃ parse, nested = some parse ∧ ∀ before, (parse (TokenSeq.ofList content before)).events = []) :
    (e.step nested seq p).events = [] := by
  unfold step
  cases hf : firstMatch? e.matchers (.indexed seq) p with
  | none => rfl
  | some found =>
    obtain ⟨m, node, consumed⟩ := found
    by_cases hlt : consumed < 1
    · simp only [if_pos hlt]
      rfl
    · simp only [if_neg hlt]
      cases node with
      | container kind content inner =>
        obtain ⟨parse, rfl, hparse⟩ := hbox hf
        exact hparse _
      | _ => rfl

theorem events_walk_eq_nil (h : ∀ p, (e.step nested seq p).events = []) :
    ∀ (p covered : Nat) (ts : List Token), (e.walk nested seq p covered ts).events = []
  | _, _, [] => by
    rw [walk]
    rfl
  | p, covered + 1, _ :: ts => by
    rw [walk]
    exact events_walk_eq_nil h (p + 1) covered ts
  | p, 0, t :: ts => by
    rw [walk]
    refine events_andThen_eq_nil (h p) fun found => ?_
    cases found with
    | none => exact events_walk_eq_nil h (p + 1) 0 ts
    | some found => exact events_walk_eq_nil h (p + 1) (found.consumed.toNat - 1) ts

/-- **A pass reports nothing, if all containers it opens find a level left.** -/
theorem events_pass_eq_nil {P : Nat → List Token → Prop}
    (hopens : ∀ {levels ts content}, P levels ts → e.Opens ts content →
      ∃ n, levels = n + 1 ∧ P n content)
    {levels : Nat} {ts : List Token} (hP : P levels ts) (before : Option Token) :
    (e.pass levels (TokenSeq.ofList ts before)).events = [] := by
  induction levels using Nat.strongRecOn generalizing ts before with
  | ind levels ih =>
    have hstep : ∀ p, (e.step (e.nestedAt levels) (TokenSeq.ofList ts before) p).events = [] := by
      intro p
      refine events_step_eq_nil fun {m kind content inner consumed} hfound => ?_
      have hopen : e.Opens ts content := ⟨before, p, m, kind, inner, consumed, hfound⟩
      obtain ⟨n, rfl, hcontent⟩ := hopens hP hopen
      exact ⟨_, rfl, fun before' => ih n (Nat.lt_succ_self n) hcontent before'⟩
    rw [pass_eq_walk]
    exact events_walk_eq_nil hstep 0 0 ts

end Silence

end Engine

end InlineMarkup
