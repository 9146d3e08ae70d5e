/-
# Whole runs of calls on a registry builder

A builder that is reached by any calls (`Workbench.Reached`), failing ones among them, has
each name once. That is what its other properties rest on: the place in front of a name is
one place, an entry that is put in is the one that its name takes out again
(`RegistryBuilder.unregister_of_putsIn`), and a registry finds under a name the one entry
that has it (`Registry.get?_eq_some_iff`).

What a successful call does is said by the lists of entries before and after it
(`RegistryBuilder.PutsIn`, `RegistryBuilder.TakesOut`), and what a list of registrations
does by calls for its members one by one, up to the first that is refused
(`Workbench.call_registerAll`).

Key definitions: `RegistryBuilder.PutsIn`, `RegistryBuilder.TakesOut`,
`RegistryBuilder.Accepts`, `Workbench.Reached`.
Key theorems: `RegistryBuilder.register_spec`, `RegistryBuilder.unregister_spec`,
`Registry.get?_eq_some_iff`, `Workbench.call_registerAll`, `Workbench.Reached.nodup`,
`builder_runs`.
-/
import InlineMarkup.Registry.Workbench
import Mathlib.Data.List.Nodup

namespace InlineMarkup

namespace RegistryBuilder

variable {b : RegistryBuilder} {m : Entry} {before : Option String} {name : String}
  {es es' : List Entry}

/-! ### Entries put in and taken out -/

/-- `m` is put between the entries: at their end, or directly in front of the one with the name
`before`. -/
def PutsIn (m : Entry) (before : Option String) (es es' : List Entry) : Prop :=
  ∃ front back, es = front ++ back ∧ es' = front ++ m :: back ∧
    back.head?.map Entry.name = before

/-- One entry, of the given name, is taken out from between the others. -/
def TakesOut (name : String) (es es' : List Entry) : Prop :=
  ∃ front m back, es = front ++ m :: back ∧ es' = front ++ back ∧ m.name = name

theorem putsIn_end (m : Entry) (es : List Entry) : PutsIn m none es (es ++ [m]) :=
  ⟨es, [], (List.append_nil es).symm, rfl, rfl⟩

theorem exists_first_named (h : name ∈ es.map Entry.name) :
    ∃ front n back, es = front ++ n :: back ∧ n.name = name ∧ name ∉ front.map Entry.name := by
  obtain ⟨names, rest, hsplit, hfirst⟩ := List.eq_append_cons_of_mem h
  obtain ⟨front, others, rfl, rfl, hothers⟩ := List.map_eq_append_iff.mp hsplit
  obtain ⟨n, back, rfl, hn, -⟩ := List.map_eq_cons_iff.mp hothers
  exact ⟨front, n, back, rfl, hn, hfirst⟩

theorem insertBefore_append (m : Entry) {n : Entry} {front : List Entry} (back : List Entry)
    (h : n.name ∉ front.map Entry.name) :
    insertBefore m n.name (front ++ n :: back) = front ++ m :: n :: back := by
  induction front with
  | nil =>
    show insertBefore m n.name (n :: back) = m :: n :: back
    rw [insertBefore, if_pos (beq_self_eq_true n.name)]
  | cons x front ih =>
    obtain ⟨hx, hfront⟩ := not_or.mp (fun hor => h (List.mem_cons.mpr hor))
    rw [List.cons_append, insertBefore, if_neg (fun heq => hx (beq_iff_eq.mp heq).symm), ih hfront,
      List.cons_append]

theorem removeNamed_append {front : List Entry} (back : List Entry)
    (h : m.name ∉ front.map Entry.name) : removeNamed m.name (front ++ m :: back) = front ++ back := by
  induction front with
  | nil =>
    show removeNamed m.name (m :: back) = back
    rw [removeNamed, if_pos (beq_self_eq_true m.name)]
  | cons x front ih =>
    obtain ⟨hx, hfront⟩ := not_or.mp (fun hor => h (List.mem_cons.mpr hor))
    rw [List.cons_append, removeNamed, if_neg (fun heq => hx (beq_iff_eq.mp heq).symm), ih hfront,
      List.cons_append]

theorem putsIn_insertBefore (m : Entry) (h : name ∈ es.map Entry.name) :
    PutsIn m (some name) es (insertBefore m name es) := by
  obtain ⟨front, n, back, rfl, rfl, hfirst⟩ := exists_first_named h
  exact ⟨front, n :: back, rfl, insertBefore_append m back hfirst, rfl⟩

theorem takesOut_removeNamed (h : name ∈ es.map Entry.name) :
    TakesOut name es (removeNamed name es) := by
  obtain ⟨front, m, back, rfl, rfl, hfirst⟩ := exists_first_named h
  exact ⟨front, m, back, rfl, removeNamed_append back hfirst, rfl⟩

theorem PutsIn.nodup (h : PutsIn m before es es') (hnew : m.name ∉ es.map Entry.name)
    (hnodup : (es.map Entry.name).Nodup) : (es'.map Entry.name).Nodup := by
  obtain ⟨front, back, rfl, rfl, -⟩ := h
  rw [List.map_append] at hnodup hnew ⊢
  exact List.nodup_middle.mpr (List.nodup_cons.mpr ⟨hnew, hnodup⟩)

theorem TakesOut.nodup (h : TakesOut name es es') (hnodup : (es.map Entry.name).Nodup) :
    (es'.map Entry.name).Nodup := by
  obtain ⟨front, m, back, rfl, rfl, -⟩ := h
  rw [List.map_append] at hnodup ⊢
  exact (List.nodup_cons.mp (List.nodup_middle.mp hnodup)).2

/-! ### One call on a builder -/

/-- A candidate is a matcher of a new name, and the name in front of which it is to stand is one
that the builder has. -/
def Accepts (b : RegistryBuilder) (c : Candidate) (before : Option String) : Prop :=
  ∃ m, c = .complete m ∧ m.name ∉ b.names ∧ ∀ n ∈ before, n ∈ b.names

/-- What a builder accepts is put in at its place, and nothing else is. -/
theorem register_spec (b : RegistryBuilder) (c : Candidate) (before : Option String) :
    (b.Accepts c before ∧ ∃ m b' event, c = .complete m ∧ m.name ∉ b.names ∧
      b.register c before = .ok (b', event) ∧ PutsIn m before b.entries b'.entries) ∨
    (¬ b.Accepts c before ∧ ∃ fault, b.register c before = .error fault) := by
  cases c with
  | nameless type =>
    refine .inr ⟨?_, .nameMissing type, rfl⟩
    rintro ⟨m, hm, -⟩
    cases hm
  | matchless type name =>
    refine .inr ⟨?_, .matchMissing type, rfl⟩
    rintro ⟨m, hm, -⟩
    cases hm
  | complete m =>
    unfold register
    simp only [List.contains_iff_mem]
    by_cases hname : m.name ∈ b.names
    · rw [if_pos hname]
      refine .inr ⟨?_, _, rfl⟩
      rintro ⟨m', hm, hnew, -⟩
      obtain rfl := Candidate.complete.inj hm
      exact hnew hname
    · rw [if_neg hname]
      cases before with
      | none =>
        have haccepts : b.Accepts (.complete m) none := ⟨m, rfl, hname, fun _ h => by cases h⟩
        exact .inl ⟨haccepts, m, _, _, rfl, hname, rfl, putsIn_end m _⟩
      | some neighbour =>
        by_cases hbefore : neighbour ∈ b.names
        · have haccepts : b.Accepts (.complete m) (some neighbour) :=
            ⟨m, rfl, hname, fun n hn => Option.some.inj hn ▸ hbefore⟩
          simp only [if_pos hbefore]
          exact .inl ⟨haccepts, m, _, _, rfl, hname, rfl, putsIn_insertBefore m hbefore⟩
        · simp only [if_neg hbefore]
          refine .inr ⟨?_, _, rfl⟩
          rintro ⟨-, -, -, hknown⟩
          exact hbefore (hknown neighbour rfl)

/-- A name that a builder has is taken out, and no other is. -/
theorem unregister_spec (b : RegistryBuilder) (name : String) :
    (name ∈ b.names ∧ ∃ b', b.unregister name = .ok b' ∧ TakesOut name b.entries b'.entries) ∨
    (name ∉ b.names ∧ b.unregister name = .error (.notRegistered name)) := by
  unfold unregister
  simp only [List.contains_iff_mem]
  by_cases hname : name ∈ b.names
  · rw [if_pos hname]
    exact .inl ⟨hname, _, rfl, takesOut_removeNamed hname⟩
  · rw [if_neg hname]
    exact .inr ⟨hname, rfl⟩

/-- A new name takes out what was put in under it. -/
theorem unregister_of_putsIn {b' : RegistryBuilder} (hnew : m.name ∉ b.names)
    (h : PutsIn m before b.entries b'.entries) : b'.unregister m.name = .ok b := by
  obtain ⟨front, back, hb, hb', -⟩ := h
  have hmem : m.name ∈ b'.names := by
    rw [names, hb']
    exact List.mem_map_of_mem (List.mem_append_right front List.mem_cons_self)
  have hfront : m.name ∉ front.map Entry.name := by
    intro hin
    apply hnew
    rw [names, hb, List.map_append]
    exact List.mem_append_left _ hin
  unfold unregister
  rw [if_pos (List.contains_iff_mem.mpr hmem), hb', removeNamed_append back hfront, ← hb]

theorem nodup_registerAll (cs : List Candidate) : ∀ {b : RegistryBuilder}, b.names.Nodup →
    (b.registerAll cs).builder.names.Nodup := by
  induction cs with
  | nil => exact fun h => h
  | cons c cs ih =>
    intro b hnodup
    unfold registerAll
    rcases b.register_spec c none with ⟨-, m, b', event, -, hnew, hok, hput⟩ | ⟨-, fault, herror⟩
    · rw [hok]
      exact ih (hput.nodup hnew hnodup)
    · rw [herror]
      exact hnodup

theorem nodup_withDefaults : withDefaults.names.Nodup :=
  nodup_registerAll _ List.nodup_nil

end RegistryBuilder

/-! ### Registries -/

namespace Registry

variable {r : Registry} {x : String}

theorem contains_iff : r.contains x = true ↔ x ∈ r.names :=
  List.contains_iff_mem

theorem isSome_get?_iff : (r.get? x).isSome = true ↔ x ∈ r.names := by
  rw [get?, List.find?_isSome, names, List.mem_map]
  simp only [List.mem_reverse, beq_iff_eq]

/-- **A registry of distinct names finds under a name the one entry that has it.** -/
theorem get?_eq_some_iff (hnodup : r.names.Nodup) {e : Entry} :
    r.get? x = some e ↔ e ∈ r.entries ∧ e.name = x := by
  have hfound : ∀ {e}, r.get? x = some e → e ∈ r.entries ∧ e.name = x := by
    intro e h
    have hname := List.find?_some h
    exact ⟨List.mem_reverse.mp (List.mem_of_find?_eq_some h), beq_iff_eq.mp hname⟩
  constructor
  · exact hfound
  · rintro ⟨he, hname⟩
    have hx : x ∈ r.names := hname ▸ List.mem_map_of_mem he
    obtain ⟨e', he'⟩ := Option.isSome_iff_exists.mp (isSome_get?_iff.mpr hx)
    obtain ⟨hmem, hname'⟩ := hfound he'
    rw [he', List.inj_on_of_nodup_map hnodup hmem he (hname'.trans hname.symm)]

end Registry

/-! ### Runs -/

namespace Workbench

variable {w : Workbench}

theorem run_cons (w : Workbench) (c : BuilderCall) (calls : List BuilderCall) :
    w.run (c :: calls) = ((w.call c).1 :: ((w.call c).2.run calls).1, ((w.call c).2.run calls).2) :=
  rfl

/-- A workbench that some calls lead to from an empty builder or from that of the built-in
matchers. -/
def Reached (w : Workbench) : Prop :=
  ∃ start calls, (start = {} ∨ start = RegistryBuilder.withDefaults) ∧
    w = (run { builder := start } calls).2

theorem call_register_of_ok {c : Candidate} {before : Option String} {b : RegistryBuilder}
    {event : Event} (h : w.builder.register c before = .ok (b, event)) :
    w.call (.register c before) = (⟨[event], .ok none⟩, { w with builder := b }) := by
  simp only [call, h]

theorem call_register_of_error {c : Candidate} {before : Option String} {fault : Fault}
    (h : w.builder.register c before = .error fault) :
    w.call (.register c before) = (⟨[], .error fault⟩, w) := by
  simp only [call, h]

theorem call_unregister_of_ok {name : String} {b : RegistryBuilder}
    (h : w.builder.unregister name = .ok b) :
    w.call (.unregister name) = (⟨[], .ok none⟩, { w with builder := b }) := by
  simp only [call, h]

theorem call_unregister_of_error {name : String} {fault : Fault}
    (h : w.builder.unregister name = .error fault) :
    w.call (.unregister name) = (⟨[], .error fault⟩, w) := by
  simp only [call, h]

theorem nodup_call (c : BuilderCall) (h : w.builder.names.Nodup) :
    (w.call c).2.builder.names.Nodup := by
  cases c with
  | clear => exact List.nodup_nil
  | defaults => exact RegistryBuilder.nodup_withDefaults
  | register c before =>
    rcases w.builder.register_spec c before with
      ⟨-, m, b, event, -, hnew, hok, hput⟩ | ⟨-, fault, herror⟩
    · rw [call_register_of_ok hok]
      exact hput.nodup hnew h
    · rw [call_register_of_error herror]
      exact h
  | registerAll cs => exact RegistryBuilder.nodup_registerAll cs h
  | unregister name =>
    rcases w.builder.unregister_spec name with ⟨-, b, hok, htaken⟩ | ⟨-, herror⟩
    · rw [call_unregister_of_ok hok]
      exact htaken.nodup h
    · rw [call_unregister_of_error herror]
      exact h
  | build => exact h
  | direct es => exact h
  | standard => exact h

theorem nodup_run (calls : List BuilderCall) : ∀ {w : Workbench}, w.builder.names.Nodup →
    (w.run calls).2.builder.names.Nodup := by
  induction calls with
  | nil => exact fun h => h
  | cons c calls ih => exact fun h => ih (nodup_call c h)

theorem Reached.nodup (h : w.Reached) : w.builder.names.Nodup := by
  obtain ⟨start, calls, rfl | rfl, rfl⟩ := h
  · exact nodup_run calls List.nodup_nil
  · exact nodup_run calls RegistryBuilder.nodup_withDefaults

theorem made_call (w : Workbench) (c : BuilderCall) : w.made <+: (w.call c).2.made := by
  cases c with
  | clear => exact List.prefix_rfl
  | defaults => exact List.prefix_rfl
  | register c before =>
    cases h : w.builder.register c before with
    | error fault => exact ⟨[], by rw [List.append_nil, call_register_of_error h]⟩
    | ok made => exact ⟨[], by rw [List.append_nil, call_register_of_ok h]⟩
  | registerAll cs => exact List.prefix_rfl
  | unregister name =>
    cases h : w.builder.unregister name with
    | error fault => exact ⟨[], by rw [List.append_nil, call_unregister_of_error h]⟩
    | ok b => exact ⟨[], by rw [List.append_nil, call_unregister_of_ok h]⟩
  | build => exact List.prefix_append _ _
  | direct es => exact List.prefix_append _ _
  | standard => exact List.prefix_append _ _

/-- **Registries that have been made stay as they are.** -/
theorem made_run (calls : List BuilderCall) : ∀ w : Workbench, w.made <+: (w.run calls).2.made := by
  induction calls with
  | nil => exact fun _ => List.prefix_rfl
  | cons c calls ih => exact fun w => (made_call w c).trans (ih _)

/-- The registrations of some candidates, call by call. -/
def oneByOne (cs : List Candidate) : List BuilderCall :=
  cs.map fun c => .register c none

theorem call_registerAll_cons {c : Candidate} {b : RegistryBuilder} {event : Event}
    (h : w.builder.register c none = .ok (b, event)) {cs : List Candidate} {reply : BuilderReply}
    {w' : Workbench} (hrest : call { w with builder := b } (.registerAll cs) = (reply, w')) :
    w.call (.registerAll (c :: cs)) = (⟨event :: reply.events, reply.result⟩, w') := by
  obtain ⟨rfl, rfl⟩ := Prod.mk.inj hrest
  simp only [call, RegistryBuilder.registerAll, h]
  rfl

/-- A list of registrations does what its members do one by one, up to the first that is
refused. -/
theorem call_registerAll (cs : List Candidate) : ∀ w : Workbench, ∃ front back replies w',
    cs = front ++ back ∧ w.run (oneByOne front) = (replies, w') ∧
    (∀ reply ∈ replies, reply.result = .ok none) ∧
    ((back = [] ∧
      w.call (.registerAll cs) = (⟨replies.flatMap BuilderReply.events, .ok none⟩, w')) ∨
    ∃ c rest fault, back = c :: rest ∧ w'.call (.register c none) = (⟨[], .error fault⟩, w') ∧
      w.call (.registerAll cs) = (⟨replies.flatMap BuilderReply.events, .error fault⟩, w')) := by
  induction cs with
  | nil => exact fun w => ⟨[], [], [], w, rfl, rfl, by simp, .inl ⟨rfl, rfl⟩⟩
  | cons c cs ih =>
    intro w
    cases hregister : w.builder.register c none with
    | error fault =>
      have hcall := call_register_of_error hregister
      refine ⟨[], c :: cs, [], w, rfl, rfl, by simp, .inr ⟨c, cs, fault, rfl, hcall, ?_⟩⟩
      simp only [call, RegistryBuilder.registerAll, hregister]
      rfl
    | ok made =>
      obtain ⟨b, event⟩ := made
      have hcall := call_register_of_ok hregister
      obtain ⟨front, back, replies, w', rfl, hrun, hok, hends⟩ := ih { w with builder := b }
      refine ⟨c :: front, back, ⟨[event], .ok none⟩ :: replies, w', rfl, ?_, ?_, ?_⟩
      · show w.run (.register c none :: oneByOne front) = _
        rw [run_cons, hcall, hrun]
      · exact List.forall_mem_cons.mpr ⟨rfl, hok⟩
      · rcases hends with ⟨hback, hall⟩ | ⟨c', rest, fault, hback, hrefused, hall⟩
        · exact .inl ⟨hback, call_registerAll_cons hregister hall⟩
        · exact .inr ⟨c', rest, fault, hback, hrefused, call_registerAll_cons hregister hall⟩

end Workbench

open RegistryBuilder

/-- **What a builder does over whole runs.** Names stay distinct, what is accepted is put in at
its place and taken out by its name, and what is refused changes nothing. A registry that is
built stays as it is, and finds under a name the one matcher that has it. -/
theorem builder_runs {w : Workbench} (h : w.Reached) :
    w.builder.names.Nodup ∧
    (∀ c before, (w.builder.Accepts c before ∧ ∃ m b event, c = .complete m ∧
        w.call (.register c before) = (⟨[event], .ok none⟩, { w with builder := b }) ∧
        PutsIn m before w.builder.entries b.entries ∧
        Workbench.call { w with builder := b } (.unregister m.name) = (⟨[], .ok none⟩, w)) ∨
      (¬ w.builder.Accepts c before ∧
        ∃ fault, w.call (.register c before) = (⟨[], .error fault⟩, w))) ∧
    (∀ name, (name ∈ w.builder.names ∧ ∃ b,
        w.call (.unregister name) = (⟨[], .ok none⟩, { w with builder := b }) ∧
        TakesOut name w.builder.entries b.entries) ∨
      (name ∉ w.builder.names ∧
        w.call (.unregister name) = (⟨[], .error (.notRegistered name)⟩, w))) ∧
    (∀ cs, ∃ front back replies w', cs = front ++ back ∧
      w.run (Workbench.oneByOne front) = (replies, w') ∧
      (∀ reply ∈ replies, reply.result = .ok none) ∧
      ((back = [] ∧
        w.call (.registerAll cs) = (⟨replies.flatMap BuilderReply.events, .ok none⟩, w')) ∨
      ∃ c rest fault, back = c :: rest ∧ w'.call (.register c none) = (⟨[], .error fault⟩, w') ∧
        w.call (.registerAll cs) = (⟨replies.flatMap BuilderReply.events, .error fault⟩, w'))) ∧
    ∃ r : Registry, r.entries = w.builder.entries ∧
      w.call .build = (⟨[], .ok (some r)⟩, { w with made := w.made ++ [r] }) ∧
      (∀ later, ((w.call .build).2.run later).2.made[w.made.length]? = some r) ∧
      ∀ x, (∀ e, r.get? x = some e ↔ e ∈ r.entries ∧ e.name = x) ∧
        (r.contains x = true ↔ x ∈ r.names) ∧ ((r.get? x).isSome = true ↔ x ∈ r.names) := by
  refine ⟨h.nodup, ?_, ?_, fun cs => w.call_registerAll cs, w.builder.build, rfl, rfl, ?_, ?_⟩
  · intro c before
    rcases w.builder.register_spec c before with
      ⟨haccepts, m, b, event, hc, hnew, hok, hput⟩ | ⟨hrefused, fault, herror⟩
    · have hback : b.unregister m.name = .ok w.builder := unregister_of_putsIn hnew hput
      exact .inl ⟨haccepts, m, b, event, hc, Workbench.call_register_of_ok hok, hput,
        Workbench.call_unregister_of_ok hback⟩
    · exact .inr ⟨hrefused, fault, Workbench.call_register_of_error herror⟩
  · intro name
    rcases w.builder.unregister_spec name with ⟨hname, b, hok, htaken⟩ | ⟨hname, herror⟩
    · exact .inl ⟨hname, b, Workbench.call_unregister_of_ok hok, htaken⟩
    · exact .inr ⟨hname, Workbench.call_unregister_of_error herror⟩
  · intro later
    obtain ⟨rest, hrest⟩ := Workbench.made_run later (w.call .build).2
    have hmade : (w.call .build).2.made = w.made ++ [w.builder.build] := rfl
    rw [← hrest, hmade, List.append_assoc, List.getElem?_append_right (Nat.le_refl _), Nat.sub_self]
    rfl
  · exact fun x => ⟨fun e => Registry.get?_eq_some_iff (r := w.builder.build) h.nodup,
      Registry.contains_iff, Registry.isSome_get?_iff⟩

/-- Two calls are refused and one puts a second kind of tag in front of italic text: it stands
there once, and the registry that is built has it. -/
theorem builder_runs_with_refusals : ∃ w : Workbench,
    w = (Workbench.run { builder := withDefaults } [.register (.nameless "object") none,
      .register (.complete (.tag "topic")) (some "italic"), .unregister "spoiler"]).2 ∧
    w.builder.names = ["code", "image", "wikilink", "link", "bold", "topic", "italic",
      "strikethrough", "highlight", "tag"] ∧
    w.builder.names.Nodup ∧ ∃ r : Registry, (w.call .build).1.result = .ok (some r) ∧
      (r.contains "topic" = true ↔ "topic" ∈ r.names) := by
  refine ⟨_, rfl, by decide, ?_⟩
  obtain ⟨hnodup, -, -, -, r, -, hbuild, -, hfinds⟩ :=
    builder_runs ⟨withDefaults, _, .inr rfl, rfl⟩
  refine ⟨hnodup, r, ?_, (hfinds "topic").2.1⟩
  rw [hbuild]

end InlineMarkup
