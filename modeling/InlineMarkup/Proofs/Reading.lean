/-
# Passes as readings

A pass of an engine over tokens is a derivation: it reads a token as text, or a
span as the node of the first construct that is found there, and goes on behind
it (`Engine.Reads`). Content of containers is read one level deeper, behind what
precedes the container. When all matchers are matchers of constructs there is
exactly one reading of any tokens, and it gives the result of the pass
(`pass_eq_ok_iff`). So what holds of readings, by induction on their rules, holds
of parses.

Key definitions: `Engine.first?`, `Engine.Reads`, `Engine.WalkReads`.
Key theorems: `Engine.Reads.unique`, `Engine.walkReads`, `Engine.exists_reads`,
`Engine.pass_eq_ok_iff`.
-/
import InlineMarkup.Proofs.Recognition
import InlineMarkup.Engine

namespace InlineMarkup

/-! ### The first match -/

theorem firstMatch?_congr {view view' : TokenView} {p p' : Nat} : ∀ ms : List Matcher,
    (∀ m ∈ ms, m.attempt view p = m.attempt view' p') →
    firstMatch? ms view p = firstMatch? ms view' p'
  | [], _ => rfl
  | m :: ms, h => by
    rw [firstMatch?, firstMatch?, h m List.mem_cons_self,
      firstMatch?_congr ms fun m' hm' => h m' (List.mem_cons_of_mem _ hm')]

theorem firstMatch?_eq_none_iff {view : TokenView} {p : Nat} : ∀ ms : List Matcher,
    firstMatch? ms view p = none ↔ ∀ m ∈ ms, m.attempt view p = none
  | [] => by simp [firstMatch?]
  | m :: ms => by
    rw [firstMatch?, List.forall_mem_cons, ← firstMatch?_eq_none_iff ms]
    cases m.attempt view p <;> simp

theorem mem_of_firstMatch? {view : TokenView} {p : Nat} {m : Matcher} {found : Match} :
    ∀ ms : List Matcher, firstMatch? ms view p = some (m, found) →
      m ∈ ms ∧ m.attempt view p = some found
  | [], h => by simp [firstMatch?] at h
  | m' :: ms, h => by
    rw [firstMatch?] at h
    cases ha : m'.attempt view p with
    | none =>
      rw [ha] at h
      have ih := mem_of_firstMatch? ms h
      exact ⟨List.mem_cons_of_mem _ ih.1, ih.2⟩
    | some found' =>
      rw [ha] at h
      obtain ⟨rfl, rfl⟩ := Prod.mk.inj (Option.some.inj h)
      exact ⟨List.mem_cons_self, ha⟩

namespace Engine

/-- What the first matcher that finds anything finds in front of the tokens `rest`
that follow `before`. -/
def first? (e : Engine) (before : Option Token) (rest : List Token) : Option (Matcher × Match) :=
  firstMatch? e.matchers (.indexed (TokenSeq.ofList rest before)) 0

variable {e : Engine} {cs : List Construct}

theorem first?_eq_none_iff {before : Option Token} {rest : List Token} :
    e.first? before rest = none ↔ ∀ m ∈ e.matchers, m.recognise before rest = none :=
  firstMatch?_eq_none_iff e.matchers

theorem firstMatch?_eq_first? (he : e.matchers ⊆ cs.map Construct.matcher) (ts : List Token)
    (before : Option Token) (p : Nat) :
    firstMatch? e.matchers (.indexed (TokenSeq.ofList ts before)) p =
      e.first? (precedes before ts p) (ts.drop p) :=
  firstMatch?_congr e.matchers fun m hm => by
    obtain ⟨c, -, rfl⟩ := List.mem_map.mp (he hm)
    exact c.attempt_eq_recognise (TokenView.shows_ofList ts before) p

theorem exists_forms_of_first? (he : e.matchers ⊆ cs.map Construct.matcher) {before : Option Token}
    {ts : List Token} {m : Matcher} {found : Match} (h : e.first? before ts = some (m, found)) :
    ∃ c ∈ cs, m = c.matcher ∧ ∃ span rest, ts = span ++ rest ∧
      c.Forms before span rest found.node ∧ found.consumed = span.length := by
  obtain ⟨hm, hfound⟩ := mem_of_firstMatch? e.matchers h
  obtain ⟨c, hc, rfl⟩ := List.mem_map.mp (he hm)
  exact ⟨c, hc, rfl, c.recognise_eq_some_iff.mp hfound⟩

theorem forms_of_first? (he : e.matchers ⊆ cs.map Construct.matcher) {before : Option Token}
    {span rest : List Token} {m : Matcher} {found : Match}
    (h : e.first? before (span ++ rest) = some (m, found)) (hlen : found.consumed = span.length) :
    ∃ c ∈ cs, m = c.matcher ∧ c.Forms before span rest found.node := by
  obtain ⟨c, hc, hm, span', rest', hsplit, hform, hlen'⟩ := exists_forms_of_first? he h
  have hl : span.length = span'.length := by omega
  obtain ⟨rfl, rfl⟩ := List.append_inj hsplit hl
  exact ⟨c, hc, hm, hform⟩

end Engine

theorem Construct.Forms.ne_nil {c : Construct} {before : Option Token} {span rest : List Token}
    {node : Node} (h : c.Forms before span rest node) : span ≠ [] := by
  cases h with
  | delimited => exact List.cons_ne_nil _ _
  | link parts => cases parts; exact List.cons_ne_nil _ _
  | image => exact List.cons_ne_nil _ _
  | tag => exact List.cons_ne_nil _ _

/-! ### Readings -/

/-- The readings of tokens that follow `before`, with levels left for containers. A
token is read as text where nothing is found, and where a container is found for
which no level is left. -/
inductive Engine.Reads (e : Engine) : Nat → Option Token → List Token → List Node → Prop
  | done {levels : Nat} {before : Option Token} : Reads e levels before [] []
  | literal {levels : Nat} {before : Option Token} {t : Token} {ts : List Token} {ns : List Node}
      (nothing : e.first? before (t :: ts) = none) (next : Reads e levels (some t) ts ns) :
      Reads e levels before (t :: ts) (.text t.value :: ns)
  | refused {before : Option Token} {t : Token} {ts : List Token} {ns : List Node} {m : Matcher}
      {found : Match} (first : e.first? before (t :: ts) = some (m, found))
      (box : found.node.isContainer = true) (next : Reads e 0 (some t) ts ns) :
      Reads e 0 before (t :: ts) (.text t.value :: ns)
  | leaf {levels : Nat} {before : Option Token} {ts span rest : List Token} {ns : List Node}
      {m : Matcher} {found : Match} (split : ts = span ++ rest)
      (first : e.first? before ts = some (m, found)) (covers : found.consumed = span.length)
      (plain : found.node.isContainer = false) (next : Reads e levels span.getLast? rest ns) :
      Reads e levels before ts (found.node :: ns)
  | container {levels : Nat} {before : Option Token} {ts span rest content : List Token}
      {kind : ContainerKind} {inner children ns : List Node} {m : Matcher} {consumed : Int}
      (split : ts = span ++ rest)
      (first : e.first? before ts = some (m, ⟨.container kind content inner, consumed⟩))
      (covers : consumed = span.length) (nested : Reads e levels before content children)
      (next : Reads e (levels + 1) span.getLast? rest ns) :
      Reads e (levels + 1) before ts (.container kind content (e.finish children) :: ns)

namespace Engine

variable {e : Engine} {cs : List Construct}

theorem first?_nil (he : e.matchers ⊆ cs.map Construct.matcher) (before : Option Token) :
    e.first? before [] = none := by
  cases h : e.first? before [] with
  | none => rfl
  | some found =>
    obtain ⟨m, found⟩ := found
    obtain ⟨c, -, -, span, rest, hsplit, hform, -⟩ := exists_forms_of_first? he h
    exact absurd (List.append_eq_nil_iff.mp hsplit.symm).1 hform.ne_nil

/-- There is one reading at most: the first match is one, and it says how many
tokens the span has. -/
theorem Reads.unique (he : e.matchers ⊆ cs.map Construct.matcher) {levels : Nat}
    {before : Option Token} {ts : List Token} {ns ns' : List Node}
    (h : e.Reads levels before ts ns) (h' : e.Reads levels before ts ns') : ns = ns' := by
  induction h generalizing ns' with
  | done =>
    cases h' with
    | done => rfl
    | leaf _ first' => simp [first?_nil he] at first'
    | container _ first' => simp [first?_nil he] at first'
  | literal nothing _ ih =>
    cases h' with
    | literal _ next' => rw [ih next']
    | refused first' => simp [nothing] at first'
    | leaf _ first' => simp [nothing] at first'
    | container _ first' => simp [nothing] at first'
  | refused first box _ ih =>
    cases h' with
    | literal nothing' => simp [first] at nothing'
    | refused _ _ next' => rw [ih next']
    | leaf _ first' _ plain' =>
      obtain ⟨rfl, rfl⟩ := Prod.mk.inj (Option.some.inj (first.symm.trans first'))
      simp [box] at plain'
  | leaf split first covers plain _ ih =>
    cases h' with
    | done => simp [first?_nil he] at first
    | literal nothing' => simp [first] at nothing'
    | refused first' box' =>
      obtain ⟨rfl, rfl⟩ := Prod.mk.inj (Option.some.inj (first.symm.trans first'))
      simp [plain] at box'
    | leaf split' first' covers' _ next' =>
      obtain ⟨rfl, rfl⟩ := Prod.mk.inj (Option.some.inj (first.symm.trans first'))
      obtain ⟨rfl, rfl⟩ := List.append_inj (split.symm.trans split') (by omega)
      rw [ih next']
    | container _ first' =>
      obtain ⟨rfl, rfl⟩ := Prod.mk.inj (Option.some.inj (first.symm.trans first'))
      simp [Node.isContainer] at plain
  | container split first covers _ _ ihNested ihNext =>
    cases h' with
    | done => simp [first?_nil he] at first
    | literal nothing' => simp [first] at nothing'
    | leaf _ first' _ plain' =>
      obtain ⟨rfl, rfl⟩ := Prod.mk.inj (Option.some.inj (first.symm.trans first'))
      simp [Node.isContainer] at plain'
    | container split' first' covers' nested' next' =>
      obtain ⟨rfl, hfound⟩ := Prod.mk.inj (Option.some.inj (first.symm.trans first'))
      cases hfound
      obtain ⟨rfl, rfl⟩ := List.append_inj (split.symm.trans split') (by omega)
      rw [ihNested nested', ihNext next']

/-! ### Passes -/

theorem result_andThen_of_ok {α β : Type} {o : Outcome α} {a : α} (f : α → Outcome β)
    (h : o.result = .ok a) : (o.andThen f).result = (f a).result := by
  rw [Outcome.andThen, h]

theorem result_map_of_ok {α β : Type} {o : Outcome α} {a : α} (f : α → β)
    (h : o.result = .ok a) : (o.map f).result = .ok (f a) := by
  rw [Outcome.map, h]
  rfl

theorem walk_covered (nested : Nested) (seq : TokenSeq) : ∀ (covered p : Nat) (ts : List Token),
    e.walk nested seq p covered ts = e.walk nested seq (p + covered) 0 (ts.drop covered)
  | 0, _, _ => rfl
  | _ + 1, _, [] => by simp [walk]
  | covered + 1, p, t :: ts => by
    rw [walk, walk_covered nested seq covered (p + 1) ts, List.drop_succ_cons]
    congr 1
    omega

theorem precedes_behind {before : Option Token} {ts span rest : List Token} {p : Nat}
    (hts : ts.drop p = span ++ rest) (hne : span ≠ []) :
    precedes before ts (p + span.length) = span.getLast? := by
  obtain ⟨n, hn⟩ := Nat.exists_eq_succ_of_ne_zero (mt List.length_eq_zero_iff.mp hne)
  rw [hn, Nat.add_succ, precedes, ← List.getElem?_drop, hts, List.getElem?_append_left (by omega),
    List.getLast?_eq_getElem?, hn, Nat.succ_sub_one]

theorem drop_behind_span {ts span rest : List Token} {p : Nat} (hts : ts.drop p = span ++ rest) :
    ts.drop (p + span.length) = rest := by
  rw [← List.drop_drop, hts, List.drop_left]

/-! What a step answers, by what is found. -/

section Step

variable {nested : Nested} {seq : TokenSeq} {p : Nat} {m : Matcher}

theorem step_of_none (h : firstMatch? e.matchers (.indexed seq) p = none) :
    (e.step nested seq p).result = .ok none := by
  rw [step, h]
  rfl

theorem step_of_plain {found : Match} (h : firstMatch? e.matchers (.indexed seq) p = some (m, found))
    (hpos : 1 ≤ found.consumed) (plain : found.node.isContainer = false) :
    (e.step nested seq p).result = .ok (some found) := by
  obtain ⟨node, consumed⟩ := found
  have hlt : ¬ consumed < 1 := by simpa using hpos
  cases node with
  | container => cases plain
  | _ => simp [step, h, hlt, Outcome.done]

theorem step_of_refused {kind : ContainerKind} {content : List Token} {inner : List Node}
    {consumed : Int}
    (h : firstMatch? e.matchers (.indexed seq) p = some (m, ⟨.container kind content inner, consumed⟩))
    (hpos : 1 ≤ consumed) : (e.step none seq p).result = .ok none := by
  have hlt : ¬ consumed < 1 := by omega
  simp [step, h, hlt]

theorem step_of_container {parse : TokenSeq → Outcome (List Node)} {kind : ContainerKind}
    {content : List Token} {inner children : List Node} {consumed : Int}
    (h : firstMatch? e.matchers (.indexed seq) p = some (m, ⟨.container kind content inner, consumed⟩))
    (hpos : 1 ≤ consumed)
    (hparse : (parse (TokenSeq.ofList content
      (TokenView.tokenBefore? (.indexed seq) p))).result = .ok children) :
    (e.step (some parse) seq p).result = .ok (some ⟨.container kind content children, consumed⟩) := by
  have hlt : ¬ consumed < 1 := by omega
  simp [step, h, hlt, result_map_of_ok _ hparse]

end Step

/-- What parses the content of containers: nothing at the last level, and above it
what parses by readings with one level less. -/
def Serves (e : Engine) : Nat → Nested → Prop
  | 0, nested => nested = none
  | levels + 1, nested => ∃ parse, nested = some parse ∧ ∀ before content, ∃ children,
      e.Reads levels before content children ∧
        (parse (TokenSeq.ofList content before)).result = .ok (e.finish children)

/-- The walk from a position on gives the nodes of a reading of the tokens from there. -/
def WalkReads (e : Engine) (levels : Nat) (nested : Nested) (before : Option Token)
    (ts : List Token) (p : Nat) : Prop :=
  ∃ ns, e.Reads levels (precedes before ts p) (ts.drop p) ns ∧
    (e.walk nested (TokenSeq.ofList ts before) p 0 (ts.drop p)).result = .ok ns

section Walk

variable {levels : Nat} {nested : Nested} {before : Option Token} {ts : List Token} {p : Nat}

theorem WalkReads.text {t : Token} {after : List Token} (hd : ts.drop p = t :: after)
    (hstep : (e.step nested (TokenSeq.ofList ts before) p).result = .ok none)
    (hreads : ∀ ns, e.Reads levels (some t) after ns →
      e.Reads levels (precedes before ts p) (t :: after) (.text t.value :: ns))
    (h : e.WalkReads levels nested before ts (p + 1)) : e.WalkReads levels nested before ts p := by
  have hafter : ts.drop (p + 1) = after := drop_succ_of_drop_eq hd
  have hprec : precedes before ts (p + 1) = some t := by
    rw [precedes, ← List.head?_drop, hd, List.head?_cons]
  obtain ⟨ns, hnext, hwalk⟩ := h
  rw [hprec, hafter] at hnext
  rw [hafter] at hwalk
  refine ⟨.text t.value :: ns, ?_, ?_⟩
  · rw [hd]
    exact hreads ns hnext
  · rw [hd, walk, result_andThen_of_ok _ hstep]
    exact result_map_of_ok _ hwalk

theorem WalkReads.node {span rest : List Token} {n : Node} (hd : ts.drop p = span ++ rest)
    (hne : span ≠ [])
    (hstep : (e.step nested (TokenSeq.ofList ts before) p).result = .ok (some ⟨n, span.length⟩))
    (hreads : ∀ ns, e.Reads levels span.getLast? rest ns →
      e.Reads levels (precedes before ts p) (span ++ rest) (n :: ns))
    (h : e.WalkReads levels nested before ts (p + span.length)) :
    e.WalkReads levels nested before ts p := by
  obtain ⟨ns, hnext, hwalk⟩ := h
  rw [precedes_behind hd hne, drop_behind_span hd] at hnext
  rw [drop_behind_span hd] at hwalk
  refine ⟨n :: ns, ?_, ?_⟩
  · rw [hd]
    exact hreads ns hnext
  · obtain ⟨t, tail, rfl⟩ := List.exists_cons_of_ne_nil hne
    have hcovered : ((t :: tail).length : Int).toNat - 1 = tail.length := by simp
    have hposition : p + 1 + tail.length = p + (t :: tail).length := by
      rw [List.length_cons]
      omega
    rw [hd, List.cons_append, walk, result_andThen_of_ok _ hstep]
    refine result_map_of_ok _ ?_
    rw [hcovered, walk_covered, hposition, List.drop_left]
    exact hwalk

/-- **A walk over the tokens from a position on reads them.** The induction is on the
tokens left. -/
theorem walkReads (he : e.matchers ⊆ cs.map Construct.matcher) (hn : e.Serves levels nested)
    (before : Option Token) (ts : List Token) (p : Nat) :
    e.WalkReads levels nested before ts p := by
  induction hl : (ts.drop p).length using Nat.strongRecOn generalizing p with
  | ind n ih =>
  cases hd : ts.drop p with
  | nil => exact ⟨[], hd ▸ .done, hd ▸ rfl⟩
  | cons t after =>
    have hlen : (ts.drop p).length = after.length + 1 := by rw [hd, List.length_cons]
    have hnext : e.WalkReads levels nested before ts (p + 1) := by
      refine ih _ ?_ (p + 1) rfl
      rw [List.length_drop] at hlen hl ⊢
      omega
    have hfirst := firstMatch?_eq_first? he ts before p
    rw [hd] at hfirst
    cases hf : e.first? (precedes before ts p) (t :: after) with
    | none => exact hnext.text hd (step_of_none (hfirst.trans hf)) fun _ => .literal hf
    | some mf =>
      obtain ⟨m, node, consumed⟩ := mf
      obtain ⟨c, -, -, span, rest, hsplit, hform, hcovers⟩ := exists_forms_of_first? he hf
      obtain rfl : consumed = span.length := hcovers
      have hspan : 1 ≤ span.length := List.length_pos_iff.mpr hform.ne_nil
      have hpos : (1 : Int) ≤ span.length := by omega
      have hseq := hfirst.trans hf
      have hbehind : e.WalkReads levels nested before ts (p + span.length) := by
        refine ih _ ?_ (p + span.length) rfl
        rw [List.length_drop] at hlen hl ⊢
        omega
      have hsplit' : ts.drop p = span ++ rest := hd.trans hsplit
      rw [hsplit] at hf
      cases hbox : node.isContainer with
      | false =>
        exact hbehind.node hsplit' hform.ne_nil (step_of_plain hseq hpos hbox)
          fun _ => .leaf rfl hf rfl hbox
      | true =>
        cases node with
        | container kind content inner =>
          cases levels with
          | zero =>
            obtain rfl := hn
            rw [← hsplit] at hf
            exact hnext.text hd (step_of_refused hseq hpos) fun _ => .refused hf hbox
          | succ levels =>
            obtain ⟨parse, rfl, hparse⟩ := hn
            obtain ⟨children, hnested, hresult⟩ := hparse (precedes before ts p) content
            rw [← (TokenView.shows_ofList ts before).tokenBefore?] at hresult
            exact hbehind.node hsplit' hform.ne_nil (step_of_container hseq hpos hresult)
              fun _ => .container rfl hf rfl hnested
        | _ => cases hbox

end Walk

/-- **Every pass succeeds, and is a reading.** -/
theorem exists_reads (he : e.matchers ⊆ cs.map Construct.matcher) : ∀ (levels : Nat)
    (before : Option Token) (ts : List Token), ∃ ns, e.Reads levels before ts ns ∧
      (e.pass levels (TokenSeq.ofList ts before)).result = .ok (e.finish ns)
  | 0, before, ts => by
    have hserves : e.Serves 0 none := rfl
    obtain ⟨ns, hreads, hwalk⟩ := walkReads he hserves before ts 0
    refine ⟨ns, hreads, ?_⟩
    rw [pass]
    exact result_map_of_ok _ hwalk
  | levels + 1, before, ts => by
    have hserves : e.Serves (levels + 1) (some (e.pass levels)) :=
      ⟨_, rfl, exists_reads he levels⟩
    obtain ⟨ns, hreads, hwalk⟩ := walkReads he hserves before ts 0
    refine ⟨ns, hreads, ?_⟩
    rw [pass]
    exact result_map_of_ok _ hwalk

theorem pass_eq_ok_iff (he : e.matchers ⊆ cs.map Construct.matcher) {levels : Nat}
    {before : Option Token} {ts : List Token} {nodes : List Node} :
    (e.pass levels (TokenSeq.ofList ts before)).result = .ok nodes ↔
      ∃ ns, e.Reads levels before ts ns ∧ nodes = e.finish ns := by
  obtain ⟨ns, hreads, hpass⟩ := exists_reads he levels before ts
  constructor
  · intro h
    exact ⟨ns, hreads, Except.ok.inj (h.symm.trans hpass)⟩
  · rintro ⟨ns', hreads', rfl⟩
    rw [hreads'.unique he hreads, hpass]

theorem parse_eq_ok_iff (he : e.matchers ⊆ cs.map Construct.matcher) {ts : List Token}
    {nodes : List Node} : (e.parse ts).result = .ok nodes ↔
      ∃ ns, e.Reads e.limit none ts ns ∧ nodes = e.finish ns :=
  pass_eq_ok_iff he

end Engine

end InlineMarkup
