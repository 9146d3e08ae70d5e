/-
# Coalescing comes last

An engine that merges texts makes of any tokens what the engine with the same matchers and
the same limit makes of them without merging, with the runs of neighbouring texts joined
afterwards: first inside the containers, then at the top (`condense`). Whatever the
matchers are, the two report the same events and fail with the same fault
(`Engine.pass_condense`).

The result is canonical: no two neighbours are both texts, at any depth
(`separated_of_mem_condense`). Joined texts read the same: plain text, markup and tags are
those of the nodes before (`plainText_condense`, `markup_condense`, `tagsOf_condense`).

Key definitions: `joinRuns`, `condense`, `Separated`.
Key theorems: `mergeTexts_eq_joinRuns`, `IgnoresJoins.condense`, `Engine.pass_condense`,
`parse_coalesced`.
-/
import Mathlib.Data.List.SplitBy
import InlineMarkup.Proofs.Comparison
import InlineMarkup.Proofs.Levels
import InlineMarkup.Proofs.Lists
import InlineMarkup.Proofs.Losslessness

namespace InlineMarkup

/-! ### Runs of texts -/

/-- Whether a node is a text. -/
def Node.isText : Node → Bool
  | .text _ => true
  | _ => false

/-- The content of a text. -/
def Node.text? : Node → Option String
  | .text content => some content
  | _ => none

/-- Whether two nodes are both texts. -/
def bothTexts (n m : Node) : Bool :=
  n.isText && m.isText

/-- A run of texts as one text. Nodes without a text among them are left as they are. -/
def joinRun (run : List Node) : List Node :=
  match run.filterMap Node.text? with
  | [] => run
  | contents => [.text (String.join contents)]

/-- The nodes with each maximal run of neighbouring texts as one text of their contents. -/
def joinRuns (nodes : List Node) : List Node :=
  (nodes.splitBy bothTexts).flatMap joinRun

/-- No two neighbours are both texts. -/
def Separated (nodes : List Node) : Prop :=
  nodes.IsChain fun n m => bothTexts n m = false

theorem Node.isText_eq_false_iff {n : Node} : n.isText = false ↔ ∀ s, n ≠ .text s := by
  cases n <;> simp [Node.isText]

theorem joinRun_texts {contents : List String} (h : contents ≠ []) :
    joinRun (contents.map .text) = [.text (String.join contents)] := by
  have hcontents : (contents.map Node.text).filterMap Node.text? = contents := by
    rw [List.filterMap_map]
    exact List.filterMap_some
  obtain ⟨s, rest, rfl⟩ := List.exists_cons_of_ne_nil h
  rw [joinRun, hcontents]

theorem joinRun_singleton {n : Node} (h : ∀ s, n ≠ .text s) : joinRun [n] = [n] := by
  cases n with
  | text s => exact absurd rfl (h s)
  | _ => rfl

/-- A run in which any two neighbours are texts is of texts alone, or it is one node. -/
theorem run_cases {run : List Node} (hne : run ≠ []) (h : run.IsChain fun n m => bothTexts n m) :
    (∃ n, run = [n] ∧ ∀ s, n ≠ .text s) ∨ ∃ contents, contents ≠ [] ∧ run = contents.map .text := by
  induction run with
  | nil => exact absurd rfl hne
  | cons n run ih =>
    rcases n.text_cases with ⟨s, rfl⟩ | hother
    · right
      rcases run with _ | ⟨m, run⟩
      · exact ⟨[s], List.cons_ne_nil _ _, rfl⟩
      · obtain ⟨hpair, hrun⟩ := List.isChain_cons_cons.mp h
        rcases ih (List.cons_ne_nil _ _) hrun with ⟨_, hm, hother⟩ | ⟨contents, -, hcontents⟩
        · obtain ⟨rfl, -⟩ := List.cons.inj hm
          rw [bothTexts, Node.isText_eq_false_iff.mpr hother, Bool.and_false] at hpair
          cases hpair
        · exact ⟨s :: contents, List.cons_ne_nil _ _, by rw [hcontents, List.map_cons]⟩
    · left
      rcases run with _ | ⟨m, run⟩
      · exact ⟨n, rfl, hother⟩
      · have hpair := (List.isChain_cons_cons.mp h).1
        rw [bothTexts, Node.isText_eq_false_iff.mpr hother, Bool.false_and] at hpair
        cases hpair

theorem mergeText_of_head {s : String} {rest : List Node} (h : ∀ m ∈ rest.head?, m.isText = false) :
    mergeText s (mergeTexts rest) = .text s :: mergeTexts rest := by
  rcases rest with _ | ⟨m, rest⟩
  · rfl
  · have hm := Node.isText_eq_false_iff.mp (h m rfl)
    rw [mergeTexts_cons hm, mergeText_cons hm]

theorem mergeTexts_run {run rest : List Node} (hne : run ≠ [])
    (hrun : run.IsChain fun n m => bothTexts n m)
    (hrest : ∀ n ∈ run.getLast?, ∀ m ∈ rest.head?, bothTexts n m = false) :
    mergeTexts (run ++ rest) = joinRun run ++ mergeTexts rest := by
  rcases run_cases hne hrun with ⟨n, rfl, hn⟩ | ⟨contents, hcontents, rfl⟩
  · rw [List.singleton_append, mergeTexts_cons hn, joinRun_singleton hn, List.singleton_append]
  · have hlast : (contents.map Node.text).getLast? = some (.text (contents.getLast hcontents)) := by
      rw [List.getLast?_map, List.getLast?_eq_getLast_of_ne_nil hcontents, Option.map_some]
    have hhead : ∀ m ∈ rest.head?, m.isText = false := fun m hm => hrest _ hlast m hm
    rw [← mergeTexts_append_left, mergeTexts_texts hcontents, List.singleton_append, mergeTexts,
      mergeText_of_head hhead, joinRun_texts hcontents, List.singleton_append]

/-- **To merge neighbouring texts is to join each maximal run of texts.** The induction is on
the runs. -/
theorem mergeTexts_eq_joinRuns (nodes : List Node) : mergeTexts nodes = joinRuns nodes := by
  suffices h : ∀ runs : List (List Node), [] ∉ runs →
      (∀ run ∈ runs, run.IsChain fun n m => bothTexts n m) →
      (runs.IsChain fun a b => ∃ ha hb, bothTexts (a.getLast ha) (b.head hb) = false) →
      mergeTexts runs.flatten = runs.flatMap joinRun by
    have hruns := List.splitBy_eq_iff.mp (rfl : nodes.splitBy bothTexts = _)
    have hjoin := h _ hruns.2.1 hruns.2.2.1 hruns.2.2.2
    rwa [List.flatten_splitBy] at hjoin
  intro runs
  induction runs with
  | nil => exact fun _ _ _ => rfl
  | cons run runs ih =>
    intro hnil hchains hapart
    obtain ⟨hne, hnil⟩ := not_or.mp (mt List.mem_cons.mpr hnil)
    obtain ⟨hrun, hchains⟩ := List.forall_mem_cons.mp hchains
    have hrest : ∀ n ∈ run.getLast?, ∀ m ∈ runs.flatten.head?, bothTexts n m = false := by
      intro n hn m hm
      rcases runs with _ | ⟨next, runs⟩
      · cases hm
      · obtain ⟨hlast, hhead, hpair⟩ := (List.isChain_cons_cons.mp hapart).1
        rw [List.getLast?_eq_getLast_of_ne_nil hlast, Option.mem_some_iff] at hn
        rw [List.flatten_cons, List.head?_append_of_ne_nil _ hhead, List.head?_eq_some_head hhead,
          Option.mem_some_iff] at hm
        rw [← hn, ← hm]
        exact hpair
    rw [List.flatten_cons, List.flatMap_cons, mergeTexts_run (Ne.symm hne) hrun hrest,
      ih hnil hchains hapart.tail]

theorem separated_mergeTexts (nodes : List Node) : Separated (mergeTexts nodes) := by
  induction nodes with
  | nil => exact .nil
  | cons n ns ih =>
    rcases n.text_cases with ⟨s, rfl⟩ | hother
    · rw [mergeTexts]
      rcases hm : mergeTexts ns with _ | ⟨m, rest⟩
      · exact .singleton _
      · rw [hm] at ih
        cases m with
        | text s' =>
          -- the joined text has the neighbour that the text behind had
          rcases rest with _ | ⟨m', rest⟩
          · exact .singleton _
          · exact .cons_cons (List.isChain_cons_cons.mp ih).1 (List.isChain_cons_cons.mp ih).2
        | _ => exact .cons_cons rfl ih
    · rw [mergeTexts_cons hother]
      refine List.isChain_cons.mpr ⟨fun m _ => ?_, ih⟩
      rw [bothTexts, Node.isText_eq_false_iff.mpr hother, Bool.false_and]

/-! ### Texts joined at all depths -/

mutual

/-- The node with the texts below it joined, from the bottom up. -/
def Node.condensed : Node → Node
  | .container kind content children =>
    .container kind content (joinRuns (Node.condensedEach children))
  | n => n

/-- The nodes with the texts below each of them joined. -/
def Node.condensedEach : List Node → List Node
  | [] => []
  | n :: ns => n.condensed :: Node.condensedEach ns

end

/-- The nodes with texts joined: inside the containers, from the bottom up, and then at the
top. -/
def condense (nodes : List Node) : List Node :=
  joinRuns (Node.condensedEach nodes)

theorem condensedEach_eq_map (ns : List Node) :
    Node.condensedEach ns = ns.map Node.condensed := by
  induction ns with
  | nil => rfl
  | cons n ns ih => rw [Node.condensedEach, ih, List.map_cons]

theorem separated_condense (nodes : List Node) : Separated (condense nodes) := by
  rw [condense, ← mergeTexts_eq_joinRuns]
  exact separated_mergeTexts _

theorem separated_children_of_each {ns : List Node}
    (h : ∀ n ∈ ns, ∀ m ∈ n.condensed.preorder, Separated m.children) :
    ∀ m ∈ preorderAll (condense ns), Separated m.children := by
  rw [condense, ← mergeTexts_eq_joinRuns]
  refine forall_preorderAll_mergeTexts (fun s => .nil) ?_
  rw [preorderAll_eq_flatMap, condensedEach_eq_map, List.flatMap_map, List.forall_mem_flatMap]
  exact h

theorem Node.separated_condensed (n : Node) :
    ∀ m ∈ n.condensed.preorder, Separated m.children := by
  induction n using Node.induction with
  | container kind content children ih =>
    rw [Node.condensed, Node.preorder, List.forall_mem_cons]
    exact ⟨separated_condense children, separated_children_of_each ih⟩
  | _ =>
    simp only [Node.condensed, Node.preorder, List.forall_mem_singleton, Node.children]
    exact .nil

/-- **No two neighbours are both texts** at any depth of condensed nodes. -/
theorem separated_of_mem_condense (nodes : List Node) :
    ∀ n ∈ preorderAll (condense nodes), Separated n.children :=
  separated_children_of_each fun n _ => n.separated_condensed

/-! ### What condensed nodes read -/

/-- What merging does not change is the same of condensed nodes, if it is when one of them is
condensed by itself. -/
theorem IgnoresJoins.condense {α : Type} {f : List Node → α} (hf : IgnoresJoins f) {ns : List Node}
    (h : ∀ n ∈ ns, ∀ ms, f (n.condensed :: ms) = f (n :: ms)) : f (condense ns) = f ns := by
  rw [InlineMarkup.condense, ← mergeTexts_eq_joinRuns, hf.mergeTexts]
  induction ns with
  | nil => rfl
  | cons n ns ih =>
    obtain ⟨hn, hns⟩ := List.forall_mem_cons.mp h
    calc f (n.condensed :: Node.condensedEach ns) = f (n :: Node.condensedEach ns) := hn _
      _ = f (n :: ns) := hf.cons n (ih hns)

theorem ignoresJoins_plainTextAll : IgnoresJoins Node.plainTextAll where
  cons n ns ms h := by rw [Node.plainTextAll, Node.plainTextAll, h]
  joined a b ns := by simp [Node.plainTextAll, Node.plainText, String.append_assoc]

theorem ignoresJoins_tagNames : IgnoresJoins tagNames where
  cons n ns ms h := by rw [tagNames_cons, tagNames_cons, h]
  joined a b ns := by
    rw [tagNames_cons, tagNames_cons, tagNames_cons]
    rfl

theorem Node.plainText_condensed (n : Node) : n.condensed.plainText = n.plainText := by
  induction n using Node.induction with
  | container kind content children ih =>
    rw [Node.condensed, Node.plainText, Node.plainText]
    exact ignoresJoins_plainTextAll.condense fun n hn ms => by
      rw [Node.plainTextAll, Node.plainTextAll, ih n hn]
  | _ => rfl

theorem plainText_condense (nodes : List Node) : plainText (condense nodes) = plainText nodes :=
  ignoresJoins_plainTextAll.condense fun n _ ms => by
    rw [Node.plainTextAll, Node.plainTextAll, n.plainText_condensed]

theorem isEmpty_condense (ns : List Node) : (condense ns).isEmpty = ns.isEmpty := by
  rw [condense, ← mergeTexts_eq_joinRuns]
  cases ns with
  | nil => rfl
  | cons n ns =>
    rw [Node.condensedEach, List.isEmpty_eq_false_iff.mpr (mergeTexts_ne_nil (List.cons_ne_nil _ _))]
    rfl

/-- A container keeps its markup: it is still written from its children, or, when it has
none, from its content. -/
theorem Node.markup_condensed (n : Node) : n.condensed.markup = n.markup := by
  induction n using Node.induction with
  | container kind content children ih =>
    have hmarkup : Node.markupAll (condense children) = Node.markupAll children :=
      ignoresJoins_markupAll.condense fun n hn ms => by
        rw [Node.markupAll, Node.markupAll, ih n hn]
    have hempty := isEmpty_condense children
    rw [condense] at hempty hmarkup
    rw [Node.condensed, Node.markup, Node.markup, hempty, hmarkup]
  | _ => rfl

/-- The markup of condensed nodes is that of the nodes, and where these have none, neither
have those. -/
theorem markup_condense (nodes : List Node) : markup (condense nodes) = markup nodes :=
  ignoresJoins_markupAll.condense fun n _ ms => by
    rw [Node.markupAll, Node.markupAll, n.markup_condensed]

theorem Node.tags_condensed (n : Node) :
    n.condensed.preorder.filterMap Node.tag? = n.preorder.filterMap Node.tag? := by
  induction n using Node.induction with
  | container kind content children ih =>
    have hnames : tagNames (condense children) = tagNames children :=
      ignoresJoins_tagNames.condense fun n hn ms => by rw [tagNames_cons, tagNames_cons, ih n hn]
    exact hnames
  | _ => rfl

theorem tagsOf_condense (nodes : List Node) : tagsOf (condense nodes) = tagsOf nodes := by
  have hnames : tagNames (condense nodes) = tagNames nodes :=
    ignoresJoins_tagNames.condense fun n _ ms => by
      rw [tagNames_cons, tagNames_cons, n.tags_condensed]
  rw [tagsOf_eq, tagsOf_eq, hnames]

/-! ### Runs of the two engines -/

namespace Outcome

variable {α β γ : Type}

theorem map_map (o : Outcome α) (f : α → β) (g : β → γ) :
    (o.map f).map g = o.map fun a => g (f a) := by
  unfold map
  cases o.result <;> rfl

theorem andThen_map (o : Outcome α) (f : α → Outcome β) (g : β → γ) :
    (o.andThen f).map g = o.andThen fun a => (f a).map g := by
  unfold andThen
  cases o.result <;> rfl

theorem map_andThen (o : Outcome α) (f : α → β) (g : β → Outcome γ) :
    (o.map f).andThen g = o.andThen fun a => g (f a) := by
  unfold map andThen
  cases o.result <;> rfl

end Outcome

/-- The match with the texts below its node joined. -/
def Match.condensed (m : Match) : Match :=
  { m with node := m.node.condensed }

namespace Engine

variable {ms : List Matcher} {limit : Nat}

/-- What parses content, with texts joined afterwards. -/
def condensing (nested : Nested) : Nested :=
  nested.map fun parse seq => (parse seq).map condense

/-- A step that finds the content of containers condensed finds a condensed node. -/
theorem step_condensing (nested : Nested) (seq : TokenSeq) (p : Nat) :
    step ⟨ms, limit, true⟩ (condensing nested) seq p =
      (step ⟨ms, limit, false⟩ nested seq p).map (Option.map Match.condensed) := by
  unfold step
  cases hf : firstMatch? ms (.indexed seq) p with
  | none => rfl
  | some found =>
    obtain ⟨m, node, consumed⟩ := found
    by_cases hlt : consumed < 1
    · simp only [if_pos hlt]
      rfl
    · simp only [if_neg hlt]
      cases node with
      | container kind content inner =>
        cases nested with
        | none => rfl
        | some parse =>
          simp only [condensing, Option.map_some, Outcome.map_map]
          rfl
      | _ => rfl

theorem walk_condensing (nested : Nested) (seq : TokenSeq) : ∀ (p covered : Nat) (ts : List Token),
    walk ⟨ms, limit, true⟩ (condensing nested) seq p covered ts =
      (walk ⟨ms, limit, false⟩ nested seq p covered ts).map Node.condensedEach
  | _, _, [] => by
    rw [walk, walk]
    rfl
  | p, covered + 1, _ :: ts => by
    rw [walk, walk, walk_condensing nested seq (p + 1) covered ts]
  | p, 0, t :: ts => by
    rw [walk, walk, step_condensing, Outcome.map_andThen, Outcome.andThen_map]
    congr 1
    funext found
    cases found with
    | none =>
      simp only [Option.map_none, walk_condensing nested seq (p + 1) 0 ts, Outcome.map_map]
      rfl
    | some found =>
      simp only [Option.map_some, Match.condensed,
        walk_condensing nested seq (p + 1) (found.consumed.toNat - 1) ts, Outcome.map_map]
      rfl

/-- **A pass that merges texts is the pass that does not, condensed afterwards.** The
induction is on the levels: the content of containers is condensed before the level above
it is. -/
theorem pass_condense (levels : Nat) (seq : TokenSeq) :
    pass ⟨ms, limit, true⟩ levels seq = (pass ⟨ms, limit, false⟩ levels seq).map condense := by
  have hfinish : ∀ o : Outcome (List Node),
      (o.map Node.condensedEach).map (finish ⟨ms, limit, true⟩) =
        (o.map (finish ⟨ms, limit, false⟩)).map condense := by
    intro o
    rw [Outcome.map_map, Outcome.map_map]
    congr 1
    funext nodes
    exact mergeTexts_eq_joinRuns _
  induction levels generalizing seq with
  | zero =>
    rw [pass, pass, ← hfinish, ← walk_condensing]
    rfl
  | succ levels ih =>
    have hnested : some (pass ⟨ms, limit, true⟩ levels) =
        condensing (some (pass ⟨ms, limit, false⟩ levels)) :=
      congrArg some (funext ih)
    rw [pass, pass, ← hfinish, ← walk_condensing, hnested]

end Engine

/-- **Coalescing comes last and is canonical.** With any matchers the engine that merges texts
makes the nodes of the engine without merging, each maximal run of texts joined at all depths.
Events and faults are the same, and so are plain text, markup and tags. -/
theorem parse_coalesced (ms : List Matcher) (limit : Nat) (ts : List Token) :
    (Engine.parse ⟨ms, limit, true⟩ ts).events = (Engine.parse ⟨ms, limit, false⟩ ts).events ∧
    (∀ fault, (Engine.parse ⟨ms, limit, true⟩ ts).result = .error fault ↔
      (Engine.parse ⟨ms, limit, false⟩ ts).result = .error fault) ∧
    ∀ nodes, (Engine.parse ⟨ms, limit, false⟩ ts).result = .ok nodes →
      (Engine.parse ⟨ms, limit, true⟩ ts).result = .ok (condense nodes) ∧
      Separated (condense nodes) ∧
      (∀ n ∈ preorderAll (condense nodes), Separated n.children) ∧
      plainText (condense nodes) = plainText nodes ∧
      markup (condense nodes) = markup nodes ∧
      tagsOf (condense nodes) = tagsOf nodes := by
  have hparse : Engine.parse ⟨ms, limit, true⟩ ts =
      (Engine.parse ⟨ms, limit, false⟩ ts).map condense :=
    Engine.pass_condense limit (TokenSeq.ofList ts)
  rw [hparse]
  refine ⟨rfl, fun fault => ?_, fun nodes hnodes => ?_⟩
  · rw [Outcome.map, map_eq_error_iff]
  · exact ⟨Engine.result_map_of_ok condense hnodes, separated_condense nodes,
      separated_of_mem_condense nodes, plainText_condense nodes, markup_condense nodes,
      tagsOf_condense nodes⟩

/-- A matcher of `!` that makes a text of its own. -/
def questioning : Fixed where
  name := "questioning"
  on := some .exclamation
  node := .text "?"
  consumed := 1

/-- Texts of a matcher are joined with those of the tokens around it, in bold text and
around it. -/
theorem parse_coalesced_bold :
    (Engine.parse ⟨[questioning.matcher, bold.matcher], 1, false⟩ (tokenize "a!**b!c**")).result =
      .ok [.text "a", .text "?", .container .bold ((tokenize "a!**b!c**").extract 3 6)
        [.text "b", .text "?", .text "c"]] ∧
    (Engine.parse ⟨[questioning.matcher, bold.matcher], 1, true⟩ (tokenize "a!**b!c**")).result =
      .ok [.text "a?", .container .bold ((tokenize "a!**b!c**").extract 3 6) [.text "b?c"]] := by
  have hplain : (Engine.parse ⟨[questioning.matcher, bold.matcher], 1, false⟩
      (tokenize "a!**b!c**")).result =
        .ok [.text "a", .text "?", .container .bold ((tokenize "a!**b!c**").extract 3 6)
          [.text "b", .text "?", .text "c"]] := rfl
  exact ⟨hplain, ((parse_coalesced _ _ _).2.2 _ hplain).1⟩

end InlineMarkup
