/-
# The limit only affects what lies below it

Under a higher limit a run goes on into the content of containers that it would refuse
under a lower one. What it finds there stays below the lower limit: the levels above are
the same in both runs, whatever the matchers are, as long as neither run fails. A refused
container does move a run on by one token only, but on a level that is cut off anyway.

To compare the runs, nodes are cut off at a depth (`Node.trimAll`). A step of the one run
finds what the step of the other finds, up to the cut (`Engine.step_trim`); so do the runs
from any place on (`Engine.trimAll_nodesFrom`), by induction along the moves of the run
under the lower limit.

Key definitions: `Node.trim`, `Node.trimAll`.
Key theorems: `Node.at?_trim`, `Engine.step_trim`, `Engine.trimAll_nodesFrom`,
`parse_top_levels`.
-/
import InlineMarkup.Proofs.Restart

namespace InlineMarkup

/-! ### Nodes cut off at a depth -/

mutual

/-- A node with `levels` levels below it, and no more. -/
def Node.trim : Nat → Node → Node
  | levels, .container kind content children =>
    .container kind content (Node.trimAll levels children)
  | _, n => n

/-- Nodes in a row with the levels below them, `levels` levels in all. The containers on the
last of these have no children any more. -/
def Node.trimAll : Nat → List Node → List Node
  | 0, _ => []
  | _ + 1, [] => []
  | levels + 1, n :: ns => n.trim levels :: Node.trimAll (levels + 1) ns

end

theorem Node.trimAll_zero (ns : List Node) : Node.trimAll 0 ns = [] := by
  cases ns <;> rw [Node.trimAll]

theorem Node.trimAll_succ (levels : Nat) (ns : List Node) :
    Node.trimAll (levels + 1) ns = ns.map (Node.trim levels) := by
  induction ns with
  | nil => rfl
  | cons n ns ih => rw [Node.trimAll, ih, List.map_cons]

theorem Node.trimAll_cons {levels below : Nat} (hlevels : levels = below + 1) {n n' : Node}
    {ns ns' : List Node} (hn : n.trim below = n'.trim below)
    (hns : Node.trimAll levels ns = Node.trimAll levels ns') :
    Node.trimAll levels (n :: ns) = Node.trimAll levels (n' :: ns') := by
  subst hlevels
  rw [Node.trimAll, Node.trimAll, hn, hns]

theorem Node.trim_of_plain {n : Node} (h : n.isContainer = false) (levels : Nat) :
    n.trim levels = n := by
  cases n with
  | container => cases h
  | _ => rw [Node.trim]; exact fun _ _ _ => Node.noConfusion

theorem Node.children_trim (levels : Nat) (n : Node) :
    (n.trim levels).children = Node.trimAll levels n.children := by
  cases n with
  | container kind content children => rw [Node.trim, Node.children, Node.children]
  | _ =>
    rw [Node.trim_of_plain rfl, Node.children_of_plain rfl]
    cases levels <;> rfl

/-- What is left of a node alone does not depend on where it was cut off before. -/
theorem Node.trim_zero_trim (levels : Nat) (n : Node) : (n.trim levels).trim 0 = n.trim 0 := by
  cases n with
  | container kind content children => simp only [Node.trim, Node.trimAll_zero]
  | _ => rw [Node.trim_of_plain rfl levels]

theorem Node.at?_trim {path : List Nat} : ∀ {levels : Nat}, path.length ≤ levels → ∀ n : Node,
    (n.trim levels).at? path = (n.at? path).map (Node.trim (levels - path.length)) := by
  induction path with
  | nil => exact fun _ _ => rfl
  | cons k path ih =>
    intro levels hle n
    obtain ⟨rest, rfl⟩ := Nat.exists_eq_add_of_le' (Nat.le_trans (Nat.le_add_left 1 _) hle)
    have hrest : path.length ≤ rest := Nat.le_of_succ_le_succ hle
    rw [Node.at?, Node.at?, Node.children_trim, Node.trimAll_succ, List.getElem?_map,
      List.length_cons, Nat.add_sub_add_right]
    cases n.children[k]? with
    | none => rfl
    | some child => exact ih hrest child

theorem nodeAt?_trimAll {path : List Nat} {levels : Nat} (hle : path.length ≤ levels)
    (ns : List Node) : nodeAt? (Node.trimAll levels ns) path =
      (nodeAt? ns path).map (Node.trim (levels - path.length)) := by
  cases path with
  | nil => rfl
  | cons k path =>
    obtain ⟨rest, rfl⟩ := Nat.exists_eq_add_of_le' (Nat.le_trans (Nat.le_add_left 1 _) hle)
    have hrest : path.length ≤ rest := Nat.le_of_succ_le_succ hle
    rw [nodeAt?, nodeAt?, Node.trimAll_succ, List.getElem?_map, List.length_cons,
      Nat.add_sub_add_right]
    cases ns[k]? with
    | none => rfl
    | some n => exact Node.at?_trim hrest n

/-- Nodes that are equal where they are cut off have the same nodes, but for their children,
at every address that does not lead further down. -/
theorem nodeAt?_eq_of_trimAll_eq {levels : Nat} {ns ns' : List Node}
    (h : Node.trimAll levels ns = Node.trimAll levels ns') {path : List Nat}
    (hle : path.length ≤ levels) :
    (nodeAt? ns path).map (Node.trim 0) = (nodeAt? ns' path).map (Node.trim 0) := by
  have halone : ∀ ms : List Node, (nodeAt? ms path).map (Node.trim 0) =
      (nodeAt? (Node.trimAll levels ms) path).map (Node.trim 0) := by
    intro ms
    rw [nodeAt?_trimAll hle, Option.map_map]
    congr 1
    funext n
    exact (Node.trim_zero_trim _ n).symm
  rw [halone ns, h, halone ns']

/-! ### Texts merged behind the cut -/

theorem mapsTexts_trim (levels : Nat) : MapsTexts (Node.trim levels) id where
  text _ := rfl
  append _ _ := rfl
  other n hn a := by
    cases n with
    | text s => exact absurd rfl (hn s)
    | _ => exact Node.noConfusion

/-- It makes no difference whether texts are merged before or behind the cut. -/
theorem trimAll_finish (e : Engine) (levels : Nat) (ns : List Node) :
    Node.trimAll levels (e.finish ns) = e.finish (Node.trimAll levels ns) := by
  cases levels with
  | zero =>
    rw [Node.trimAll_zero, Node.trimAll_zero]
    exact (ite_self []).symm
  | succ levels =>
    rw [Node.trimAll_succ, Node.trimAll_succ]
    exact ((mapsTexts_trim levels).finish e ns).symm

/-! ### Runs under two limits -/

/-- The match with its node cut off at a depth. -/
def Match.trim (levels : Nat) (m : Match) : Match :=
  { m with node := m.node.trim levels }

/-- The same place with another number of levels left. -/
def Cursor.withLevels (c : Cursor) (levels : Nat) : Cursor :=
  { c with levels }

namespace Engine

variable {e e' : Engine}

/-- **Two steps find the same up to the cut**, if what they make of the content of a container
is the same up to the cut on the level below. -/
theorem step_trim (hmatchers : e'.matchers = e.matchers) {seq : TokenSeq} {p levels : Nat}
    {parse parse' : TokenSeq → Outcome (List Node)}
    (hbox : ∀ {m kind content inner consumed},
      firstMatch? e.matchers (.indexed seq) p = some (m, ⟨.container kind content inner, consumed⟩) →
      1 ≤ consumed → ∀ {children children'},
      (parse (TokenSeq.ofList content (TokenView.tokenBefore? (.indexed seq) p))).result =
        .ok children →
      (parse' (TokenSeq.ofList content (TokenView.tokenBefore? (.indexed seq) p))).result =
        .ok children' →
      Node.trimAll levels children = Node.trimAll levels children')
    {found found' : Option Match} (h : (e.step (some parse) seq p).result = .ok found)
    (h' : (e'.step (some parse') seq p).result = .ok found') :
    found.map (Match.trim levels) = found'.map (Match.trim levels) := by
  unfold step at h h'
  rw [hmatchers] at h'
  cases hfirst : firstMatch? e.matchers (.indexed seq) p with
  | none =>
    rw [hfirst] at h h'
    rw [← Except.ok.inj h, ← Except.ok.inj h']
  | some first =>
    obtain ⟨m, node, consumed⟩ := first
    rw [hfirst] at h h'
    by_cases hlt : consumed < 1
    · simp only [if_pos hlt] at h
      cases h
    · simp only [if_neg hlt] at h h'
      cases node with
      | container kind content inner =>
        obtain ⟨children, hchildren, rfl⟩ := map_eq_ok_iff.mp h
        obtain ⟨children', hchildren', rfl⟩ := map_eq_ok_iff.mp h'
        have hsame := hbox hfirst (Int.not_lt.mp hlt) hchildren hchildren'
        simp only [Option.map_some, Match.trim, Node.trim, hsame]
      | _ => rw [← Except.ok.inj h, ← Except.ok.inj h']

theorem trimAll_pass (hcoalesce : e'.coalesce = e.coalesce) {levels levels' : Nat}
    {before : Option Token} {ts : List Token}
    (hruns : ∀ {ns ns'}, (e.nodesFrom ⟨levels, before, ts, 0⟩).result = .ok ns →
      (e'.nodesFrom ⟨levels', before, ts, 0⟩).result = .ok ns' →
      Node.trimAll levels ns = Node.trimAll levels ns') {nodes nodes' : List Node}
    (h : (e.pass levels (TokenSeq.ofList ts before)).result = .ok nodes)
    (h' : (e'.pass levels' (TokenSeq.ofList ts before)).result = .ok nodes') :
    Node.trimAll levels nodes = Node.trimAll levels nodes' := by
  rw [pass_eq_nodesFrom] at h h'
  obtain ⟨ns, hns, rfl⟩ := map_eq_ok_iff.mp h
  obtain ⟨ns', hns', rfl⟩ := map_eq_ok_iff.mp h'
  have hfinish : e'.finish ns' = e.finish ns' := by rw [finish, finish, hcoalesce]
  rw [hfinish, trimAll_finish, trimAll_finish, hruns hns hns']

/-- **Runs under two limits are the same up to the lower one**, from any place on. The
induction is along the moves of the run with fewer levels left; the content of a container
is a place it moves to. -/
theorem trimAll_nodesFrom (hmatchers : e'.matchers = e.matchers)
    (hcoalesce : e'.coalesce = e.coalesce) (c : Cursor) : ∀ {levels' : Nat}, c.levels ≤ levels' →
      ∀ {ns ns' : List Node}, (e.nodesFrom c).result = .ok ns →
      (e'.nodesFrom (c.withLevels levels')).result = .ok ns' →
      Node.trimAll c.levels ns = Node.trimAll c.levels ns' := by
  induction c using e.wellFounded_moves.induction with
  | _ c ih =>
  intro levels' hle ns ns' h h'
  by_cases hzero : c.levels = 0
  · rw [hzero, Node.trimAll_zero, Node.trimAll_zero]
  by_cases hend : c.tokens.length ≤ c.position
  · rw [e.nodesFrom_of_end hend] at h
    rw [e'.nodesFrom_of_end (c := c.withLevels levels') hend] at h'
    rw [← Except.ok.inj h, ← Except.ok.inj h']
  have inside : c.position < c.tokens.length := Nat.lt_of_not_le hend
  have inside' : (c.withLevels levels').position < (c.withLevels levels').tokens.length := inside
  obtain ⟨levels, hlevels⟩ := Nat.exists_eq_succ_of_ne_zero hzero
  have hstep : ∀ {found found' : Option Match}, (e.stepAt c).result = .ok found →
      (e'.stepAt (c.withLevels levels')).result = .ok found' →
      found.map (Match.trim levels) = found'.map (Match.trim levels) := by
    obtain ⟨more, rfl⟩ : ∃ more, levels' = more + 1 := Nat.exists_eq_succ_of_ne_zero (by omega)
    have hmore : levels ≤ more := by omega
    intro found found' hfound hfound'
    rw [stepAt, hlevels] at hfound
    refine step_trim hmatchers (fun hfirst hcovers _ _ => ?_) hfound hfound'
    exact trimAll_pass hcoalesce (ih _ (.into inside hfirst hcovers hlevels) hmore)
  rcases nodesFrom_cases inside h with ⟨hnone, rest, hrest, rfl⟩ | ⟨found, hfound, rest, hrest, rfl⟩
  · rcases nodesFrom_cases inside' h' with
      ⟨-, rest', hrest', rfl⟩ | ⟨found', hfound', -, -, -⟩
    · have htail := ih _ (.next inside hnone) hle hrest hrest'
      exact Node.trimAll_cons hlevels rfl htail
    · cases hstep hnone hfound'
  · rcases nodesFrom_cases inside' h' with ⟨hnone', -, -, -⟩ | ⟨found', hfound', rest', hrest', rfl⟩
    · cases hstep hfound hnone'
    · have hfounds := Option.some.inj (hstep hfound hfound')
      have hnode : found.node.trim levels = found'.node.trim levels :=
        congrArg Match.node hfounds
      have hconsumed : found'.consumed = found.consumed :=
        (congrArg Match.consumed hfounds).symm
      rw [hconsumed] at hrest'
      have htail := ih _ (.behind inside hfound) hle hrest hrest'
      exact Node.trimAll_cons hlevels hnode htail

theorem trimAll_pass_of_le (hmatchers : e'.matchers = e.matchers)
    (hcoalesce : e'.coalesce = e.coalesce) {levels levels' : Nat} (hle : levels ≤ levels')
    {before : Option Token} {ts : List Token} {nodes nodes' : List Node}
    (h : (e.pass levels (TokenSeq.ofList ts before)).result = .ok nodes)
    (h' : (e'.pass levels' (TokenSeq.ofList ts before)).result = .ok nodes') :
    Node.trimAll levels nodes = Node.trimAll levels nodes' :=
  trimAll_pass hcoalesce (trimAll_nodesFrom hmatchers hcoalesce ⟨levels, before, ts, 0⟩ hle) h h'

end Engine

/-- **The limit only affects what lies below it.** Two parses of the same tokens under two limits
that both succeed make the same nodes, once the children of the containers on the last level of
the lower limit are dropped. -/
theorem parse_top_levels (ms : List Matcher) (coalesce : Bool) (ts : List Token) {limit limit' : Nat}
    (hle : limit ≤ limit') {nodes nodes' : List Node}
    (h : (Engine.parse ⟨ms, limit, coalesce⟩ ts).result = .ok nodes)
    (h' : (Engine.parse ⟨ms, limit', coalesce⟩ ts).result = .ok nodes') :
    Node.trimAll limit nodes = Node.trimAll limit nodes' ∧
    ∀ path, path.length ≤ limit →
      (nodeAt? nodes path).map (Node.trim 0) = (nodeAt? nodes' path).map (Node.trim 0) := by
  have htop : Node.trimAll limit nodes = Node.trimAll limit nodes' := by
    refine Engine.trimAll_pass_of_le ?_ ?_ hle h h' <;> rfl
  exact ⟨htop, fun path hpath => nodeAt?_eq_of_trimAll_eq htop hpath⟩

/-- Bold text in italic text is refused under a limit of 1 and parsed under a limit of 2. Both
times there is one italic node with the same content, which is all that the limit of 1 leaves. -/
theorem parse_top_levels_italic : ∃ content nodes nodes',
    (Engine.parse ⟨[italic.matcher, bold.matcher], 1, true⟩ (tokenize "*a **b** c*")).result =
      .ok nodes ∧
    (Engine.parse ⟨[italic.matcher, bold.matcher], 2, true⟩ (tokenize "*a **b** c*")).result =
      .ok nodes' ∧
    nodes = [.container .italic content [.text "a **b** c"]] ∧ nodes ≠ nodes' ∧
    Node.trimAll 1 nodes' = [.container .italic content []] ∧
    (nodeAt? nodes' [0]).map (Node.trim 0) = some (.container .italic content []) := by
  have hlow : (Engine.parse ⟨[italic.matcher, bold.matcher], 1, true⟩ (tokenize "*a **b** c*")).result =
      .ok [.container .italic ((tokenize "*a **b** c*").extract 1 8) [.text "a **b** c"]] := rfl
  have hhigh : (Engine.parse ⟨[italic.matcher, bold.matcher], 2, true⟩ (tokenize "*a **b** c*")).result =
      .ok [.container .italic ((tokenize "*a **b** c*").extract 1 8)
        [.text "a ", .container .bold [⟨.text, "b", 5⟩] [.text "b"], .text " c"]] := rfl
  obtain ⟨htop, haddresses⟩ := parse_top_levels _ true _ (Nat.le_succ 1) hlow hhigh
  refine ⟨_, _, _, hlow, hhigh, rfl, by simp, ?_, ?_⟩
  · rw [← htop]
    simp [Node.trimAll, Node.trim]
  · rw [← haddresses [0] (Nat.le_refl 1)]
    simp [nodeAt?, Node.at?, Node.trim, Node.trimAll]

end InlineMarkup
