/-
# Nodes at all depths

Only containers have nodes below them, so a node stands at the top of a list of nodes or
below a container there (`mem_preorderAll_iff`). An address says which way down leads to it
(`nodeAt?`).

The visitor that collects tags comes to every tag at any depth, in the order of the note:
the tags of nodes are the names of the tags in preorder, each where it first occurs
(`tagsOf_eq`).

Key definitions: `nodeAt?`, `Below`, `LeftOf`, `tagNames`.
Key theorems: `Node.induction`, `mem_preorderAll_iff`, `mem_preorderAll_iff_exists_nodeAt?`,
`address_cases`, `tagsOf_eq`, `nodup_tagsOf`, `mem_tagsOf_iff`.
-/
import Mathlib.Data.List.Nodup
import InlineMarkup.Visit

namespace InlineMarkup

/-- What holds of nodes without nodes below them, and of a container if it does of its
children, holds of all nodes. -/
@[elab_as_elim]
theorem Node.induction {P : Node → Prop} (bare : P .bare) (text : ∀ s, P (.text s))
    (code : ∀ s, P (.code s)) (image : ∀ s t, P (.image s t)) (link : ∀ s t, P (.link s t))
    (wikiLink : ∀ s, P (.wikiLink s)) (highlight : ∀ s, P (.highlight s)) (tag : ∀ s, P (.tag s))
    (container : ∀ kind content children, (∀ n ∈ children, P n) →
      P (.container kind content children)) (n : Node) : P n :=
  @Node.rec P (fun ns => ∀ n ∈ ns, P n) bare text code image link wikiLink highlight tag container
    (fun _ hn => absurd hn List.not_mem_nil)
    (fun _ _ hn hns => List.forall_mem_cons.mpr ⟨hn, hns⟩) n

theorem Node.children_of_plain {n : Node} (h : n.isContainer = false) : n.children = [] := by
  cases n with
  | container => cases h
  | _ => rfl

theorem Node.preorder_of_plain {n : Node} (h : n.isContainer = false) : n.preorder = [n] := by
  cases n with
  | container => cases h
  | _ => rw [Node.preorder]; exact fun _ _ _ => Node.noConfusion

theorem mem_preorder_iff {n m : Node} : n ∈ m.preorder ↔ n = m ∨ n ∈ preorderAll m.children := by
  cases m <;> simp [Node.preorder, Node.children, preorderAll]

theorem mem_preorderAll_iff {n : Node} {ns : List Node} :
    n ∈ preorderAll ns ↔ n ∈ ns ∨ ∃ m ∈ ns, n ∈ preorderAll m.children := by
  induction ns with
  | nil => simp [preorderAll]
  | cons m ns ih =>
    simp only [preorderAll, List.mem_append, mem_preorder_iff, ih, List.mem_cons, exists_eq_or_imp]
    exact or_or_or_comm

theorem preorderAll_eq_flatMap (ns : List Node) : preorderAll ns = ns.flatMap Node.preorder := by
  induction ns with
  | nil => rfl
  | cons n ns ih => rw [preorderAll, ih, List.flatMap_cons]

/-! ### Addresses -/

/-- The node at an address from a node on. Each number of the address goes down to the
child that has so many children before it. -/
def Node.at? : Node → List Nat → Option Node
  | n, [] => some n
  | n, k :: path => n.children[k]?.bind fun m => m.at? path

/-- The node at an address among nodes and those below them. -/
def nodeAt? (nodes : List Node) : List Nat → Option Node
  | [] => none
  | k :: path => nodes[k]?.bind fun n => n.at? path

/-- One address leads on from where another one ends. -/
def Below (path path' : List Nat) : Prop :=
  ∃ k rest, path' = path ++ k :: rest

/-- One address turns off to the left of another one. -/
def LeftOf (path path' : List Nat) : Prop :=
  ∃ trunk k rest k' rest', path = trunk ++ k :: rest ∧ path' = trunk ++ k' :: rest' ∧ k < k'

theorem Node.at?_append {n m : Node} {path : List Nat} (h : n.at? path = some m) (rest : List Nat) :
    n.at? (path ++ rest) = m.at? rest := by
  induction path generalizing n with
  | nil => rw [List.nil_append, Option.some.inj h]
  | cons k path ih =>
    obtain ⟨child, hchild, hat⟩ := Option.bind_eq_some_iff.mp h
    rw [List.cons_append, Node.at?, hchild, Option.bind_some, ih hat]

theorem nodeAt?_append {ns : List Node} {n : Node} {path : List Nat} (h : nodeAt? ns path = some n)
    (k : Nat) (rest : List Nat) :
    nodeAt? ns (path ++ k :: rest) = nodeAt? n.children (k :: rest) := by
  cases path with
  | nil => cases h
  | cons k' path =>
    obtain ⟨child, hchild, hat⟩ := Option.bind_eq_some_iff.mp h
    rw [List.cons_append, nodeAt?, hchild, Option.bind_some, Node.at?_append hat]
    rfl

theorem exists_nodeAt?_of_append {ns : List Node} {m : Node} {path : List Nat} (hne : path ≠ [])
    {rest : List Nat} (h : nodeAt? ns (path ++ rest) = some m) : ∃ n, nodeAt? ns path = some n := by
  obtain ⟨k, path, rfl⟩ := List.exists_cons_of_ne_nil hne
  obtain ⟨child, hchild, hat⟩ := Option.bind_eq_some_iff.mp h
  rw [nodeAt?, hchild, Option.bind_some]
  clear h hne hchild
  induction path generalizing child with
  | nil => exact ⟨child, rfl⟩
  | cons k' path ih =>
    obtain ⟨next, hnext, hat⟩ := Option.bind_eq_some_iff.mp hat
    rw [Node.at?, hnext, Option.bind_some]
    exact ih next hat

theorem Node.mem_preorder_iff_exists_at? {m : Node} (n : Node) :
    m ∈ n.preorder ↔ ∃ path, n.at? path = some m := by
  induction n using Node.induction with
  | container kind content children ih =>
    rw [Node.preorder, List.mem_cons, preorderAll_eq_flatMap, List.mem_flatMap]
    constructor
    · rintro (rfl | ⟨child, hchild, hm⟩)
      · exact ⟨[], rfl⟩
      · obtain ⟨k, hk⟩ := List.mem_iff_getElem?.mp hchild
        obtain ⟨path, hpath⟩ := (ih child hchild).mp hm
        exact ⟨k :: path, Option.bind_eq_some_iff.mpr ⟨child, hk, hpath⟩⟩
    · rintro ⟨_ | ⟨k, path⟩, hpath⟩
      · exact .inl (Option.some.inj hpath).symm
      · obtain ⟨child, hk, hat⟩ := Option.bind_eq_some_iff.mp hpath
        have hchild := List.mem_of_getElem? hk
        exact .inr ⟨child, hchild, (ih child hchild).mpr ⟨path, hat⟩⟩
  | _ =>
    rw [Node.preorder_of_plain rfl, List.mem_singleton]
    constructor
    · rintro rfl
      exact ⟨[], rfl⟩
    · rintro ⟨_ | ⟨k, path⟩, hpath⟩
      · exact (Option.some.inj hpath).symm
      · cases hpath

theorem mem_preorderAll_iff_exists_nodeAt? {m : Node} {ns : List Node} :
    m ∈ preorderAll ns ↔ ∃ path, nodeAt? ns path = some m := by
  rw [preorderAll_eq_flatMap, List.mem_flatMap]
  constructor
  · rintro ⟨n, hn, hm⟩
    obtain ⟨k, hk⟩ := List.mem_iff_getElem?.mp hn
    obtain ⟨path, hpath⟩ := (Node.mem_preorder_iff_exists_at? n).mp hm
    exact ⟨k :: path, Option.bind_eq_some_iff.mpr ⟨n, hk, hpath⟩⟩
  · rintro ⟨_ | ⟨k, path⟩, hpath⟩
    · cases hpath
    · obtain ⟨n, hk, hat⟩ := Option.bind_eq_some_iff.mp hpath
      exact ⟨n, List.mem_of_getElem? hk, (Node.mem_preorder_iff_exists_at? n).mpr ⟨path, hat⟩⟩

/-- Two addresses are the same, or one leads on from the other, or one turns off to the left
of the other. -/
theorem address_cases : ∀ path path' : List Nat,
    path = path' ∨ Below path path' ∨ Below path' path ∨ LeftOf path path' ∨ LeftOf path' path
  | [], [] => .inl rfl
  | [], k' :: path' => .inr (.inl ⟨k', path', rfl⟩)
  | k :: path, [] => .inr (.inr (.inl ⟨k, path, rfl⟩))
  | k :: path, k' :: path' => by
    rcases Nat.lt_trichotomy k k' with hlt | rfl | hgt
    · exact .inr (.inr (.inr (.inl ⟨[], k, path, k', path', rfl, rfl, hlt⟩)))
    · rcases address_cases path path' with rfl | ⟨i, rest, rfl⟩ | ⟨i, rest, rfl⟩ |
        ⟨trunk, i, rest, i', rest', rfl, rfl, hlt⟩ | ⟨trunk, i, rest, i', rest', rfl, rfl, hlt⟩
      · exact .inl rfl
      · exact .inr (.inl ⟨i, rest, rfl⟩)
      · exact .inr (.inr (.inl ⟨i, rest, rfl⟩))
      · exact .inr (.inr (.inr (.inl ⟨k :: trunk, i, rest, i', rest', rfl, rfl, hlt⟩)))
      · exact .inr (.inr (.inr (.inr ⟨k :: trunk, i, rest, i', rest', rfl, rfl, hlt⟩)))
    · exact .inr (.inr (.inr (.inr ⟨[], k', path', k, path, rfl, rfl, hgt⟩)))

/-! ### Tags -/

/-- The name of a tag. -/
def Node.tag? : Node → Option String
  | .tag name => some name
  | _ => none

/-- The names of the tags among nodes at all depths, from left to right. -/
def tagNames (nodes : List Node) : List String :=
  (preorderAll nodes).filterMap Node.tag?

theorem tag?_eq_some_iff {n : Node} {name : String} : n.tag? = some name ↔ n = .tag name := by
  cases n <;> simp [Node.tag?]

theorem mem_tagNames_iff {nodes : List Node} {name : String} :
    name ∈ tagNames nodes ↔ .tag name ∈ preorderAll nodes := by
  simp only [tagNames, List.mem_filterMap, tag?_eq_some_iff, exists_eq_right]

theorem tagNames_cons (n : Node) (ns : List Node) :
    tagNames (n :: ns) = n.preorder.filterMap Node.tag? ++ tagNames ns := by
  rw [tagNames, preorderAll, List.filterMap_append, tagNames]

/-- The visitor of tags adds the names of the nodes it visits, if it does so of each of them. -/
theorem run_visitAll_of_visit {ns : List Node}
    (h : ∀ n ∈ ns, ∀ names : List String,
      ((tagVisitor.visit n).run names).2 = (n.preorder.filterMap Node.tag?).foldl addName names)
    (names : List String) :
    ((tagVisitor.visitAll ns).run names).2 = (tagNames ns).foldl addName names := by
  induction ns generalizing names with
  | nil => rfl
  | cons n ns ih =>
    obtain ⟨hn, hns⟩ := List.forall_mem_cons.mp h
    rw [tagNames_cons, List.foldl_append, ← hn names, ← ih hns]
    rfl

theorem run_visit (n : Node) (names : List String) :
    ((tagVisitor.visit n).run names).2 = (n.preorder.filterMap Node.tag?).foldl addName names := by
  induction n using Node.induction generalizing names with
  | container kind content children ih =>
    -- the container itself has no handler, so the visit goes on with the children
    have hself : ((tagVisitor.visit (.container kind content children)).run names).2 =
        ((tagVisitor.visitAll children).run names).2 := by
      cases kind <;> rfl
    rw [hself, run_visitAll_of_visit ih]
    rfl
  | _ => rfl

/-- **The tags of nodes are the names of the tags at all depths, each where it first occurs.** -/
theorem tagsOf_eq (nodes : List Node) : tagsOf nodes = (tagNames nodes).foldl addName [] :=
  run_visitAll_of_visit (fun n _ => run_visit n) []

theorem nodup_addName {names : List String} (h : names.Nodup) (s : String) :
    (addName names s).Nodup := by
  unfold addName
  split
  · exact h
  · rename_i hs
    rw [List.contains_iff_mem] at hs
    exact List.nodup_append.mpr ⟨h, List.nodup_singleton s,
      fun a ha b hb hab => hs (List.mem_singleton.mp hb ▸ hab ▸ ha)⟩

theorem mem_addName_iff {names : List String} {s t : String} :
    t ∈ addName names s ↔ t ∈ names ∨ t = s := by
  unfold addName
  split
  · rename_i hs
    rw [List.contains_iff_mem] at hs
    exact ⟨.inl, fun h => h.elim id fun hts => hts ▸ hs⟩
  · rw [List.mem_append, List.mem_singleton]

theorem nodup_foldl_addName (added : List String) : ∀ {names : List String}, names.Nodup →
    (added.foldl addName names).Nodup := by
  induction added with
  | nil => exact id
  | cons s added ih => exact fun h => ih (nodup_addName h s)

theorem mem_foldl_addName_iff {t : String} (added : List String) : ∀ {names : List String},
    t ∈ added.foldl addName names ↔ t ∈ names ∨ t ∈ added := by
  induction added with
  | nil => simp
  | cons s added ih =>
    intro names
    rw [List.foldl_cons, ih, mem_addName_iff, List.mem_cons, or_assoc]

theorem nodup_tagsOf (nodes : List Node) : (tagsOf nodes).Nodup :=
  tagsOf_eq nodes ▸ nodup_foldl_addName _ List.nodup_nil

theorem mem_tagsOf_iff {nodes : List Node} {name : String} :
    name ∈ tagsOf nodes ↔ .tag name ∈ preorderAll nodes := by
  rw [tagsOf_eq, mem_foldl_addName_iff, mem_tagNames_iff]
  simp

end InlineMarkup
