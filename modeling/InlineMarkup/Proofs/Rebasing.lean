/-
# Moved content tokens below the top are lost

A rewrite puts rewritten children back only where they differ from those that were there, and
the places of tokens do not count. So of a change that shows in places alone nothing is left
below the top: the nodes of the top level are changed, and those below them stay as they were
(`transform_of_same`).

To move the content tokens of all containers by a rewrite therefore works only where there is
nothing to move below the top (`moved_content_iff`). A bold text in a struck text keeps its
place when the note is moved (`nested_content_not_moved`).

Key definitions: `Node.content`, `Node.moveContent`.
Key theorems: `transform_of_same`, `Node.shift_eq_self_iff`, `moved_content_iff`.
-/
import InlineMarkup.Proofs.BottomUp
import InlineMarkup.Proofs.StandardParse

namespace InlineMarkup

/-! ### Changes that do not show -/

theorem transform_of_presented {f : Node → Node} {ns : List Node}
    (h : ∀ n ∈ ns, n.presented f = n) : transform f ns = ns.map f := by
  rw [transform_eq_map]
  refine List.map_congr_left fun n hn => ?_
  rw [Node.rewritten_eq, h n hn]

/-- A function that makes of each node the same node is given every node as it was. -/
theorem Node.presented_of_same {f : Node → Node} (hf : ∀ n : Node, (f n).same n = true) (n : Node) :
    n.presented f = n := by
  induction n using Node.induction with
  | container kind content children ih =>
    have hsame : Node.sameAll (children.map f) children = true := by
      rw [Node.sameAll_iff, List.map_map]
      exact List.map_congr_left fun n _ => Node.same_iff.mp (hf n)
    rw [Node.presented, transform_of_presented ih, putBack, if_pos hsame]
  | _ => exact Node.presented_of_plain rfl f

/-- **A change that does not show is made at the top alone.** -/
theorem transform_of_same {f : Node → Node} (hf : ∀ n : Node, (f n).same n = true)
    (nodes : List Node) : transform f nodes = nodes.map f :=
  transform_of_presented fun n _ => n.presented_of_same hf

/-! ### Moved content -/

/-- The content tokens of a container; other nodes have none. -/
def Node.content : Node → List Token
  | .container _ content _ => content
  | _ => []

/-- A container with its content tokens `delta` places further on, and its children where they
are; other nodes as they are. -/
def Node.moveContent (delta : Int) : Node → Node
  | .container kind content children =>
    .container kind (content.map (Token.shift delta)) children
  | n => n

variable {delta : Int}

theorem Token.unplaced_shift (delta : Int) (t : Token) : (t.shift delta).unplaced = t.unplaced :=
  rfl

theorem Node.same_moveContent (delta : Int) (n : Node) : (n.moveContent delta).same n = true := by
  rw [Node.same_iff]
  cases n with
  | container kind content children =>
    rw [Node.moveContent, Node.unplaced_container, Node.unplaced_container, List.map_map]
    exact congrArg (Node.container kind · _) (List.map_congr_left fun t _ => t.unplaced_shift delta)
  | _ => rfl

theorem Node.shift_container (delta : Int) (kind : ContainerKind) (content : List Token)
    (children : List Node) : (Node.container kind content children).shift delta =
      .container kind (content.map (Token.shift delta)) (children.map (Node.shift delta)) := by
  rw [Node.shift, Node.relabel, Node.relabelAll_eq_map]

theorem Token.shift_eq_self_iff {t : Token} : t.shift delta = t ↔ delta = 0 := by
  constructor
  · intro h
    have hoffset : t.offset + delta = t.offset := congrArg Token.offset h
    omega
  · rintro rfl
    rw [Token.shift, Int.add_zero]

theorem map_shift_eq_self_iff {ts : List Token} :
    ts.map (Token.shift delta) = ts ↔ delta = 0 ∨ ts = [] := by
  cases ts with
  | nil => simp
  | cons t ts =>
    rw [List.map_cons, List.cons_eq_cons, Token.shift_eq_self_iff]
    refine ⟨fun h => .inl h.1, ?_⟩
    rintro (rfl | hnil)
    · exact ⟨rfl, List.map_id'' (fun t => Token.shift_eq_self_iff.mpr rfl) ts⟩
    · cases hnil

theorem map_eq_self_iff {α : Type} {f : α → α} {xs : List α} :
    xs.map f = xs ↔ ∀ x ∈ xs, f x = x := by
  conv_lhs => rhs; rw [← List.map_id xs]
  exact List.map_inj_left

theorem map_shift_nodes_eq_self_iff {ns : List Node}
    (h : ∀ n ∈ ns, n.shift delta = n ↔ delta = 0 ∨ ∀ m ∈ n.preorder, m.content = []) :
    ns.map (Node.shift delta) = ns ↔ delta = 0 ∨ ∀ m ∈ preorderAll ns, m.content = [] := by
  rw [map_eq_self_iff, forall₂_congr h, preorderAll_eq_flatMap, List.forall_mem_flatMap]
  by_cases hdelta : delta = 0 <;> simp [hdelta]

/-- Moved nodes are as they were where no container at any depth has content tokens. -/
theorem Node.shift_eq_self_iff {n : Node} :
    n.shift delta = n ↔ delta = 0 ∨ ∀ m ∈ n.preorder, m.content = [] := by
  induction n using Node.induction with
  | container kind content children ih =>
    rw [Node.shift_container, Node.container.injEq, map_shift_eq_self_iff,
      map_shift_nodes_eq_self_iff ih, Node.preorder, List.forall_mem_cons, Node.content]
    tauto
  | _ =>
    rw [Node.preorder_of_plain rfl, List.forall_mem_singleton]
    exact ⟨fun _ => .inr rfl, fun _ => rfl⟩

/-- A node is moved as a whole by moving its own content when nothing below it has to move. -/
theorem Node.moveContent_eq_shift_iff {n : Node} : n.moveContent delta = n.shift delta ↔
    delta = 0 ∨ ∀ m ∈ preorderAll n.children, m.content = [] := by
  cases n with
  | container kind content children =>
    rw [← map_shift_nodes_eq_self_iff fun _ _ => Node.shift_eq_self_iff, Node.moveContent,
      Node.shift_container, Node.container.injEq]
    exact ⟨fun h => h.2.2.symm, fun h => ⟨rfl, rfl, h.symm⟩⟩
  | _ => exact ⟨fun _ => .inr fun _ hm => absurd hm List.not_mem_nil, fun _ => rfl⟩

/-- **Content is moved at the top alone.** A rewrite that moves the content tokens of every
container it is given moves those of the top level and leaves all below them in place. So all
of the note is moved when nothing has to be below the top, and only then. -/
theorem moved_content_iff (delta : Int) (nodes : List Node) :
    transform (Node.moveContent delta) nodes = nodes.map (Node.moveContent delta) ∧
      (transform (Node.moveContent delta) nodes = nodes.map (Node.shift delta) ↔
        delta = 0 ∨ ∀ n ∈ nodes, ∀ m ∈ preorderAll n.children, m.content = []) := by
  have htop := transform_of_same (Node.same_moveContent delta) nodes
  refine ⟨htop, ?_⟩
  rw [htop, List.map_inj_left, forall₂_congr fun _ _ => Node.moveContent_eq_shift_iff]
  by_cases hdelta : delta = 0 <;> simp [hdelta]

/-- A bold text in a struck text keeps its place when the note is moved: the marks around it
are moved, its content is not. -/
theorem nested_content_not_moved : ∃ nodes, ParsesTo "~~**b**~~" nodes ∧
    (preorderAll (transform (Node.moveContent 3) nodes)).map
        (fun n => n.content.map Token.offset) = [[5, 7, 8], [4], []] ∧
    transform (Node.moveContent 3) nodes ≠ nodes.map (Node.shift 3) := by
  refine ⟨_, parsesTo_iff.mpr rfl, rfl, fun h => ?_⟩
  have hoffsets := congrArg (fun ns => (preorderAll ns).map fun n => n.content.map Token.offset) h
  exact absurd hoffsets (by decide)

end InlineMarkup
