/-
# A rewrite is the bottom-up map

A rewrite gives its function every node once, the nodes below a container before the
container and each level from left to right (`run_rewriteAll_noting`, `perm_postorderAll`). A
container is given with the rewritten children, or with its own when those are the same
(`Node.presented`). So the rewrite differs from the plain bottom-up map, which puts the
rewritten children back in any case (`mapUpAll`), by which of two equal lists of children the
function sees. A function that makes the same of the same nodes cannot tell: the two results
are the same (`sameAll_transform`).

Nodes are the same when they are equal but for the places of their tokens
(`Node.same_iff`).

Key definitions: `Node.unplaced`, `Node.presented`, `Node.mapUp`, `Node.postorder`,
`noting`.
Key theorems: `Node.same_iff`, `Node.rewrite_container`, `transform_eq_map`, `Node.rewritten_eq`,
`run_rewriteAll_noting`, `transform_is_bottom_up`.
-/
import InlineMarkup.Rewrite
import InlineMarkup.Proofs.Forest
import InlineMarkup.Proofs.Relabelling

namespace InlineMarkup

/-! ### The same nodes -/

/-- A token with its place forgotten. -/
def Token.unplaced (t : Token) : Token :=
  { t with offset := 0 }

/-- A node with the places of its tokens forgotten, at every depth. -/
def Node.unplaced : Node → Node :=
  Node.relabel id Token.unplaced

theorem Token.same_iff {t u : Token} : t.same u = true ↔ t.unplaced = u.unplaced := by
  simp [Token.same, Token.unplaced]

theorem sameTokens_iff {ts us : List Token} :
    sameTokens ts us = true ↔ ts.map Token.unplaced = us.map Token.unplaced := by
  induction ts generalizing us with
  | nil => cases us <;> simp [sameTokens]
  | cons t ts ih => cases us <;> simp [sameTokens, Token.same_iff, ih]

theorem Node.unplaced_container (kind : ContainerKind) (content : List Token)
    (children : List Node) : (Node.container kind content children).unplaced =
      .container kind (content.map Token.unplaced) (children.map Node.unplaced) := by
  rw [Node.unplaced, Node.relabel, Node.relabelAll_eq_map]

theorem Node.sameAll_iff_of_same {ns ms : List Node}
    (h : ∀ n ∈ ns, ∀ m, n.same m = true ↔ n.unplaced = m.unplaced) :
    Node.sameAll ns ms = true ↔ ns.map Node.unplaced = ms.map Node.unplaced := by
  induction ns generalizing ms with
  | nil => cases ms <;> simp [Node.sameAll]
  | cons n ns ih =>
    obtain ⟨hn, hns⟩ := List.forall_mem_cons.mp h
    cases ms <;> simp [Node.sameAll, hn, ih hns]

/-- **Nodes are the same when they are equal but for the places of their tokens.** -/
theorem Node.same_iff {n m : Node} : n.same m = true ↔ n.unplaced = m.unplaced := by
  induction n using Node.induction generalizing m with
  | container kind content children ih =>
    cases m with
    | container kind' content' children' =>
      have hchildren : Node.sameAll children children' = true ↔
          children.map Node.unplaced = children'.map Node.unplaced :=
        Node.sameAll_iff_of_same fun n hn m => ih n hn
      simp [Node.same, Node.unplaced_container, sameTokens_iff, hchildren, and_assoc]
    | _ => simp [Node.same, Node.unplaced, Node.relabel]
  | _ => cases m <;> simp [Node.same, Node.unplaced, Node.relabel]

theorem Node.sameAll_iff {ns ms : List Node} :
    Node.sameAll ns ms = true ↔ ns.map Node.unplaced = ms.map Node.unplaced :=
  Node.sameAll_iff_of_same fun _ _ _ => Node.same_iff

/-! ### What a rewrite does to a node -/

/-- The children that a container has behind a rewrite: its own, unless the rewritten ones
differ from them. -/
def putBack (children rewritten : List Node) : List Node :=
  if Node.sameAll rewritten children then children else rewritten

theorem putBack_self (children : List Node) : putBack children children = children :=
  ite_self children

theorem unplaced_putBack (children rewritten : List Node) :
    (putBack children rewritten).map Node.unplaced = rewritten.map Node.unplaced := by
  unfold putBack
  split
  · rename_i h
    exact (Node.sameAll_iff.mp h).symm
  · rfl

section Monadic

variable {m : Type → Type} [Monad m]

theorem Node.rewrite_of_plain {n : Node} (h : n.isContainer = false) (f : Node → m Node) :
    n.rewrite f = f n := by
  cases n with
  | container => cases h
  | _ => simp only [Node.rewrite]

theorem Node.rewrite_container [LawfulMonad m] (f : Node → m Node) (kind : ContainerKind)
    (content : List Token) (children : List Node) :
    (Node.container kind content children).rewrite f =
      rewriteAll f children >>= fun rewritten =>
        f (.container kind content (putBack children rewritten)) := by
  cases children with
  | nil =>
    rw [Node.rewrite, rewriteAll, pure_bind, putBack_self]
  | cons child rest =>
    rw [Node.rewrite]
    congr 1
    funext rewritten
    unfold putBack
    split <;> rfl

end Monadic

/-- The node that a rewrite by `f` makes of a node. -/
def Node.rewritten (f : Node → Node) (n : Node) : Node :=
  Id.run (n.rewrite fun n => pure (f n))

/-- The node that `f` is given for a node in a rewrite: a container has its rewritten
children, unless they are the same as its own. -/
def Node.presented (f : Node → Node) : Node → Node
  | .container kind content children =>
    .container kind content (putBack children (transform f children))
  | n => n

theorem Node.presented_of_plain {n : Node} (h : n.isContainer = false) (f : Node → Node) :
    n.presented f = n := by
  cases n with
  | container => cases h
  | _ => rfl

theorem transform_eq_map (f : Node → Node) (nodes : List Node) :
    transform f nodes = nodes.map (Node.rewritten f) := by
  induction nodes with
  | nil => rfl
  | cons n ns ih =>
    rw [List.map_cons, ← ih]
    rfl

/-- **What is made of a node is what `f` makes of the node it is given.** -/
theorem Node.rewritten_eq (f : Node → Node) (n : Node) : n.rewritten f = f (n.presented f) := by
  unfold Node.rewritten
  cases n with
  | container kind content children =>
    rw [Node.rewrite_container]
    rfl
  | _ =>
    rw [Node.rewrite_of_plain rfl]
    rfl

/-! ### The plain bottom-up map -/

mutual

/-- The node that `f` makes of a node when it has been applied to the children, and what it
made of them stands in their place. -/
def Node.mapUp (f : Node → Node) : Node → Node
  | .container kind content children => f (.container kind content (Node.mapUpAll f children))
  | n => f n

/-- Nodes in a row, each mapped from the bottom up. -/
def Node.mapUpAll (f : Node → Node) : List Node → List Node
  | [] => []
  | n :: ns => n.mapUp f :: Node.mapUpAll f ns

end

theorem Node.mapUpAll_eq_map (f : Node → Node) (ns : List Node) :
    Node.mapUpAll f ns = ns.map (Node.mapUp f) := by
  induction ns with
  | nil => rfl
  | cons n ns ih => rw [Node.mapUpAll, ih, List.map_cons]

/-- A function that makes the same of nodes that are the same. -/
def RespectsSame (f : Node → Node) : Prop :=
  ∀ n m : Node, n.same m = true → (f n).same (f m) = true

theorem RespectsSame.unplaced {f : Node → Node} (hf : RespectsSame f) {n m : Node}
    (h : n.unplaced = m.unplaced) : (f n).unplaced = (f m).unplaced :=
  Node.same_iff.mp (hf n m (Node.same_iff.mpr h))

/-- **What is made of a node is the same as by the plain map.** The children that `f` is given
are the same, whichever they are. -/
theorem Node.unplaced_rewritten {f : Node → Node} (hf : RespectsSame f) (n : Node) :
    (n.rewritten f).unplaced = (n.mapUp f).unplaced := by
  induction n using Node.induction with
  | container kind content children ih =>
    have hchildren : (putBack children (transform f children)).map Node.unplaced =
        (Node.mapUpAll f children).map Node.unplaced := by
      rw [unplaced_putBack, transform_eq_map, Node.mapUpAll_eq_map, List.map_map, List.map_map]
      exact List.map_congr_left ih
    rw [Node.rewritten_eq, Node.mapUp]
    refine hf.unplaced ?_
    rw [Node.presented, Node.unplaced_container, Node.unplaced_container, hchildren]
  | _ =>
    rw [Node.rewritten_eq, Node.presented_of_plain rfl]
    rfl

/-- **A rewrite is the plain bottom-up map**, for functions that cannot tell the same nodes
apart. -/
theorem sameAll_transform {f : Node → Node} (hf : RespectsSame f) (nodes : List Node) :
    Node.sameAll (transform f nodes) (Node.mapUpAll f nodes) = true := by
  rw [Node.sameAll_iff, transform_eq_map, Node.mapUpAll_eq_map, List.map_map, List.map_map]
  exact List.map_congr_left fun n _ => n.unplaced_rewritten hf

/-! ### The order of the calls -/

mutual

/-- A node and the nodes below it, each behind those below it. -/
def Node.postorder : Node → List Node
  | .container kind content children =>
    postorderAll children ++ [.container kind content children]
  | n => [n]

/-- Nodes and the nodes below them, from left to right. -/
def postorderAll : List Node → List Node
  | [] => []
  | n :: ns => n.postorder ++ postorderAll ns

end

theorem perm_postorderAll_of_postorder {ns : List Node}
    (h : ∀ n ∈ ns, n.postorder.Perm n.preorder) : (postorderAll ns).Perm (preorderAll ns) := by
  induction ns with
  | nil => exact .refl _
  | cons n ns ih =>
    obtain ⟨hn, hns⟩ := List.forall_mem_cons.mp h
    rw [postorderAll, preorderAll]
    exact hn.append (ih hns)

theorem Node.perm_postorder (n : Node) : n.postorder.Perm n.preorder := by
  induction n using Node.induction with
  | container kind content children ih =>
    rw [Node.postorder, Node.preorder]
    exact (List.perm_append_singleton _ _).trans ((perm_postorderAll_of_postorder ih).cons _)
  | _ => exact .refl _

theorem perm_postorderAll (nodes : List Node) : (postorderAll nodes).Perm (preorderAll nodes) :=
  perm_postorderAll_of_postorder fun n _ => n.perm_postorder

/-- The function `f`, with a note of every node it is given. -/
def noting (f : Node → Node) (n : Node) : StateM (List Node) Node := do
  modify fun given => given ++ [n]
  pure (f n)

theorem run_rewriteAll_of_rewrite {f : Node → Node} {ns : List Node}
    (h : ∀ n ∈ ns, ∀ given, (n.rewrite (noting f)).run given =
      (n.rewritten f, given ++ n.postorder.map (Node.presented f))) (given : List Node) :
    (rewriteAll (noting f) ns).run given =
      (transform f ns, given ++ (postorderAll ns).map (Node.presented f)) := by
  induction ns generalizing given with
  | nil =>
    rw [postorderAll, List.map_nil, List.append_nil]
    rfl
  | cons n ns ih =>
    obtain ⟨hn, hns⟩ := List.forall_mem_cons.mp h
    have hrest := ih hns (given ++ n.postorder.map (Node.presented f))
    rw [List.append_assoc, ← List.map_append] at hrest
    rw [rewriteAll, StateT.run_bind, hn]
    show (rewriteAll (noting f) ns >>= fun ms => pure (n.rewritten f :: ms)).run
      (given ++ n.postorder.map (Node.presented f)) = _
    rw [StateT.run_bind, hrest]
    rfl

theorem Node.run_rewrite_noting (f : Node → Node) (n : Node) (given : List Node) :
    (n.rewrite (noting f)).run given =
      (n.rewritten f, given ++ n.postorder.map (Node.presented f)) := by
  induction n using Node.induction generalizing given with
  | container kind content children ih =>
    rw [Node.rewrite_container, StateT.run_bind, run_rewriteAll_of_rewrite ih, Node.rewritten_eq,
      Node.postorder, List.map_append, ← List.append_assoc]
    rfl
  | _ =>
    rw [Node.rewrite_of_plain rfl, Node.rewritten_eq, Node.presented_of_plain rfl]
    rfl

/-- **A rewrite gives its function every node once**, in postorder. -/
theorem run_rewriteAll_noting (f : Node → Node) (nodes : List Node) :
    (rewriteAll (noting f) nodes).run [] =
      (transform f nodes, (postorderAll nodes).map (Node.presented f)) :=
  run_rewriteAll_of_rewrite (fun n _ => n.run_rewrite_noting f) []

/-! ### Rewriting without a change -/

theorem transform_id_of_rewritten {ns : List Node} (h : ∀ n ∈ ns, n.rewritten id = n) :
    transform id ns = ns := by
  rw [transform_eq_map]
  exact (List.map_congr_left h).trans (List.map_id ns)

theorem Node.rewritten_id (n : Node) : n.rewritten id = n := by
  induction n using Node.induction with
  | container kind content children ih =>
    rw [Node.rewritten_eq, Node.presented, transform_id_of_rewritten ih, putBack_self, id]
  | _ => rw [Node.rewritten_eq, Node.presented_of_plain rfl, id]

/-- **A rewrite is the bottom-up map.** For a function that makes the same of the same nodes, it
makes no difference that a container keeps its own children when the rewritten ones are the same.
Any function is called for every node once, behind the nodes below it. -/
theorem transform_is_bottom_up :
    (∀ f : Node → Node, RespectsSame f → ∀ nodes : List Node,
      Node.sameAll (transform f nodes) (Node.mapUpAll f nodes) = true) ∧
    (∀ (f : Node → Node) (nodes : List Node),
      (rewriteAll (noting f) nodes).run [] =
        (transform f nodes, (postorderAll nodes).map (Node.presented f)) ∧
      (postorderAll nodes).Perm (preorderAll nodes)) ∧
    ∀ nodes : List Node, transform id nodes = nodes :=
  ⟨fun _ hf nodes => sameAll_transform hf nodes,
    fun f nodes => ⟨run_rewriteAll_noting f nodes, perm_postorderAll nodes⟩,
    fun _ => transform_id_of_rewritten fun n _ => n.rewritten_id⟩

/-- A tag with a mark behind its name; other nodes as they are. -/
def Node.markTag : Node → Node
  | .tag name => .tag (name ++ "!")
  | n => n

theorem respectsSame_markTag : RespectsSame Node.markTag := by
  intro n m h
  cases n <;> cases m <;> simp_all [Node.same, Node.markTag]

/-- Tags are marked in bold text, whose content tokens stay as they are. -/
theorem transform_is_bottom_up_tag :
    RespectsSame Node.markTag ∧ Node.sameAll
      (transform Node.markTag [.container .bold [⟨.hash, "#", 2⟩, ⟨.text, "a", 3⟩] [.tag "a"], .text "b"])
      [.container .bold [⟨.hash, "#", 2⟩, ⟨.text, "a", 3⟩] [.tag "a!"], .text "b"] = true :=
  ⟨respectsSame_markTag, transform_is_bottom_up.1 Node.markTag respectsSame_markTag
    [.container .bold [⟨.hash, "#", 2⟩, ⟨.text, "a", 3⟩] [.tag "a"], .text "b"]⟩

end InlineMarkup
