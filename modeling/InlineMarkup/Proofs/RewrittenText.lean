/-
# A rewrite keeps the text and the markup that its function keeps

The text of a container is made of the texts of its children, and so is its markup, as long as
it has children; a container without children is written from its content tokens
(`compositional_plainText`, `compositional_markup`). A rewrite puts as many children back as
there were, so it never leads from the one case to the other, and it does not matter whether
the rewritten children are put back or the equal ones are left in place.

So what a function keeps of each node is kept of a note when it is rewritten by that function
(`Preserves.rewritten`), also when the function makes nodes of other classes.

Key definitions: `Node.Inline`, `Compositional`, `Preserves`.
Key theorems: `compositional_markup`, `Node.exists_markup`, `Preserves.rewritten`,
`rewrite_keeps_text`.
-/
import InlineMarkup.NodeText
import InlineMarkup.Proofs.BottomUp
import InlineMarkup.Proofs.Losslessness

namespace InlineMarkup

/-! ### Nodes of the language -/

/-- The classes of a node and of the nodes below it are among the ten of the language: none is
bare, and none a plain container. -/
def Node.Inline (n : Node) : Prop :=
  ∀ m ∈ n.preorder, m.cls ∈ NodeClass.stored

instance (n : Node) : Decidable n.Inline :=
  inferInstanceAs (Decidable (∀ m ∈ n.preorder, m.cls ∈ NodeClass.stored))

theorem Node.inline_container_iff {kind : ContainerKind} {content : List Token}
    {children : List Node} : (Node.container kind content children).Inline ↔
      kind.cls ∈ NodeClass.stored ∧ ∀ n ∈ children, n.Inline := by
  rw [Node.Inline, Node.preorder, List.forall_mem_cons, preorderAll_eq_flatMap,
    List.forall_mem_flatMap]
  rfl

theorem Node.inline_of_plain {n : Node} (h : n.isContainer = false)
    (hcls : n.cls ∈ NodeClass.stored) : n.Inline := by
  rw [Node.Inline, Node.preorder_of_plain h, List.forall_mem_singleton]
  exact hcls

theorem ContainerKind.exists_marker {kind : ContainerKind} (h : kind.cls ∈ NodeClass.stored) :
    ∃ marker, kind.marker? = some marker := by
  cases kind with
  | plain => exact absurd h (by decide)
  | _ => exact ⟨_, rfl⟩

theorem exists_markupAll {ns : List Node} (h : ∀ n ∈ ns, ∃ s, n.markup = .ok s) :
    ∃ s, Node.markupAll ns = .ok s := by
  induction ns with
  | nil => exact ⟨"", rfl⟩
  | cons n ns ih =>
    obtain ⟨⟨s, hs⟩, hns⟩ := List.forall_mem_cons.mp h
    obtain ⟨s', hs'⟩ := ih hns
    exact ⟨s ++ s', markupAll_cons hs hs'⟩

theorem Node.exists_markup {n : Node} (h : n.Inline) : ∃ s, n.markup = .ok s := by
  induction n using Node.induction with
  | bare => exact absurd (h .bare (by simp [Node.preorder])) (by decide)
  | container kind content children ih =>
    obtain ⟨hkind, hchildren⟩ := Node.inline_container_iff.mp h
    obtain ⟨marker, hmarker⟩ := ContainerKind.exists_marker hkind
    obtain ⟨s, hs⟩ := exists_markupAll fun n hn => ih n hn (hchildren n hn)
    by_cases hempty : children = []
    · subst hempty
      exact ⟨marker ++ joinTokens content ++ marker, by rw [Node.markup, hmarker]; rfl⟩
    · exact ⟨marker ++ s ++ marker, markup_container hmarker hempty hs⟩
  | _ => exact ⟨_, rfl⟩

/-! ### What is seen of a container through its children -/

variable {α : Type}

/-- What `g` shows of a container depends on its children only by what it shows of each. -/
def Compositional (g : Node → α) : Prop :=
  ∀ (kind : ContainerKind) (content : List Token) (children children' : List Node),
    children'.map g = children.map g →
      g (.container kind content children') = g (.container kind content children)

theorem all_congr {β : Type} {g : Node → α} {all : List Node → β} (put : α → β → β)
    (hcons : ∀ n ns, all (n :: ns) = put (g n) (all ns)) {ns ms : List Node}
    (h : ms.map g = ns.map g) : all ms = all ns := by
  induction ns generalizing ms with
  | nil => rw [List.map_eq_nil_iff.mp h]
  | cons n ns ih =>
    obtain ⟨m, ms, rfl, hm, hms⟩ := List.map_eq_cons_iff.mp h
    rw [hcons, hcons, hm, ih hms]

theorem plainTextAll_congr {ns ms : List Node} (h : ms.map Node.plainText = ns.map Node.plainText) :
    Node.plainTextAll ms = Node.plainTextAll ns :=
  all_congr (fun s rest => s ++ rest) (fun _ _ => rfl) h

theorem markupAll_congr {ns ms : List Node} (h : ms.map Node.markup = ns.map Node.markup) :
    Node.markupAll ms = Node.markupAll ns := by
  refine all_congr (fun r rest => r.bind fun s => rest.map (s ++ ·)) (fun n ns => ?_) h
  rw [Node.markupAll]
  cases n.markup <;> rfl

theorem compositional_plainText : Compositional Node.plainText := by
  intro kind content children children' h
  rw [Node.plainText, Node.plainText, plainTextAll_congr h]

/-- Markup is written from the children or from the content tokens, and children that show the
same are as many. -/
theorem compositional_markup : Compositional Node.markup := by
  intro kind content children children' h
  have hempty : children'.isEmpty = children.isEmpty := by
    rw [← List.isEmpty_map, h, List.isEmpty_map]
  rw [Node.markup, Node.markup, hempty, markupAll_congr h]

/-! ### What a rewrite keeps -/

/-- The function makes nodes of the language of such nodes, and keeps what `g` shows of them. -/
def Preserves (f : Node → Node) (g : Node → α) : Prop :=
  ∀ n : Node, n.Inline → (f n).Inline ∧ g (f n) = g n

variable {f : Node → Node} {g : Node → α}

/-- Whichever children a container keeps, they show what its own children show. -/
theorem map_putBack {children rewritten : List Node} (h : rewritten.map g = children.map g) :
    (putBack children rewritten).map g = children.map g := by
  unfold putBack
  split
  · rfl
  · exact h

theorem forall_mem_putBack {P : Node → Prop} {children rewritten : List Node}
    (h : ∀ n ∈ children, P n) (h' : ∀ n ∈ rewritten, P n) :
    ∀ n ∈ putBack children rewritten, P n := by
  unfold putBack
  split
  · exact h
  · exact h'

theorem transform_of_rewritten {ns : List Node}
    (h : ∀ n ∈ ns, (n.rewritten f).Inline ∧ g (n.rewritten f) = g n) :
    (∀ n ∈ transform f ns, n.Inline) ∧ (transform f ns).map g = ns.map g := by
  rw [transform_eq_map, List.forall_mem_map, List.map_map]
  exact ⟨fun n hn => (h n hn).1, List.map_congr_left fun n hn => (h n hn).2⟩

/-- **What is kept of each node is kept of a rewritten node.** The container that the function
is given shows what the container showed that was there. -/
theorem Preserves.rewritten (hg : Compositional g) (hf : Preserves f g) {n : Node}
    (hn : n.Inline) : (n.rewritten f).Inline ∧ g (n.rewritten f) = g n := by
  induction n using Node.induction with
  | container kind content children ih =>
    obtain ⟨hkind, hchildren⟩ := Node.inline_container_iff.mp hn
    obtain ⟨hinline, hshown⟩ := transform_of_rewritten fun n hn => ih n hn (hchildren n hn)
    have hpresented : (Node.container kind content
        (putBack children (transform f children))).Inline :=
      Node.inline_container_iff.mpr ⟨hkind, forall_mem_putBack hchildren hinline⟩
    obtain ⟨hmade, hkept⟩ := hf _ hpresented
    rw [Node.rewritten_eq, Node.presented]
    exact ⟨hmade, hkept.trans (hg kind content children _ (map_putBack hshown))⟩
  | _ =>
    rw [Node.rewritten_eq, Node.presented_of_plain rfl]
    exact hf _ hn

theorem Preserves.map_transform (hg : Compositional g) (hf : Preserves f g) {nodes : List Node}
    (hnodes : ∀ n ∈ nodes, n.Inline) : (transform f nodes).map g = nodes.map g :=
  (transform_of_rewritten fun n hn => hf.rewritten hg (hnodes n hn)).2

/-- **A rewrite keeps what its function keeps.** Nodes of the language have markup. When a
function keeps the markup of each such node, the rewritten nodes have the markup of the nodes
that were there; and so for the plain text. The function may make nodes of other classes,
among those of the language. -/
theorem rewrite_keeps_text :
    (∀ f : Node → Node, Preserves f Node.markup → ∀ nodes : List Node,
      (∀ n ∈ nodes, n.Inline) →
        ∃ s, markup nodes = .ok s ∧ markup (transform f nodes) = .ok s) ∧
    ∀ f : Node → Node, Preserves f Node.plainText → ∀ nodes : List Node,
      (∀ n ∈ nodes, n.Inline) → plainText (transform f nodes) = plainText nodes := by
  constructor
  · intro f hf nodes hnodes
    obtain ⟨s, hs⟩ := exists_markupAll fun n hn => Node.exists_markup (hnodes n hn)
    have hkept : Node.markupAll (transform f nodes) = Node.markupAll nodes :=
      markupAll_congr (hf.map_transform compositional_markup hnodes)
    exact ⟨s, hs, hkept.trans hs⟩
  · intro f hf nodes hnodes
    exact plainTextAll_congr (hf.map_transform compositional_plainText hnodes)

/-- A node replaced by its markup as literal text. -/
def Node.literal (n : Node) : Node :=
  match n.markup with
  | .ok s => .text s
  | .error _ => n

theorem preserves_literal : Preserves Node.literal Node.markup := by
  intro n hn
  obtain ⟨s, hs⟩ := Node.exists_markup hn
  have hliteral : n.literal = .text s := by rw [Node.literal, hs]
  rw [hliteral, hs]
  exact ⟨Node.inline_of_plain rfl (List.mem_cons_self ..), rfl⟩

/-- A node replaced by its plain text. -/
def Node.flattened (n : Node) : Node :=
  .text n.plainText

theorem preserves_flattened : Preserves Node.flattened Node.plainText :=
  fun _ _ => ⟨Node.inline_of_plain rfl (List.mem_cons_self ..), rfl⟩

/-- A bold tag becomes literal text that has the same markup, or text that reads the same. -/
theorem rewrite_keeps_text_literal :
    Preserves Node.literal Node.markup ∧ Preserves Node.flattened Node.plainText ∧
    (∀ n ∈ [Node.container .bold [⟨.text, "x", 2⟩] [.tag "a"]], n.Inline) ∧
    (∃ s, markup [.container .bold [⟨.text, "x", 2⟩] [.tag "a"]] = .ok s ∧
      markup (transform Node.literal [.container .bold [⟨.text, "x", 2⟩] [.tag "a"]]) = .ok s) ∧
    plainText (transform Node.flattened [.container .bold [⟨.text, "x", 2⟩] [.tag "a"]]) =
      plainText [.container .bold [⟨.text, "x", 2⟩] [.tag "a"]] := by
  have hinline : ∀ n ∈ [Node.container .bold [⟨.text, "x", 2⟩] [.tag "a"]], n.Inline := by decide
  exact ⟨preserves_literal, preserves_flattened, hinline,
    rewrite_keeps_text.1 Node.literal preserves_literal _ hinline,
    rewrite_keeps_text.2 Node.flattened preserves_flattened _ hinline⟩

end InlineMarkup
