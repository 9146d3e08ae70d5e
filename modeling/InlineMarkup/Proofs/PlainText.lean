/-
# Plain text only drops characters

The plain text of a node is its markup without some of the characters, the others in their
order. A text and a tag drop nothing; every other node drops at least the delimiter it opens with, an
image and a link the address as well, and a container what its children drop
(`Node.plainText_cases`). So the plain text of nodes is a subsequence of their markup, and it is
all of it exactly if there are only texts and tags at the top
(`plainTextAll_sublist`, `plainTextAll_eq_iff`).

The markup of a parsed note is the note. What holds of the markup of any nodes, built by hand or
rewritten, so holds of the note, whichever built-in matchers parsed it.

Key definitions: `Node.KeepsAll`, `Drops`.
Key theorems: `Node.plainText_cases`, `plainTextAll_sublist`, `plainTextAll_eq_iff`,
`plainText_parse`.
-/
import InlineMarkup.Proofs.Forest
import InlineMarkup.Proofs.Losslessness

namespace InlineMarkup

/-! ### Dropped characters -/

/-- What is left of `s` when characters are dropped, and some of them are. -/
structure Drops (s t : String) : Prop where
  sublist : t.toList.Sublist s.toList
  shorter : t.length < s.length

/-- What is left of a text is left of it between delimiters, which are dropped. -/
theorem Drops.between {s t : String} (h : t.toList.Sublist s.toList) {opener : String}
    (hopener : opener ≠ "") (closer : String) : Drops (opener ++ s ++ closer) t where
  sublist := by
    rw [String.toList_append, String.toList_append]
    exact (h.trans (List.sublist_append_right _ _)).trans (List.sublist_append_left _ _)
  shorter := by
    have hle : t.length ≤ s.length := by
      rw [← String.length_toList, ← String.length_toList]
      exact h.length_le
    have hpos : 0 < opener.length := by
      rw [← String.length_toList]
      exact List.length_pos_iff.mpr (mt String.toList_eq_nil_iff.mp hopener)
    rw [String.length_append, String.length_append]
    omega

theorem Drops.ne {s t : String} (h : Drops s t) : t ≠ s := by
  rintro rfl
  exact Nat.lt_irrefl _ h.shorter

theorem append_eq_append_iff_of_sublist {s t s' t' : String} (h : t.toList.Sublist s.toList)
    (h' : t'.toList.Sublist s'.toList) : t ++ t' = s ++ s' ↔ t = s ∧ t' = s' := by
  constructor
  · intro heq
    have hchars : t.toList ++ t'.toList = s.toList ++ s'.toList := by
      rw [← String.toList_append, heq, String.toList_append]
    have hlength : t.toList.length = s.toList.length := by
      have hsum := congrArg List.length hchars
      rw [List.length_append, List.length_append] at hsum
      have hle := h.length_le
      have hle' := h'.length_le
      omega
    obtain ⟨hleft, hright⟩ := List.append_inj hchars hlength
    exact ⟨String.toList_inj.mp hleft, String.toList_inj.mp hright⟩
  · rintro ⟨rfl, rfl⟩
    rfl

/-! ### Nodes in a row -/

theorem markupAll_cons_eq_ok_iff {n : Node} {ns : List Node} {s : String} :
    Node.markupAll (n :: ns) = .ok s ↔
      ∃ a b, n.markup = .ok a ∧ Node.markupAll ns = .ok b ∧ s = a ++ b := by
  constructor
  · intro h
    rw [Node.markupAll] at h
    cases hn : n.markup with
    | error fault =>
      rw [hn] at h
      cases h
    | ok a =>
      rw [hn] at h
      obtain ⟨b, hb, rfl⟩ := map_eq_ok_iff.mp h
      exact ⟨a, b, rfl, hb, rfl⟩
  · rintro ⟨a, b, hn, hns, rfl⟩
    exact markupAll_cons hn hns

theorem plainTextAll_sublist_of_forall : ∀ {ns : List Node},
    (∀ n ∈ ns, ∀ s, n.markup = .ok s → n.plainText.toList.Sublist s.toList) →
      ∀ {s : String}, Node.markupAll ns = .ok s → (Node.plainTextAll ns).toList.Sublist s.toList
  | [], _, s, _ => by
    rw [Node.plainTextAll, String.toList_empty]
    exact List.nil_sublist _
  | n :: ns, h, s, hs => by
    obtain ⟨hn, hns⟩ := List.forall_mem_cons.mp h
    obtain ⟨a, b, ha, hb, rfl⟩ := markupAll_cons_eq_ok_iff.mp hs
    rw [Node.plainTextAll, String.toList_append, String.toList_append]
    exact (hn a ha).append (plainTextAll_sublist_of_forall hns hb)

/-! ### What a node drops -/

namespace Node

/-- A node of which nothing is dropped: a text or a tag. -/
def KeepsAll (n : Node) : Prop :=
  n.cls = .text ∨ n.cls = .tag

theorem not_keepsAll_container (kind : ContainerKind) (content : List Token) (children : List Node) :
    ¬ (container kind content children).KeepsAll := by
  unfold KeepsAll cls
  cases kind <;> simp [ContainerKind.cls]

/-- A container is written between two delimiters. Between them stands the markup of its children,
if it has any. -/
theorem exists_inner_of_markup {kind : ContainerKind} {content : List Token}
    {children : List Node} {s : String} (h : (container kind content children).markup = .ok s) :
    ∃ marker inner, marker ≠ "" ∧ s = marker ++ inner ++ marker ∧
      (children = [] ∨ markupAll children = .ok inner) := by
  rw [markup] at h
  cases hmarker : kind.marker? with
  | none =>
    rw [hmarker] at h
    cases h
  | some marker =>
    have hne : marker ≠ "" := by
      rintro rfl
      cases kind <;> simp [ContainerKind.marker?] at hmarker
    simp only [hmarker] at h
    by_cases hchildren : children.isEmpty = true
    · rw [if_pos hchildren] at h
      exact ⟨marker, joinTokens content, hne, (Except.ok.inj h).symm,
        .inl (List.isEmpty_iff.mp hchildren)⟩
    · rw [if_neg hchildren] at h
      obtain ⟨inner, hinner, hs⟩ := map_eq_ok_iff.mp h
      exact ⟨marker, inner, hne, hs.symm, .inr hinner⟩

/-- **What a node drops.** A text or a tag reads as it is written, and every other node drops
characters of its markup. The induction is on the node, for the children of containers. -/
theorem plainText_cases {n : Node} {s : String} (h : n.markup = .ok s) :
    (n.KeepsAll ∧ n.plainText = s) ∨ (¬ n.KeepsAll ∧ Drops s n.plainText) := by
  induction n using Node.induction generalizing s with
  | bare => cases h
  | text content =>
    cases h
    exact .inl ⟨.inl rfl, rfl⟩
  | tag content =>
    cases h
    exact .inl ⟨.inr rfl, rfl⟩
  | code content =>
    cases h
    exact .inr ⟨by simp [KeepsAll, cls], .between (List.Sublist.refl _) (by decide) _⟩
  | wikiLink target =>
    cases h
    exact .inr ⟨by simp [KeepsAll, cls], .between (List.Sublist.refl _) (by decide) _⟩
  | highlight content =>
    cases h
    exact .inr ⟨by simp [KeepsAll, cls], .between (List.Sublist.refl _) (by decide) _⟩
  | image alt url =>
    cases h
    refine .inr ⟨by simp [KeepsAll, cls], ?_⟩
    have hshown : "![" ++ alt ++ "](" ++ url ++ ")" = "![" ++ alt ++ ("](" ++ url ++ ")") := by
      simp only [String.append_assoc]
    rw [hshown]
    exact .between (List.Sublist.refl _) (by decide) _
  | link label url =>
    cases h
    refine .inr ⟨by simp [KeepsAll, cls], ?_⟩
    have hshown : "[" ++ label ++ "](" ++ url ++ ")" = "[" ++ label ++ ("](" ++ url ++ ")") := by
      simp only [String.append_assoc]
    rw [hshown]
    exact .between (List.Sublist.refl _) (by decide) _
  | container kind content children ih =>
    refine .inr ⟨not_keepsAll_container kind content children, ?_⟩
    obtain ⟨marker, inner, hne, rfl, hinner⟩ := exists_inner_of_markup h
    apply Drops.between _ hne
    rw [plainText]
    rcases hinner with rfl | hinner
    · exact List.nil_sublist _
    · apply plainTextAll_sublist_of_forall _ hinner
      intro n hn t ht
      rcases ih n hn ht with ⟨-, rfl⟩ | ⟨-, hdrops⟩
      · exact List.Sublist.refl _
      · exact hdrops.sublist

theorem plainText_sublist {n : Node} {s : String} (h : n.markup = .ok s) :
    n.plainText.toList.Sublist s.toList := by
  rcases plainText_cases h with ⟨-, rfl⟩ | ⟨-, hdrops⟩
  · exact List.Sublist.refl _
  · exact hdrops.sublist

theorem plainText_eq_iff {n : Node} {s : String} (h : n.markup = .ok s) :
    n.plainText = s ↔ n.KeepsAll := by
  rcases plainText_cases h with ⟨hkeeps, hs⟩ | ⟨hkeeps, hdrops⟩
  · exact iff_of_true hs hkeeps
  · exact iff_of_false hdrops.ne hkeeps

end Node

/-- **Plain text only drops characters.** -/
theorem plainTextAll_sublist {ns : List Node} {s : String} (h : Node.markupAll ns = .ok s) :
    (Node.plainTextAll ns).toList.Sublist s.toList :=
  plainTextAll_sublist_of_forall (fun _ _ _ => Node.plainText_sublist) h

/-- **Nothing is dropped of texts and tags**, and something of all other nodes. -/
theorem plainTextAll_eq_iff : ∀ {ns : List Node} {s : String}, Node.markupAll ns = .ok s →
    (Node.plainTextAll ns = s ↔ ∀ n ∈ ns, n.KeepsAll)
  | [], s, h => by
    cases h
    exact iff_of_true rfl (by simp)
  | n :: ns, s, h => by
    obtain ⟨a, b, ha, hb, rfl⟩ := markupAll_cons_eq_ok_iff.mp h
    rw [Node.plainTextAll, List.forall_mem_cons, ← Node.plainText_eq_iff ha,
      ← plainTextAll_eq_iff hb]
    exact append_eq_append_iff_of_sublist (Node.plainText_sublist ha) (plainTextAll_sublist hb)

/-! ### The plain text of a note -/

theorem exists_parse_plainText {e : Engine} (he : e.matchers ⊆ builtIns) (source : String) :
    ∃ nodes, (e.parse (tokenize source)).result = .ok nodes ∧
      (plainText nodes).toList.Sublist source.toList ∧
      (plainText nodes = source ↔ ∀ n ∈ nodes, n.KeepsAll) := by
  obtain ⟨nodes, hparse, hmarkup, -⟩ := exists_parse he (repeats_of_mem_tokenize source)
  rw [joinTokens_tokenize] at hmarkup
  exact ⟨nodes, hparse, plainTextAll_sublist hmarkup, plainTextAll_eq_iff hmarkup⟩

/-- **Plain text only drops characters.** The plain text of a parsed note is a subsequence of the
note. It is the note exactly if every node at the top is a text or a tag. The same holds of the
markup of any nodes that have one. -/
theorem plainText_parse :
    (∀ e : Engine, e.matchers ⊆ builtIns → ∀ source : String,
      ∃ nodes, (e.parse (tokenize source)).result = .ok nodes ∧
        (plainText nodes).toList.Sublist source.toList ∧
        (plainText nodes = source ↔ ∀ n ∈ nodes, n.cls = .text ∨ n.cls = .tag)) ∧
    (∀ (source : String) (own : Option Settings) (ambient : Settings),
      (own.getD ambient).registryInUse.entries ⊆ Entry.builtIns →
      ∃ nodes, ((parseInline source own).run ambient).1.result = .ok (Node.storedAll nodes) ∧
        Loose.plainText (Node.storedAll nodes) = .ok (plainText nodes) ∧
        (plainText nodes).toList.Sublist source.toList ∧
        (plainText nodes = source ↔ ∀ n ∈ nodes, n.cls = .text ∨ n.cls = .tag)) ∧
    ∀ (nodes : List Node) (s : String), markup nodes = .ok s →
      (plainText nodes).toList.Sublist s.toList ∧
      (plainText nodes = s ↔ ∀ n ∈ nodes, n.cls = .text ∨ n.cls = .tag) := by
  refine ⟨fun e he source => exists_parse_plainText he source, fun source own ambient h => ?_,
    fun nodes s h => ⟨plainTextAll_sublist h, plainTextAll_eq_iff h⟩⟩
  obtain ⟨nodes, hparse, hsublist, hall⟩ :=
    exists_parseInline (fun e he => exists_parse_plainText he source) h
  refine ⟨nodes, hparse, ?_, hsublist, hall⟩
  rw [Loose.plainText, Loose.joinedAnswers, Value.nodes?_storedAll]

/-- A note with a container inside a container that is left as text, a note with an image under the
default settings, and bold text without children, of which all is dropped. -/
theorem plainText_parse_reverse :
    (∃ nodes, (Engine.parse ⟨builtIns.reverse, 1, false⟩
        (tokenize "**a ~~[b](u)~~** #c")).result = .ok nodes ∧
      (plainText nodes).toList.Sublist "**a ~~[b](u)~~** #c".toList ∧
      (plainText nodes = "**a ~~[b](u)~~** #c" ↔ ∀ n ∈ nodes, n.cls = .text ∨ n.cls = .tag)) ∧
    (∃ nodes, ((parseInline "![a](b) c").run {}).1.result = .ok (Node.storedAll nodes) ∧
      Loose.plainText (Node.storedAll nodes) = .ok (plainText nodes) ∧
      (plainText nodes).toList.Sublist "![a](b) c".toList ∧
      (plainText nodes = "![a](b) c" ↔ ∀ n ∈ nodes, n.cls = .text ∨ n.cls = .tag)) ∧
    markup [.container .bold [⟨.text, "x", 2⟩] [], .tag "b"] = .ok "**x**#b" ∧
      (plainText [.container .bold [⟨.text, "x", 2⟩] [], .tag "b"]).toList.Sublist "**x**#b".toList ∧
      (plainText [.container .bold [⟨.text, "x", 2⟩] [], .tag "b"] = "**x**#b" ↔
        ∀ n ∈ [Node.container .bold [⟨.text, "x", 2⟩] [], .tag "b"], n.cls = .text ∨ n.cls = .tag) := by
  obtain ⟨hengine, hsettings, hnodes⟩ := plainText_parse
  have hmarkup : markup [.container .bold [⟨.text, "x", 2⟩] [], .tag "b"] = .ok "**x**#b" := rfl
  exact ⟨hengine ⟨builtIns.reverse, 1, false⟩ (fun m hm => List.mem_reverse.mp hm) _,
    hsettings _ none {} (List.Subset.refl _), hmarkup, hnodes _ _ hmarkup⟩

end InlineMarkup
