/-
# Merged texts

Merging replaces each run of neighbouring texts by one text and keeps every other
node (`exists_texts_of_mem`, `mem_of_mem_mergeTexts`). It may be done in parts
first: what is merged twice is merged once (`mergeTexts_append_left`,
`mergeTexts_append_right`). What goes through nodes one by one and cannot tell a text
from the two it is joined of is the same of merged nodes (`IgnoresJoins.mergeTexts`). A
change of nodes that keeps texts apart from other nodes may be made before merging or behind
it (`MapsTexts.mergeTexts`).

Key definitions: `IgnoresJoins`, `MapsTexts`.
Key theorems: `mergeTexts_cons_cases`, `mem_of_mem_mergeTexts`, `mem_mergeTexts_of_mem`,
`mergeTexts_append_left`, `IgnoresJoins.mergeTexts`, `MapsTexts.mergeTexts`.
-/
import InlineMarkup.Engine

namespace InlineMarkup

theorem Node.text_cases (n : Node) : (∃ a, n = .text a) ∨ ∀ a, n ≠ .text a :=
  (Classical.em _).imp_right not_exists.mp

theorem mergeTexts_cons {n : Node} (h : ∀ s, n ≠ .text s) (ns : List Node) :
    mergeTexts (n :: ns) = n :: mergeTexts ns := by
  cases n with
  | text s => exact absurd rfl (h s)
  | _ => rfl

theorem mergeText_cons {n : Node} (h : ∀ a, n ≠ .text a) (s : String) (ns : List Node) :
    mergeText s (n :: ns) = .text s :: n :: ns := by
  cases n with
  | text a => exact absurd rfl (h a)
  | _ => rfl

theorem mergeText_ne_nil (s : String) (ns : List Node) : mergeText s ns ≠ [] := by
  unfold mergeText
  split <;> exact List.cons_ne_nil _ _

theorem mergeTexts_ne_nil : ∀ {ns : List Node}, ns ≠ [] → mergeTexts ns ≠ []
  | [], h => absurd rfl h
  | n :: ns, _ => by
    cases n with
    | text s => exact mergeText_ne_nil s _
    | _ => exact List.cons_ne_nil _ _

theorem finish_ne_nil (e : Engine) {ns : List Node} (h : ns ≠ []) : e.finish ns ≠ [] := by
  unfold Engine.finish
  split
  · exact mergeTexts_ne_nil h
  · exact h

/-! ### Nodes of a merged list -/

theorem mergeText_cases (ns : List Node) :
    (∃ s' rest, ns = .text s' :: rest ∧ ∀ s, mergeText s ns = .text (s ++ s') :: rest) ∨
      ∀ s, mergeText s ns = .text s :: ns := by
  rcases ns with _ | ⟨n, ns⟩
  · exact .inr fun _ => rfl
  · cases n with
    | text s' => exact .inl ⟨s', ns, rfl, fun _ => rfl⟩
    | _ => exact .inr fun _ => rfl

/-- A node in front of merged nodes stands by itself, unless it is a text that joins the text
behind it. -/
theorem mergeTexts_cons_cases (n : Node) (ns : List Node) :
    mergeTexts (n :: ns) = n :: mergeTexts ns ∨
      ∃ a b rest, n = .text a ∧ mergeTexts ns = .text b :: rest ∧
        mergeTexts (n :: ns) = .text (a ++ b) :: rest := by
  rcases n.text_cases with ⟨a, rfl⟩ | hn
  · rw [mergeTexts]
    rcases mergeText_cases (mergeTexts ns) with ⟨b, rest, hns, hmerge⟩ | hmerge
    · exact .inr ⟨a, b, rest, rfl, hns, hmerge a⟩
    · exact .inl (hmerge a)
  · exact .inl (mergeTexts_cons hn ns)

/-- The text at the head of a merged list is a run of texts at the head. -/
theorem exists_texts_of_head {s : String} {rest : List Node} : ∀ {ns : List Node},
    mergeTexts ns = .text s :: rest →
    ∃ texts back, ns = texts.map Node.text ++ back ∧ texts ≠ [] ∧ s = String.join texts
  | [], h => by cases h
  | .text a :: ns, h => by
    rw [mergeTexts] at h
    rcases mergeText_cases (mergeTexts ns) with ⟨b, rest', hns, hm⟩ | hm
    · rw [hm a] at h
      obtain ⟨texts, back, rfl, -, rfl⟩ := exists_texts_of_head hns
      obtain ⟨hs, -⟩ := List.cons.inj h
      refine ⟨a :: texts, back, rfl, List.cons_ne_nil _ _, ?_⟩
      rw [String.join_cons, Node.text.inj hs]
    · rw [hm a] at h
      obtain ⟨hs, -⟩ := List.cons.inj h
      refine ⟨[a], ns, rfl, List.cons_ne_nil _ _, ?_⟩
      rw [String.join_cons, String.join_nil, String.append_empty, Node.text.inj hs]
  | .bare :: _, h => by cases h
  | .code _ :: _, h => by cases h
  | .image _ _ :: _, h => by cases h
  | .link _ _ :: _, h => by cases h
  | .wikiLink _ :: _, h => by cases h
  | .highlight _ :: _, h => by cases h
  | .tag _ :: _, h => by cases h
  | .container _ _ _ :: _, h => by cases h

theorem exists_texts_of_mem {s : String} {ns : List Node} (h : .text s ∈ mergeTexts ns) :
    ∃ front texts back, ns = front ++ (texts.map Node.text ++ back) ∧ texts ≠ [] ∧
      s = String.join texts := by
  induction ns with
  | nil => simp [mergeTexts] at h
  | cons n ns ih =>
    rcases n.text_cases with ⟨a, rfl⟩ | hn
    · rcases hm : mergeTexts (.text a :: ns) with _ | ⟨m, rest⟩
      · rw [hm] at h
        cases h
      · rw [hm] at h
        rcases List.mem_cons.mp h with rfl | h
        · obtain ⟨texts, back, hns, hne, hs⟩ := exists_texts_of_head hm
          exact ⟨[], texts, back, hns, hne, hs⟩
        · -- behind its head the list is as it is without the text in front
          have hrest : .text s ∈ mergeTexts ns := by
            rw [mergeTexts] at hm
            rcases mergeText_cases (mergeTexts ns) with ⟨b, rest', hns, hm'⟩ | hm'
            · rw [hm' a] at hm
              rw [hns]
              exact List.mem_cons_of_mem _ ((List.cons.inj hm).2 ▸ h)
            · rw [hm' a] at hm
              exact (List.cons.inj hm).2 ▸ h
          obtain ⟨front, texts, back, rfl, hne, hs⟩ := ih hrest
          exact ⟨.text a :: front, texts, back, rfl, hne, hs⟩
    · rw [mergeTexts_cons hn] at h
      rcases List.mem_cons.mp h with rfl | h
      · exact absurd rfl (hn s)
      · obtain ⟨front, texts, back, rfl, hne, hs⟩ := ih h
        exact ⟨n :: front, texts, back, rfl, hne, hs⟩

theorem mem_of_mem_mergeTexts {n : Node} (hn : ∀ s, n ≠ .text s) {ns : List Node}
    (h : n ∈ mergeTexts ns) : n ∈ ns := by
  induction ns with
  | nil => exact h
  | cons m ns ih =>
    rcases mergeTexts_cons_cases m ns with hkept | ⟨a, b, rest, rfl, hns, hjoined⟩
    · rw [hkept] at h
      rcases List.mem_cons.mp h with rfl | h
      · exact List.mem_cons_self
      · exact List.mem_cons_of_mem _ (ih h)
    · rw [hjoined] at h
      have hrest := (List.mem_cons.mp h).resolve_left (hn _)
      exact List.mem_cons_of_mem _ (ih (hns ▸ List.mem_cons_of_mem _ hrest))

theorem mem_mergeTexts_of_mem {n : Node} (hn : ∀ s, n ≠ .text s) {ns : List Node} (h : n ∈ ns) :
    n ∈ mergeTexts ns := by
  induction ns with
  | nil => exact h
  | cons m ns ih =>
    rcases mergeTexts_cons_cases m ns with hkept | ⟨a, b, rest, rfl, hns, hjoined⟩
    · rw [hkept]
      rcases List.mem_cons.mp h with rfl | h
      · exact List.mem_cons_self
      · exact List.mem_cons_of_mem _ (ih h)
    · have hmem := ih ((List.mem_cons.mp h).resolve_left (hn _))
      rw [hns] at hmem
      rw [hjoined]
      exact List.mem_cons_of_mem _ ((List.mem_cons.mp hmem).resolve_left (hn _))

theorem eq_singleton_of_mergeTexts {n : Node} (hn : ∀ s, n ≠ .text s) : ∀ {ns : List Node},
    mergeTexts ns = [n] → ns = [n]
  | [], h => by cases h
  | m :: ns, h => by
    rcases m.text_cases with ⟨s, rfl⟩ | hm
    · rw [mergeTexts] at h
      rcases mergeText_cases (mergeTexts ns) with ⟨s', rest, -, hmerge⟩ | hmerge
      · rw [hmerge] at h
        exact absurd (List.cons.inj h).1.symm (hn _)
      · rw [hmerge] at h
        exact absurd (List.cons.inj h).1.symm (hn _)
    · rw [mergeTexts_cons hm] at h
      obtain ⟨rfl, hrest⟩ := List.cons.inj h
      cases ns with
      | nil => rfl
      | cons m' ns => exact absurd hrest (mergeTexts_ne_nil (List.cons_ne_nil m' ns))

/-! ### Merging in parts -/

theorem mergeText_mergeText (s s' : String) (ns : List Node) :
    mergeText s (mergeText s' ns) = mergeText (s ++ s') ns := by
  rcases mergeText_cases ns with ⟨b, rest, rfl, hm⟩ | hm
  · rw [hm, hm, mergeText, String.append_assoc]
  · rw [hm, hm, mergeText]

theorem mergeTexts_mergeText_append (s : String) (ns ms : List Node) :
    mergeTexts (mergeText s ns ++ ms) = mergeText s (mergeTexts (ns ++ ms)) := by
  rcases mergeText_cases ns with ⟨b, rest, rfl, hm⟩ | hm
  · rw [hm, List.cons_append, List.cons_append, mergeTexts, mergeTexts, mergeText_mergeText]
  · rw [hm, List.cons_append, mergeTexts]

/-- What is merged on the left may be merged with the rest. -/
theorem mergeTexts_append_left (ns ms : List Node) :
    mergeTexts (mergeTexts ns ++ ms) = mergeTexts (ns ++ ms) := by
  induction ns with
  | nil => rfl
  | cons n ns ih =>
    rcases n.text_cases with ⟨a, rfl⟩ | hn
    · rw [mergeTexts, mergeTexts_mergeText_append, ih, List.cons_append, mergeTexts]
    · rw [mergeTexts_cons hn, List.cons_append, List.cons_append, mergeTexts_cons hn, ih,
        mergeTexts_cons hn]

theorem mergeTexts_append_right (ns ms : List Node) :
    mergeTexts (ns ++ mergeTexts ms) = mergeTexts (ns ++ ms) := by
  induction ns with
  | nil => simpa using mergeTexts_append_left ms []
  | cons n ns ih =>
    rcases n.text_cases with ⟨a, rfl⟩ | hn
    · rw [List.cons_append, List.cons_append, mergeTexts, mergeTexts, ih]
    · rw [List.cons_append, List.cons_append, mergeTexts_cons hn, mergeTexts_cons hn, ih]

theorem mergeTexts_texts : ∀ {texts : List String}, texts ≠ [] →
    mergeTexts (texts.map Node.text) = [.text (String.join texts)]
  | [], h => absurd rfl h
  | [s], _ => by simp [mergeTexts, mergeText, String.join_cons]
  | s :: s' :: texts, _ => by
    have ih := mergeTexts_texts (List.cons_ne_nil s' texts)
    rw [List.map_cons, mergeTexts, ih, mergeText, ← String.join_cons]

/-! ### What merging does not change -/

/-- A function of nodes goes through them one by one, and cannot tell a text from the two
texts in a row that it is joined of. -/
structure IgnoresJoins {α : Type} (f : List Node → α) : Prop where
  cons : ∀ (n : Node) {ns ms : List Node}, f ns = f ms → f (n :: ns) = f (n :: ms)
  joined : ∀ (a b : String) (ns : List Node), f (.text (a ++ b) :: ns) = f (.text a :: .text b :: ns)

namespace IgnoresJoins

variable {α : Type} {f : List Node → α}

theorem mergeTexts (h : IgnoresJoins f) (ns : List Node) : f (mergeTexts ns) = f ns := by
  induction ns with
  | nil => rfl
  | cons n ns ih =>
    rcases mergeTexts_cons_cases n ns with hkept | ⟨a, b, rest, rfl, hns, hjoined⟩
    · rw [hkept]
      exact h.cons n ih
    · rw [hns] at ih
      rw [hjoined, h.joined]
      exact h.cons _ ih

theorem finish (h : IgnoresJoins f) (e : Engine) (ns : List Node) : f (e.finish ns) = f ns := by
  unfold Engine.finish
  split
  · exact h.mergeTexts ns
  · rfl

end IgnoresJoins

/-! ### Changes that may be made before merging or behind it -/

/-- A change of nodes that makes texts of texts and nothing else into texts. What it makes of
joined texts is joined of what it makes of them. -/
structure MapsTexts (f : Node → Node) (t : String → String) : Prop where
  text : ∀ a, f (.text a) = .text (t a)
  append : ∀ a b, t (a ++ b) = t a ++ t b
  other : ∀ n, (∀ a, n ≠ .text a) → ∀ a, f n ≠ .text a

namespace MapsTexts

variable {f : Node → Node} {t : String → String}

theorem mergeText (h : MapsTexts f t) (s : String) (ns : List Node) :
    mergeText (t s) (ns.map f) = (mergeText s ns).map f := by
  cases ns with
  | nil => exact congrArg (fun n => [n]) (h.text s).symm
  | cons n ns =>
    rcases n.text_cases with ⟨a, rfl⟩ | hn
    · rw [List.map_cons, h.text, InlineMarkup.mergeText, InlineMarkup.mergeText, List.map_cons,
        h.text, h.append]
    · rw [mergeText_cons hn, List.map_cons, mergeText_cons (h.other n hn), List.map_cons, h.text,
        List.map_cons]

theorem mergeTexts (h : MapsTexts f t) (ns : List Node) :
    mergeTexts (ns.map f) = (mergeTexts ns).map f := by
  induction ns with
  | nil => rfl
  | cons n ns ih =>
    rcases n.text_cases with ⟨a, rfl⟩ | hn
    · rw [List.map_cons, h.text, InlineMarkup.mergeTexts, InlineMarkup.mergeTexts, ih, h.mergeText]
    · rw [mergeTexts_cons hn, List.map_cons, mergeTexts_cons (h.other n hn), ih, List.map_cons]

theorem finish (h : MapsTexts f t) (e : Engine) (ns : List Node) :
    e.finish (ns.map f) = (e.finish ns).map f := by
  unfold Engine.finish
  split
  · exact h.mergeTexts ns
  · rfl

end MapsTexts

end InlineMarkup
