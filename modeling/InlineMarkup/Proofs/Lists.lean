/-
# Lists and readers

Facts about association lists, about slices, about the items between two indices, about
relations between the items of two lists, and about readers that go through a list and end
with the first fault.

Key theorems: `lookup_eq_some_iff_mem`, `extract_inj`, `exists_split_iff`,
`forall₂_iff_exists_map`, `mapM_eq_ok_iff`, `mapM_eq_error_iff`.
-/
import Mathlib.Data.List.Basic
import Mathlib.Data.List.Forall2
import Mathlib.Data.List.Nodup

namespace InlineMarkup

/-! ### Association lists -/

section Lookup

variable {α β : Type} [BEq α] [LawfulBEq α] {k : α} {v : β} {l : List (α × β)}

theorem mem_of_lookup (h : l.lookup k = some v) : (k, v) ∈ l := by
  obtain ⟨front, back, rfl, -⟩ := List.lookup_eq_some_iff.mp h
  exact List.mem_append_right front List.mem_cons_self

theorem lookup_eq_some_iff_mem (h : (l.map Prod.fst).Nodup) : l.lookup k = some v ↔ (k, v) ∈ l := by
  refine ⟨mem_of_lookup, fun hmem => ?_⟩
  obtain ⟨front, back, rfl⟩ := List.append_of_mem hmem
  refine List.lookup_eq_some_iff.mpr ⟨front, back, rfl, fun p hp => ?_⟩
  rw [List.map_append, List.nodup_append] at h
  exact bne_iff_ne.mpr (h.2.2 p.1 (List.mem_map_of_mem hp) k (by simp)).symm

end Lookup

/-! ### Slices -/

theorem extract_between {α : Type} (front us back : List α) :
    (front ++ us ++ back).extract front.length (front.length + us.length) = us := by
  rw [List.extract_eq_take_drop, List.append_assoc, List.drop_left, Nat.add_sub_cancel_left,
    List.take_left]

theorem extract_isInfix {α : Type} (l : List α) (i j : Nat) : l.extract i j <:+: l := by
  rw [List.extract_eq_take_drop]
  exact (List.take_prefix _ _).isInfix.trans (List.drop_suffix _ _).isInfix

theorem extract_inj {α : Type} {l : List α} (h : l.Nodup) {i j i' j' : Nat} (hij : i < j)
    (hj : j ≤ l.length) (hij' : i' < j') (hj' : j' ≤ l.length)
    (heq : l.extract i j = l.extract i' j') : i = i' ∧ j = j' := by
  have hi : i < l.length := Nat.lt_of_lt_of_le hij hj
  have hi' : i' < l.length := Nat.lt_of_lt_of_le hij' hj'
  have hfirst : l[i] = l[i'] := by
    have hhead := congrArg List.head? heq
    simpa [List.extract_eq_take_drop, List.head?_take, Nat.sub_ne_zero_of_lt, hij, hij',
      List.head?_drop, List.getElem?_eq_getElem, hi, hi'] using hhead
  obtain rfl := h.getElem_inj_iff.mp hfirst
  have hlength := congrArg List.length heq
  simp only [List.extract_eq_take_drop, List.length_take, List.length_drop] at hlength
  omega

/-! ### Items by their indices -/

theorem drop_succ_of_drop_eq {α : Type} {l rest : List α} {n : Nat} {x : α}
    (h : l.drop n = x :: rest) : l.drop (n + 1) = rest := by
  rw [← List.tail_drop, h, List.tail_cons]

/-- The items from one index on up to another, the item there and the rest. -/
theorem exists_split_iff {α : Type} {P Q : α → Prop} {l : List α} {i n : Nat} :
    (∃ front x back, l.drop i = front ++ x :: back ∧ (∀ y ∈ front, P y) ∧ Q x ∧
        n = i + front.length) ↔
      i ≤ n ∧ (∃ x ∈ l[n]?, Q x) ∧ ∀ k < n, i ≤ k → ∀ y ∈ l[k]?, P y := by
  constructor
  · rintro ⟨front, x, back, hl, hP, hQ, rfl⟩
    refine ⟨Nat.le_add_right _ _, ⟨x, ?_, hQ⟩, fun k hk hik y hy => hP y ?_⟩
    · rw [← List.getElem?_drop, hl]
      simp
    · obtain ⟨m, rfl⟩ := Nat.exists_eq_add_of_le hik
      rw [← List.getElem?_drop, hl, List.getElem?_append_left (by omega)] at hy
      exact List.mem_of_getElem? hy
  · rintro ⟨hle, ⟨x, hx, hQ⟩, hP⟩
    obtain ⟨m, rfl⟩ := Nat.exists_eq_add_of_le hle
    rw [← List.getElem?_drop] at hx
    obtain ⟨hm, rfl⟩ := List.getElem?_eq_some_iff.mp hx
    refine ⟨(l.drop i).take m, _, (l.drop i).drop (m + 1), ?_, fun y hy => ?_, hQ, ?_⟩
    · rw [← List.drop_eq_getElem_cons hm, List.take_append_drop]
    · obtain ⟨k, hk, rfl⟩ := List.mem_take_iff_getElem.mp hy
      refine hP (i + k) (by omega) (Nat.le_add_right _ _) _ ?_
      rw [← List.getElem?_drop]
      exact List.getElem?_eq_getElem _
    · rw [List.length_take]
      omega

/-! ### Relations between items -/

section Relations

variable {α β : Type}

theorem exists_of_forall₂ {R : α → β → Prop} {xs : List α} {ys : List β}
    (h : List.Forall₂ R xs ys) : ∀ y ∈ ys, ∃ x ∈ xs, R x y := by
  induction h with
  | nil => exact fun _ hy => absurd hy List.not_mem_nil
  | cons hxy _ ih =>
    intro y hy
    obtain rfl | hy := List.mem_cons.mp hy
    · exact ⟨_, List.mem_cons_self, hxy⟩
    · exact (ih y hy).imp fun x hx => ⟨List.mem_cons_of_mem _ hx.1, hx.2⟩

theorem exists_forall₂ {R : α → β → Prop} {xs : List α} (h : ∀ x ∈ xs, ∃ y, R x y) :
    ∃ ys, List.Forall₂ R xs ys := by
  induction xs with
  | nil => exact ⟨[], .nil⟩
  | cons x xs ih =>
    obtain ⟨⟨y, hy⟩, hxs⟩ := List.forall_mem_cons.mp h
    obtain ⟨ys, hys⟩ := ih hxs
    exact ⟨y :: ys, .cons hy hys⟩

/-- When one relation is another followed by a function, item by item, so it is of lists. -/
theorem forall₂_iff_exists_map {R S : α → β → Prop} {f : β → β} : ∀ {xs : List α},
    (∀ x ∈ xs, ∀ y, S x y ↔ ∃ z, R x z ∧ f z = y) → ∀ {ys : List β},
      List.Forall₂ S xs ys ↔ ∃ zs, List.Forall₂ R xs zs ∧ zs.map f = ys
  | [], _, ys => by simp [List.forall₂_nil_left_iff, eq_comm]
  | x :: xs, h, ys => by
    obtain ⟨hx, hxs⟩ := List.forall_mem_cons.mp h
    rw [List.forall₂_cons_left_iff]
    constructor
    · rintro ⟨y, ys, hy, hys, rfl⟩
      obtain ⟨z, hz, rfl⟩ := (hx y).mp hy
      obtain ⟨zs, hzs, rfl⟩ := (forall₂_iff_exists_map hxs).mp hys
      exact ⟨z :: zs, .cons hz hzs, rfl⟩
    · rintro ⟨all, hall, rfl⟩
      obtain ⟨z, zs, hz, hzs, rfl⟩ := List.forall₂_cons_left_iff.mp hall
      have hmap := (forall₂_iff_exists_map hxs).mpr ⟨zs, hzs, rfl⟩
      exact ⟨f z, zs.map f, (hx _).mpr ⟨z, hz, rfl⟩, hmap, rfl⟩

end Relations

/-! ### Readers -/

section Readers

variable {α β ε : Type}

theorem bind_eq_ok_iff {x : Except ε α} {f : α → Except ε β} {b : β} :
    (x >>= f) = .ok b ↔ ∃ a, x = .ok a ∧ f a = .ok b := by
  cases x with
  | error fault => exact ⟨fun h => (nomatch h), by rintro ⟨_, ⟨⟩, _⟩⟩
  | ok a =>
    refine ⟨fun h => ⟨a, rfl, h⟩, ?_⟩
    rintro ⟨_, ⟨⟩, hf⟩
    exact hf

theorem bind_eq_error_iff {x : Except ε α} {f : α → Except ε β} {fault : ε} :
    (x >>= f) = .error fault ↔ x = .error fault ∨ ∃ a, x = .ok a ∧ f a = .error fault := by
  cases x with
  | error fault' =>
    refine ⟨fun h => .inl (congrArg _ (Except.error.inj h)), ?_⟩
    rintro (⟨⟨⟩⟩ | ⟨_, ⟨⟩, _⟩)
    rfl
  | ok a =>
    refine ⟨fun h => .inr ⟨a, rfl, h⟩, ?_⟩
    rintro (h | ⟨_, ⟨⟩, hf⟩)
    · cases h
    · exact hf

theorem map_eq_ok_iff {x : Except ε α} {f : α → β} {b : β} :
    x.map f = .ok b ↔ ∃ a, x = .ok a ∧ f a = b := by
  cases x <;> simp [Except.map]

theorem map_eq_error_iff {x : Except ε α} {f : α → β} {fault : ε} :
    x.map f = .error fault ↔ x = .error fault := by
  cases x <;> simp [Except.map]

variable {f : α → Except ε β}

/-- What is read one after the other succeeds when each is. -/
theorem mapM_eq_ok_iff {xs : List α} {ys : List β} :
    xs.mapM f = .ok ys ↔ List.Forall₂ (fun x y => f x = .ok y) xs ys := by
  induction xs generalizing ys with
  | nil =>
    rw [List.mapM_nil, List.forall₂_nil_left_iff]
    exact ⟨fun h => (Except.ok.inj h).symm, fun h => h ▸ rfl⟩
  | cons x xs ih =>
    rw [List.mapM_cons, List.forall₂_cons_left_iff, bind_eq_ok_iff]
    constructor
    · rintro ⟨y, hy, h⟩
      obtain ⟨zs, hzs, h⟩ := bind_eq_ok_iff.mp h
      exact ⟨y, zs, hy, ih.mp hzs, (Except.ok.inj h).symm⟩
    · rintro ⟨y, zs, hy, hzs, rfl⟩
      exact ⟨y, hy, bind_eq_ok_iff.mpr ⟨zs, ih.mpr hzs, rfl⟩⟩

/-- What is read one after the other fails as the first of them does that fails. -/
theorem mapM_eq_error_iff {xs : List α} {fault : ε} : xs.mapM f = .error fault ↔
    ∃ front x back, xs = front ++ x :: back ∧ (∀ w ∈ front, ∃ y, f w = .ok y) ∧
      f x = .error fault := by
  induction xs with
  | nil =>
    constructor
    · intro h
      cases h
    · rintro ⟨front, x, back, hsplit, -⟩
      exact absurd hsplit.symm (by simp)
  | cons x xs ih =>
    rw [List.mapM_cons]
    constructor
    · intro h
      obtain hx | ⟨y, hy, h⟩ := bind_eq_error_iff.mp h
      · exact ⟨[], x, xs, rfl, by simp, hx⟩
      · obtain hxs | ⟨_, -, h⟩ := bind_eq_error_iff.mp h
        · obtain ⟨front, z, back, rfl, hfront, hz⟩ := ih.mp hxs
          exact ⟨x :: front, z, back, rfl, List.forall_mem_cons.mpr ⟨⟨y, hy⟩, hfront⟩, hz⟩
        · cases h
    · rintro ⟨front, z, back, hsplit, hfront, hz⟩
      cases front with
      | nil =>
        obtain ⟨rfl, rfl⟩ := List.cons.inj hsplit
        exact bind_eq_error_iff.mpr (.inl hz)
      | cons w front =>
        obtain ⟨rfl, rfl⟩ := List.cons.inj hsplit
        obtain ⟨⟨y, hy⟩, hfront⟩ := List.forall_mem_cons.mp hfront
        have hrest := ih.mpr ⟨front, z, back, rfl, hfront, hz⟩
        exact bind_eq_error_iff.mpr (.inr ⟨y, hy, bind_eq_error_iff.mpr (.inl hrest)⟩)

end Readers

end InlineMarkup
