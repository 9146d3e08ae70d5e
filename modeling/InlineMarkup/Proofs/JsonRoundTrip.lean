/-
# JSON values are read as they were written

The text of a value is read back to the value with the members of its objects in the
order of their names, on one line or with any indent (`parse_render`). A value is as
a reader can make it when no object has two members of one name (`Json.Proper`); only
a number of too many digits is not read back, and then the text is not read at all
(`parse_render_of_not_hasText`).

To put members in order only permutes them (`sortedMembers_perm`), so a name leads to
the same value as before (`lookup_sortedMembers`).

Key definitions: `Json.Proper`, `Json.ReadsBack`, `JsonCodec.Keeps`. Key theorems:
`Json.lookup_sortedMembers`, `Json.readsBack`, `Json.parse_render`,
`JsonCodec.keeps_standard`.
-/
import InlineMarkup.Proofs.JsonScalars
import InlineMarkup.Proofs.Lists
import InlineMarkup.Stored.Store
import Mathlib.Data.List.Sort

namespace InlineMarkup

namespace Json

/-- What holds of scalars, of an array if it does of its items, and of an object if it does
of the values of its members, holds of all values. -/
@[elab_as_elim]
theorem induction {P : Json → Prop} (null : P .null) (bool : ∀ b, P (.bool b))
    (int : ∀ n, P (.int n)) (str : ∀ s, P (.str s))
    (arr : ∀ items, (∀ v ∈ items, P v) → P (.arr items))
    (obj : ∀ members, (∀ m ∈ members, P m.2) → P (.obj members)) (v : Json) : P v :=
  @Json.rec P (fun vs => ∀ v ∈ vs, P v) (fun ms => ∀ m ∈ ms, P m.2) (fun m => P m.2)
    null bool int str arr obj
    (fun _ hv => absurd hv List.not_mem_nil)
    (fun _ _ hv hvs => List.forall_mem_cons.mpr ⟨hv, hvs⟩)
    (fun _ hm => absurd hm List.not_mem_nil)
    (fun _ _ hm hms => List.forall_mem_cons.mpr ⟨hm, hms⟩)
    (fun _ _ hv => hv) v

/-! ### Members in the order of their names -/

mutual

/-- No object in the value has two members of one name. -/
def Proper : Json → Prop
  | arr items => ProperItems items
  | obj members => (members.map Prod.fst).Nodup ∧ ProperMembers members
  | _ => True

/-- The values of a list are proper. -/
def ProperItems : List Json → Prop
  | [] => True
  | v :: vs => Proper v ∧ ProperItems vs

/-- The values of members are proper. -/
def ProperMembers : List (String × Json) → Prop
  | [] => True
  | (_, v) :: ms => Proper v ∧ ProperMembers ms

end

theorem properItems_iff {vs : List Json} : ProperItems vs ↔ ∀ v ∈ vs, v.Proper := by
  induction vs with
  | nil => simp [ProperItems]
  | cons v vs ih => rw [ProperItems, ih, List.forall_mem_cons]

theorem properMembers_iff {ms : List (String × Json)} :
    ProperMembers ms ↔ ∀ m ∈ ms, m.2.Proper := by
  induction ms with
  | nil => simp [ProperMembers]
  | cons m ms ih => rw [ProperMembers, ih, List.forall_mem_cons]

theorem sortedItems_eq_map : ∀ vs : List Json, sortedItems vs = vs.map sorted
  | [] => rfl
  | v :: vs => by rw [sortedItems, sortedItems_eq_map vs, List.map_cons]

/-- The order of the members by their names. -/
def NameLE (m n : String × Json) : Prop :=
  m.1 ≤ n.1

instance : DecidableRel NameLE := fun m n => inferInstanceAs (Decidable (m.1 ≤ n.1))

instance : Std.Total NameLE := ⟨fun _ _ => String.le_total _ _⟩

instance : IsTrans (String × Json) NameLE := ⟨fun _ _ _ => String.le_trans⟩

theorem insertSorted_eq_orderedInsert (m : String × Json) : ∀ ms : List (String × Json),
    insertSorted m ms = ms.orderedInsert NameLE m
  | [] => rfl
  | n :: ns => by
    rw [insertSorted, List.orderedInsert_cons, insertSorted_eq_orderedInsert m ns]
    rfl

theorem sortedMembers_eq_insertionSort : ∀ ms : List (String × Json),
    sortedMembers ms = (ms.map fun m => (m.1, m.2.sorted)).insertionSort NameLE
  | [] => rfl
  | (name, v) :: ms => by
    rw [sortedMembers, List.map_cons, List.insertionSort_cons, insertSorted_eq_orderedInsert,
      sortedMembers_eq_insertionSort ms]

theorem sortedMembers_perm (ms : List (String × Json)) :
    (sortedMembers ms).Perm (ms.map fun m => (m.1, m.2.sorted)) := by
  rw [sortedMembers_eq_insertionSort]
  exact List.perm_insertionSort NameLE _

theorem names_sortedMembers_perm (ms : List (String × Json)) :
    ((sortedMembers ms).map Prod.fst).Perm (ms.map Prod.fst) := by
  have hperm := (sortedMembers_perm ms).map Prod.fst
  rwa [List.map_map] at hperm

/-- Among the members in order a name leads to the same value, put in order. -/
theorem lookup_sortedMembers {ms : List (String × Json)} (h : (ms.map Prod.fst).Nodup)
    (name : String) : (sortedMembers ms).lookup name = (ms.lookup name).map sorted := by
  have hsorted : ((sortedMembers ms).map Prod.fst).Nodup :=
    (names_sortedMembers_perm ms).nodup_iff.mpr h
  refine Option.ext fun v => ?_
  rw [lookup_eq_some_iff_mem hsorted, (sortedMembers_perm ms).mem_iff, Option.map_eq_some_iff]
  simp only [List.mem_map, Prod.mk.injEq]
  constructor
  · rintro ⟨⟨n, w⟩, hmem, rfl, rfl⟩
    exact ⟨w, (lookup_eq_some_iff_mem h).mpr hmem, rfl⟩
  · rintro ⟨w, hw, rfl⟩
    exact ⟨(name, w), (lookup_eq_some_iff_mem h).mp hw, rfl, rfl⟩

theorem forall_mem_sortedMembers_iff {P : Json → Prop} {ms : List (String × Json)} :
    (∀ m ∈ sortedMembers ms, P m.2) ↔ ∀ m ∈ ms, P m.2.sorted := by
  simp only [(sortedMembers_perm ms).mem_iff, List.forall_mem_map]

theorem proper_sorted_iff (v : Json) : v.sorted.Proper ↔ v.Proper := by
  induction v using induction with
  | arr items ih =>
    rw [sorted, Proper, Proper, properItems_iff, properItems_iff, sortedItems_eq_map,
      List.forall_mem_map]
    exact forall₂_congr ih
  | obj members ih =>
    rw [sorted, Proper, Proper, (names_sortedMembers_perm members).nodup_iff, properMembers_iff,
      properMembers_iff, forall_mem_sortedMembers_iff]
    exact and_congr_right fun _ => forall₂_congr ih
  | _ => exact Iff.rfl

theorem sorted_sorted (v : Json) : v.sorted.sorted = v.sorted := by
  induction v using induction with
  | arr items ih =>
    rw [sorted, sorted, sortedItems_eq_map, sortedItems_eq_map, List.map_map]
    exact congrArg arr (List.map_congr_left ih)
  | obj members ih =>
    have hfixed : ∀ m ∈ sortedMembers members, (m.1, m.2.sorted) = m := fun m hm =>
      Prod.ext rfl ((forall_mem_sortedMembers_iff (P := fun v => v.sorted = v)).mpr ih m hm)
    have hpairwise := List.pairwise_insertionSort NameLE (members.map fun m => (m.1, m.2.sorted))
    rw [← sortedMembers_eq_insertionSort] at hpairwise
    rw [sorted, sorted, sortedMembers_eq_insertionSort (sortedMembers members),
      List.map_congr_left hfixed, List.map_id', hpairwise.insertionSort_eq]
  | _ => rfl

theorem itemsHaveText_iff {vs : List Json} :
    itemsHaveText vs = true ↔ ∀ v ∈ vs, v.hasText = true := by
  induction vs with
  | nil => simp [itemsHaveText]
  | cons v vs ih => rw [itemsHaveText, Bool.and_eq_true, ih, List.forall_mem_cons]

theorem membersHaveText_iff {ms : List (String × Json)} :
    membersHaveText ms = true ↔ ∀ m ∈ ms, m.2.hasText = true := by
  induction ms with
  | nil => simp [membersHaveText]
  | cons m ms ih => rw [membersHaveText, Bool.and_eq_true, ih, List.forall_mem_cons]

theorem hasText_sorted (v : Json) : v.sorted.hasText = v.hasText := by
  rw [Bool.eq_iff_iff]
  induction v using induction with
  | arr items ih =>
    rw [sorted, hasText, hasText, itemsHaveText_iff, itemsHaveText_iff, sortedItems_eq_map,
      List.forall_mem_map]
    exact forall₂_congr ih
  | obj members ih =>
    rw [sorted, hasText, hasText, membersHaveText_iff, membersHaveText_iff,
      forall_mem_sortedMembers_iff (P := fun v => v.hasText = true)]
    exact forall₂_congr ih
  | _ => exact Iff.rfl

/-! ### Blanks -/

theorem skipBlanks_append {bs cs : List Char} (h : ∀ b ∈ bs, isBlank b = true) :
    skipBlanks (bs ++ cs) = skipBlanks cs :=
  List.dropWhile_append_of_pos h

theorem skipBlanks_cons {c : Char} (h : isBlank c = false) (cs : List Char) :
    skipBlanks (c :: cs) = c :: cs := by
  rw [skipBlanks, List.dropWhile_cons, h]
  rfl

theorem isBlank_of_mem_edge (layout : Layout) (depth : Nat) :
    ∀ b ∈ layout.edge depth, isBlank b = true := by
  intro b hb
  cases layout with
  | oneLine => cases hb
  | lines step =>
    rcases List.mem_cons.mp hb with rfl | hb
    · rfl
    · rw [List.eq_of_mem_replicate hb]
      rfl

theorem exists_between (layout : Layout) (depth : Nat) : ∃ gap, layout.between depth = ',' :: gap ∧
    ∀ b ∈ gap, isBlank b = true := by
  cases layout with
  | oneLine => exact ⟨[' '], rfl, by simp [isBlank]⟩
  | lines step => exact ⟨_, rfl, isBlank_of_mem_edge (.lines step) depth⟩

/-! ### The start of a value -/

/-- The characters that the text of a value can start with. -/
def StartsValue (c : Char) : Prop :=
  c ∈ [doubleQuote, '[', '\x7b', 'n', 't', 'f', '-'] ∨ (digitValue? c).isSome = true

theorem StartsValue.ne {c d : Char} (h : StartsValue c)
    (hd : d ∉ [doubleQuote, '[', '\x7b', 'n', 't', 'f', '-'] ∧ digitValue? d = none) : c ≠ d := by
  rintro rfl
  rcases h with h | h
  · exact hd.1 h
  · rw [hd.2] at h
    cases h

theorem StartsValue.not_blank {c : Char} (h : StartsValue c) : isBlank c = false := by
  simp only [isBlank, Bool.or_eq_false_iff, beq_eq_false_iff_ne]
  exact ⟨⟨⟨h.ne (by decide), h.ne (by decide)⟩, h.ne (by decide)⟩, h.ne (by decide)⟩

theorem exists_decimalInt (i : Int) : ∃ c cs, decimalInt i = c :: cs ∧
    (c = '-' ∨ (digitValue? c).isSome = true) := by
  cases i with
  | ofNat n =>
    obtain ⟨c, cs, hcs⟩ := List.exists_cons_of_ne_nil (decimal_ne_nil n)
    exact ⟨c, cs, hcs, .inr (isSome_digitValue?_of_mem_decimal n c (hcs ▸ List.mem_cons_self))⟩
  | negSucc n => exact ⟨_, _, rfl, .inl rfl⟩

theorem exists_write (layout : Layout) (depth : Nat) (v : Json) :
    ∃ c cs, v.write layout depth = c :: cs ∧ StartsValue c := by
  cases v with
  | null => exact ⟨_, _, rfl, .inl (by simp)⟩
  | bool b => cases b <;> exact ⟨_, _, rfl, .inl (by simp)⟩
  | int i =>
    obtain ⟨c, cs, hcs, hc⟩ := exists_decimalInt i
    refine ⟨c, cs, hcs, hc.imp_left ?_⟩
    rintro rfl
    simp
  | str s => exact ⟨_, _, rfl, .inl (by simp)⟩
  | arr items => cases items <;> exact ⟨_, _, rfl, .inl (by simp)⟩
  | obj members =>
    rcases members with _ | ⟨⟨name, v⟩, ms⟩
    · exact ⟨_, _, rfl, .inl (by simp)⟩
    · exact ⟨_, _, rfl, .inl (by simp)⟩

theorem skipBlanks_write (layout : Layout) (depth : Nat) (v : Json) (cs : List Char) :
    skipBlanks (v.write layout depth ++ cs) = v.write layout depth ++ cs := by
  obtain ⟨c, ds, hds, hc⟩ := exists_write layout depth v
  rw [hds, List.cons_append, skipBlanks_cons hc.not_blank]

/-! ### Values -/

theorem setMember_of_notMem {ms : List (String × Json)} {name : String} (h : name ∉ ms.map Prod.fst)
    (v : Json) : setMember ms name v = ms ++ [(name, v)] := by
  have hany : (ms.any fun m => m.1 == name) = false := by
    rw [List.any_eq_false]
    intro m hm heq
    exact h (List.mem_map.mpr ⟨m, hm, by simpa using heq⟩)
  rw [setMember, hany]
  rfl

theorem membersOf_eq_self {ms : List (String × Json)} (h : (ms.map Prod.fst).Nodup) :
    membersOf ms = ms := by
  have hfold : ∀ (ms acc : List (String × Json)), ((acc ++ ms).map Prod.fst).Nodup →
      ms.foldl (fun ms p => setMember ms p.1 p.2) acc = acc ++ ms := by
    intro ms
    induction ms with
    | nil => intro acc _; simp
    | cons m ms ih =>
      intro acc hacc
      rw [List.append_cons] at hacc
      have hm : m.1 ∉ acc.map Prod.fst := by
        rw [List.map_append, List.map_append, List.nodup_append, List.nodup_append] at hacc
        exact fun hmem => hacc.1.2.2 m.1 hmem m.1 (by simp) rfl
      rw [List.foldl_cons, setMember_of_notMem hm, ih _ hacc, ← List.append_cons]
  simpa [membersOf] using hfold ms [] (by simpa using h)

theorem readValue_decimalInt (fuel : Nat) (i : Int) (rest : List Char) :
    readValue (fuel + 1) (decimalInt i ++ rest) = readNumber (decimalInt i ++ rest) := by
  obtain ⟨c, cs, hcs, hc⟩ := exists_decimalInt i
  have hne : ∀ d, d ≠ '-' → digitValue? d = none → c ≠ d := by
    rintro d hminus hdigit rfl
    rcases hc with hc | hc
    · exact hminus hc
    · rw [hdigit] at hc
      cases hc
  rw [hcs, List.cons_append]
  unfold readValue
  -- none of the other characters that a value starts with is a digit or a sign
  split
  case h_7 => rfl
  all_goals next h => exact absurd (List.cons.inj h).1 (hne _ (by decide) (by decide))

theorem digitValue?_of_isBlank {b : Char} (h : isBlank b = true) : digitValue? b = none := by
  simp only [isBlank, Bool.or_eq_true, beq_iff_eq] at h
  rcases h with ((rfl | rfl) | rfl) | rfl <;> decide

theorem stops_cons {c : Char} (h : digitValue? c = none) (rest : List Char) : Stops (c :: rest) := by
  rintro d hd
  obtain rfl : c = d := by simpa using hd
  exact h

theorem stops_append {bs : List Char} (hbs : ∀ b ∈ bs, isBlank b = true) {rest : List Char}
    (h : Stops rest) : Stops (bs ++ rest) := by
  cases bs with
  | nil => exact h
  | cons b bs => exact stops_cons (digitValue?_of_isBlank (hbs b List.mem_cons_self)) _

/-- A value whose text is read back to it at every depth, in front of all that does not go
on with its digits, with fuel for each of its characters; only a number of too many digits is
not. -/
def ReadsBack (layout : Layout) (v : Json) : Prop :=
  ∀ (depth fuel : Nat) (rest : List Char), Stops rest → (v.write layout depth).length ≤ fuel →
    Yields v.hasText v rest (readValue fuel (v.write layout depth ++ rest))

section Parts

variable {layout : Layout} {depth : Nat} {edge : List Char}

section Item

variable {fuel : Nat} {acc : List Json} {v : Json} {cs tail rest : List Char}

theorem readItems_error {e : ReadFault} (hread : readValue fuel cs = .error e) :
    readItems (fuel + 1) acc cs = .error e := by
  rw [readItems, hread]

theorem readItems_last (hread : readValue fuel cs = .ok (v, tail))
    (hend : skipBlanks tail = ']' :: rest) :
    readItems (fuel + 1) acc cs = .ok (.arr (v :: acc).reverse, rest) := by
  rw [readItems, hread]
  simp only [hend]

theorem readItems_next (hread : readValue fuel cs = .ok (v, tail))
    (hcomma : skipBlanks tail = ',' :: rest) :
    readItems (fuel + 1) acc cs = readItems fuel (v :: acc) (skipBlanks rest) := by
  rw [readItems, hread]
  simp only [hcomma]

end Item

variable (depth) in
/-- The items of an array are read one by one, by induction on those behind the first. -/
theorem readItems_write (hedge : ∀ b ∈ edge, isBlank b = true) (rest : List Char) :
    ∀ {vs : List Json} {v : Json}, (∀ w ∈ v :: vs, ReadsBack layout w) →
    ∀ (fuel : Nat) (acc : List Json),
      (v.write layout depth).length + (writeItems layout depth vs).length < fuel →
      Yields (itemsHaveText (v :: vs)) (.arr (acc.reverse ++ v :: vs)) rest
        (readItems fuel acc (v.write layout depth ++
          (writeItems layout depth vs ++ (edge ++ ']' :: rest))))
  | _, _, _, 0, _, hfuel => absurd hfuel (Nat.not_lt_zero _)
  | [], v, h, fuel + 1, acc, hfuel => by
    have hstops : Stops (edge ++ ']' :: rest) := stops_append hedge (stops_cons (by decide) rest)
    have hend : skipBlanks (edge ++ ']' :: rest) = ']' :: rest := by
      rw [skipBlanks_append hedge, skipBlanks_cons (by decide)]
    have hread := h v List.mem_cons_self depth fuel (edge ++ ']' :: rest) hstops (by omega)
    rw [writeItems, List.nil_append, itemsHaveText]
    refine hread.and (fun _ => readItems_error) fun hok => ?_
    rw [readItems_last hok hend, List.reverse_cons]
    rfl
  | w :: vs, v, h, fuel + 1, acc, hfuel => by
    obtain ⟨gap, hbetween, hgap⟩ := exists_between layout depth
    obtain ⟨hv, hvs⟩ := List.forall_mem_cons.mp h
    rw [writeItems, hbetween, List.length_append, List.length_append, List.length_cons] at hfuel
    have hnext := readItems_write hedge rest hvs fuel (v :: acc) (by omega)
    have hread := hv depth fuel (',' :: (gap ++ (w.write layout depth ++
      (writeItems layout depth vs ++ (edge ++ ']' :: rest))))) (stops_cons (by decide) _) (by omega)
    rw [writeItems, hbetween, itemsHaveText]
    simp only [List.cons_append, List.append_assoc] at hread ⊢
    refine hread.and (fun _ => readItems_error) fun hok => ?_
    rw [readItems_next hok (skipBlanks_cons (by decide) _), skipBlanks_append hgap, skipBlanks_write]
    simpa only [List.reverse_cons, List.append_assoc, List.singleton_append] using hnext

theorem writeString_append (s : String) (cs : List Char) :
    writeString s ++ cs = '\x22' :: (s.toList.flatMap writeChar ++ doubleQuote :: cs) := by
  rw [writeString, List.cons_append, List.append_assoc, List.singleton_append]
  rfl

theorem skipBlanks_writeString (s : String) (cs : List Char) :
    skipBlanks (writeString s ++ cs) = writeString s ++ cs := by
  rw [writeString_append, skipBlanks_cons (by decide)]

theorem skipBlanks_behind_colon (v : Json) (cs : List Char) :
    skipBlanks (' ' :: (v.write layout depth ++ cs)) = v.write layout depth ++ cs := by
  have hblank : ∀ b ∈ [' '], isBlank b = true := by simp [isBlank]
  rw [← List.singleton_append, skipBlanks_append hblank, skipBlanks_write]

section Member

variable {fuel : Nat} {acc : List (String × Json)} {name : String} {v : Json}
  {cs tail rest : List Char}

theorem readMembers_error {e : ReadFault}
    (hread : readValue fuel (v.write layout depth ++ cs) = .error e) :
    readMembers (fuel + 1) acc (writeString name ++ (':' :: ' ' :: (v.write layout depth ++ cs))) =
      .error e := by
  rw [writeString_append, readMembers, readString_writeString]
  simp only [skipBlanks_cons (show isBlank ':' = false by decide), skipBlanks_behind_colon, hread]

theorem readMembers_last (hread : readValue fuel (v.write layout depth ++ cs) = .ok (v, tail))
    (hend : skipBlanks tail = '\x7d' :: rest) :
    readMembers (fuel + 1) acc (writeString name ++ (':' :: ' ' :: (v.write layout depth ++ cs))) =
      .ok (.obj (membersOf ((name, v) :: acc).reverse), rest) := by
  rw [writeString_append, readMembers, readString_writeString]
  simp only [skipBlanks_cons (show isBlank ':' = false by decide), skipBlanks_behind_colon, hread,
    hend]

theorem readMembers_next (hread : readValue fuel (v.write layout depth ++ cs) = .ok (v, tail))
    (hcomma : skipBlanks tail = ',' :: rest) :
    readMembers (fuel + 1) acc (writeString name ++ (':' :: ' ' :: (v.write layout depth ++ cs))) =
      readMembers fuel ((name, v) :: acc) (skipBlanks rest) := by
  rw [writeString_append, readMembers, readString_writeString]
  simp only [skipBlanks_cons (show isBlank ':' = false by decide), skipBlanks_behind_colon, hread,
    hcomma]

end Member

variable (depth) in
/-- The members of an object are read one by one, by induction on those behind the first. -/
theorem readMembers_write (hedge : ∀ b ∈ edge, isBlank b = true) (rest : List Char) :
    ∀ {ms : List (String × Json)} {m : String × Json}, (∀ n ∈ m :: ms, ReadsBack layout n.2) →
    ∀ (fuel : Nat) (acc : List (String × Json)),
      (m.2.write layout depth).length + (writeMembers layout depth ms).length < fuel →
      Yields (membersHaveText (m :: ms)) (.obj (membersOf (acc.reverse ++ m :: ms))) rest
        (readMembers fuel acc (writeString m.1 ++ (':' :: ' ' :: (m.2.write layout depth ++
          (writeMembers layout depth ms ++ (edge ++ '\x7d' :: rest))))))
  | _, _, _, 0, _, hfuel => absurd hfuel (Nat.not_lt_zero _)
  | [], (name, v), h, fuel + 1, acc, hfuel => by
    have hstops : Stops (edge ++ '\x7d' :: rest) := stops_append hedge (stops_cons (by decide) rest)
    have hread := h (name, v) List.mem_cons_self depth fuel (edge ++ '\x7d' :: rest) hstops (by omega)
    have hend : skipBlanks (edge ++ '\x7d' :: rest) = '\x7d' :: rest := by
      rw [skipBlanks_append hedge, skipBlanks_cons (by decide)]
    rw [writeMembers, List.nil_append, membersHaveText]
    refine hread.and (fun _ => readMembers_error) fun hok => ?_
    rw [readMembers_last hok hend, List.reverse_cons]
    rfl
  | (name', w) :: ms, (name, v), h, fuel + 1, acc, hfuel => by
    obtain ⟨gap, hbetween, hgap⟩ := exists_between layout depth
    obtain ⟨hv, hms⟩ := List.forall_mem_cons.mp h
    simp only [writeMembers, hbetween, List.length_append, List.length_cons] at hfuel
    have hnext := readMembers_write hedge rest hms fuel ((name, v) :: acc) (by simp only; omega)
    have hread := hv depth fuel (',' :: (gap ++ (writeString name' ++ (':' :: ' ' ::
      (w.write layout depth ++ (writeMembers layout depth ms ++ (edge ++ '\x7d' :: rest)))))))
      (stops_cons (by decide) _) (by simp only; omega)
    rw [writeMembers, hbetween, membersHaveText]
    simp only [List.cons_append, List.append_assoc, List.nil_append] at hread ⊢
    refine hread.and (fun _ => readMembers_error) fun hok => ?_
    rw [readMembers_next hok (skipBlanks_cons (by decide) _), skipBlanks_append hgap,
      skipBlanks_writeString]
    simpa only [List.reverse_cons, List.append_assoc, List.singleton_append] using hnext

end Parts

theorem exists_fuel {layout : Layout} {depth fuel : Nat} {v : Json}
    (h : (v.write layout depth).length ≤ fuel) : ∃ n, fuel = n + 1 := by
  obtain ⟨c, cs, hcs, -⟩ := exists_write layout depth v
  rw [hcs, List.length_cons] at h
  exact ⟨fuel - 1, by omega⟩

theorem readValue_bracket {fuel : Nat} {cs tail : List Char} {c : Char}
    (hskip : skipBlanks cs = c :: tail) (hc : c ≠ ']') :
    readValue (fuel + 1) ('[' :: cs) = readItems fuel [] (c :: tail) := by
  rw [readValue, hskip]
  split
  · next h => exact absurd (List.cons.inj h).1 hc
  · rfl

theorem readValue_brace {fuel : Nat} {cs tail : List Char} {c : Char}
    (hskip : skipBlanks cs = c :: tail) (hc : c ≠ '\x7d') :
    readValue (fuel + 1) ('\x7b' :: cs) = readMembers fuel [] (c :: tail) := by
  rw [readValue, hskip]
  split
  · next h => exact absurd (List.cons.inj h).1 hc
  · rfl

/-- **A value is read as it was written.** -/
theorem readsBack (layout : Layout) (v : Json) (hproper : v.Proper) : ReadsBack layout v := by
  induction v using induction with
  | null =>
    intro depth fuel rest _ hfuel
    obtain ⟨fuel, rfl⟩ := exists_fuel hfuel
    rfl
  | bool b =>
    intro depth fuel rest _ hfuel
    obtain ⟨fuel, rfl⟩ := exists_fuel hfuel
    cases b <;> rfl
  | int i =>
    intro depth fuel rest hrest hfuel
    obtain ⟨fuel, rfl⟩ := exists_fuel hfuel
    rw [write, readValue_decimalInt, hasText]
    exact readNumber_decimalInt i hrest
  | str s =>
    intro depth fuel rest _ hfuel
    obtain ⟨fuel, rfl⟩ := exists_fuel hfuel
    rw [write, writeString_append, readValue, readString_writeString]
    rfl
  | arr items ih =>
    intro depth fuel rest _ hfuel
    obtain ⟨fuel, rfl⟩ := exists_fuel hfuel
    cases items with
    | nil => rfl
    | cons v vs =>
      have hitems : ∀ w ∈ v :: vs, ReadsBack layout w := fun w hw =>
        ih w hw (properItems_iff.mp hproper w hw)
      simp only [write, List.length_cons, List.length_append, List.length_nil] at hfuel
      obtain ⟨c, cs, hcs, hc⟩ := exists_write layout (depth + 1) v
      have hskip : ∀ tail,
          skipBlanks (layout.edge (depth + 1) ++ (v.write layout (depth + 1) ++ tail)) =
            c :: (cs ++ tail) := fun tail => by
        rw [skipBlanks_append (isBlank_of_mem_edge layout (depth + 1)), skipBlanks_write, hcs,
          List.cons_append]
      have hread := readItems_write (depth + 1) (isBlank_of_mem_edge layout depth) rest hitems fuel []
        (by omega)
      rw [hcs, List.cons_append] at hread
      simp only [write, List.cons_append, List.append_assoc, List.nil_append]
      rw [readValue_bracket (hskip _) (hc.ne (by decide))]
      exact hread
  | obj members ih =>
    intro depth fuel rest _ hfuel
    obtain ⟨fuel, rfl⟩ := exists_fuel hfuel
    cases members with
    | nil => rfl
    | cons m ms =>
      obtain ⟨name, v⟩ := m
      have hmembers : ∀ n ∈ (name, v) :: ms, ReadsBack layout n.2 := fun n hn =>
        ih n hn (properMembers_iff.mp hproper.2 n hn)
      simp only [write, List.length_cons, List.length_append, List.length_nil] at hfuel
      have hskip : ∀ tail, skipBlanks (layout.edge (depth + 1) ++ (writeString name ++ tail)) =
          '\x22' :: (name.toList.flatMap writeChar ++ doubleQuote :: tail) := fun tail => by
        rw [skipBlanks_append (isBlank_of_mem_edge layout (depth + 1)), skipBlanks_writeString,
          writeString_append]
      have hread := readMembers_write (depth + 1) (isBlank_of_mem_edge layout depth) rest hmembers
        fuel [] (by simp only; omega)
      rw [writeString_append, List.reverse_nil, List.nil_append, membersOf_eq_self hproper.1] at hread
      simp only [write, List.cons_append, List.append_assoc, List.nil_append]
      rw [readValue_brace (hskip _) (by decide)]
      exact hread

/-- Reading a written text gives what the reader of values gives at its start. -/
theorem readText_write (layout : Layout) {v : Json} (hproper : v.Proper) :
    match v.hasText with
    | true => readText (v.write layout 0) = .ok v
    | false => ∃ count tail, readText (v.write layout 0) = .error ⟨.tooManyDigits count, tail⟩ := by
  obtain ⟨c, cs, hcs, hc⟩ := exists_write layout 0 v
  have hmark : (v.write layout 0).head? ≠ some '\ufeff' := by
    rw [hcs, List.head?_cons, ne_eq, Option.some.injEq]
    exact hc.ne (by decide)
  have hskip := skipBlanks_write layout 0 v []
  have hread := readsBack layout v hproper 0 (2 * (v.write layout 0).length + 2) []
    (by rintro d ⟨⟩) (by omega)
  rw [List.append_nil] at hskip hread
  rw [readText, readTextWith, if_neg hmark, hskip]
  cases htext : v.hasText with
  | true =>
    rw [htext, Yields] at hread
    rw [hread]
    rfl
  | false =>
    rw [htext] at hread
    obtain ⟨count, tail, hread⟩ := hread
    exact ⟨count, tail, by rw [hread]⟩

/-- **The text of a value is read as the value with its members in order.** -/
theorem parse_render (indent : Option Int) {v : Json} (htext : v.hasText = true)
    (hproper : v.Proper) : parse (v.render indent) = .ok v.sorted := by
  have hread := readText_write (Layout.ofIndent indent) ((proper_sorted_iff v).mpr hproper)
  rw [hasText_sorted, htext] at hread
  rw [parse, render, String.toList_ofList, hread]

/-- The text of a value with a number of too many digits is not read. -/
theorem parse_render_of_not_hasText (indent : Option Int) {v : Json} (htext : v.hasText = false)
    (hproper : v.Proper) :
    ∃ fault count, parse (v.render indent) = .error fault ∧ fault.cause = .tooManyDigits count := by
  have hread := readText_write (Layout.ofIndent indent) ((proper_sorted_iff v).mpr hproper)
  rw [hasText_sorted, htext] at hread
  obtain ⟨count, tail, hread⟩ := hread
  rw [parse, render, String.toList_ofList, hread]
  exact ⟨_, count, rfl, rfl⟩

end Json

/-- A codec keeps a value when the text that it writes is read as the value, with the members
of its objects in some order. -/
def JsonCodec.Keeps (codec : JsonCodec) (indent : Option Int) (v : Json) : Prop :=
  ∃ text w, codec.write indent v = .ok text ∧ codec.read text = .ok w ∧ w.Proper ∧
    w.sorted = v.sorted

theorem JsonCodec.keeps_standard {indent : Option Int} {v : Json}
    (hindent : indent.all fitsWord = true) (htext : v.hasText = true) (hproper : v.Proper) :
    JsonCodec.standard.Keeps indent v := by
  refine ⟨v.render indent, v.sorted, ?_, ?_, (Json.proper_sorted_iff v).mpr hproper, v.sorted_sorted⟩
  · simp [JsonCodec.standard, hindent, htext]
  · simp only [JsonCodec.standard, Json.parse_render indent htext hproper]
    rfl

end InlineMarkup
