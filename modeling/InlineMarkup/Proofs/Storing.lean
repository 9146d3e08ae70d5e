/-
# Stored nodes are loaded as they were

As text the members of objects stand in the order of their names, so what is loaded
again are the records with the members of the JSON objects inside them in that order
(`Value.sorted`); nothing else of them changes. To put the members of a value in order
and to load it can be exchanged (`loadValue_sorted_iff`).

What a note is parsed to with built-in matchers holds no such objects, and is loaded
again as it is.

Key definitions: `Value.sorted`, `Record.sorted`. Key theorems: `loadValue_sorted_iff`,
`loadArray_sorted_iff`, `stored_nodes_load`.
-/
import InlineMarkup.Proofs.Forest
import InlineMarkup.Proofs.Loading
import InlineMarkup.Proofs.Losslessness

namespace InlineMarkup

/-! ### Members of objects in order -/

mutual

/-- The value with the members of all objects that its tokens and plain values hold in the
order of their names. -/
def Value.sorted : Value → Value
  | .plain v => .plain v.sorted
  | .list items => .list (Value.sortedAll items)
  | .token type value offset => .token type value.sorted offset.sorted
  | .record cls fields => .record cls (Value.sortedAll fields)

/-- The values of a list, each with members in order. -/
def Value.sortedAll : List Value → List Value
  | [] => []
  | v :: vs => v.sorted :: Value.sortedAll vs

end

/-- The record with the members of all objects in it in the order of their names. -/
def Record.sorted (r : Record) : Record where
  cls := r.cls
  fields := Value.sortedAll r.fields

theorem Value.sortedAll_eq_map : ∀ vs : List Value, Value.sortedAll vs = vs.map Value.sorted
  | [] => rfl
  | v :: vs => by rw [Value.sortedAll, Value.sortedAll_eq_map vs, List.map_cons]

section Members

variable {ms : List (String × Json)} (hnames : (ms.map Prod.fst).Nodup)

include hnames

theorem lookup_sortedMembers_str_iff {key name : String} :
    (Json.sortedMembers ms).lookup key = some (.str name) ↔ ms.lookup key = some (.str name) := by
  rw [Json.lookup_sortedMembers hnames, Option.map_eq_some_iff]
  constructor
  · rintro ⟨v, hv, hstr⟩
    cases v <;> cases hstr
    exact hv
  · exact fun h => ⟨_, h, rfl⟩

theorem storedClass_sortedMembers_iff {cls : NodeClass} :
    storedClass (Json.sortedMembers ms) = .ok cls ↔ storedClass ms = .ok cls := by
  simp only [storedClass_eq_ok_iff, lookup_sortedMembers_str_iff hnames]

theorem isStoredToken_sortedMembers : isStoredToken (Json.sortedMembers ms) = isStoredToken ms := by
  rw [Bool.eq_iff_iff, isStoredToken_iff, isStoredToken_iff, lookup_sortedMembers_str_iff hnames]

theorem loadToken_sortedMembers_iff {w : Value} : loadToken (Json.sortedMembers ms) = .ok w ↔
    ∃ v, loadToken ms = .ok v ∧ v.sorted = w := by
  simp only [loadToken_eq_ok_iff, lookup_sortedMembers_str_iff hnames]
  simp only [Json.lookup_sortedMembers hnames, Option.map_eq_some_iff]
  constructor
  · rintro ⟨name, type, _, hname, htype, ⟨value, hvalue, rfl⟩, rfl⟩
    refine ⟨_, ⟨name, type, value, hname, htype, hvalue, rfl⟩, ?_⟩
    cases ms.lookup "offset" <;> rfl
  · rintro ⟨_, ⟨name, type, value, hname, htype, hvalue, rfl⟩, rfl⟩
    refine ⟨name, type, _, hname, htype, ⟨value, hvalue, rfl⟩, ?_⟩
    cases ms.lookup "offset" <;> rfl

theorem holds_sortedMembers_iff {cls : NodeClass} {field : String} {w : Value}
    (hload : ∀ m ∈ ms, ∀ w, loadValue m.2.sorted = .ok w ↔ ∃ v, loadValue m.2 = .ok v ∧ v.sorted = w) :
    Holds (Json.sortedMembers ms) cls field w ↔ ∃ v, Holds ms cls field v ∧ v.sorted = w := by
  unfold Holds
  rw [Json.lookup_sortedMembers hnames]
  cases hfield : ms.lookup field with
  | none =>
    simp only [Option.map_none, Value.missing?]
    split <;> simp [Value.sorted, Value.sortedAll]
  | some j => exact hload (field, j) ((lookup_eq_some_iff_mem hnames).mp hfield) w

theorem loadRecord_sortedMembers_iff {r : Record}
    (hload : ∀ m ∈ ms, ∀ w, loadValue m.2.sorted = .ok w ↔ ∃ v, loadValue m.2 = .ok v ∧ v.sorted = w) :
    loadRecord (.obj (Json.sortedMembers ms)) = .ok r ↔
      ∃ s, loadRecord (.obj ms) = .ok s ∧ s.sorted = r := by
  simp only [loadRecord_obj_eq_ok_iff, storedClass_sortedMembers_iff hnames]
  have hheld : ∀ field ∈ r.cls.fields, ∀ w, Holds (Json.sortedMembers ms) r.cls field w ↔
      ∃ v, Holds ms r.cls field v ∧ v.sorted = w :=
    fun _ _ _ => holds_sortedMembers_iff hnames hload
  rw [forall₂_iff_exists_map hheld]
  constructor
  · rintro ⟨hcls, fields, hfields, hmap⟩
    refine ⟨⟨r.cls, fields⟩, ⟨hcls, hfields⟩, ?_⟩
    rw [Record.sorted, Value.sortedAll_eq_map, hmap]
  · rintro ⟨s, ⟨hcls, hfields⟩, rfl⟩
    exact ⟨hcls, s.fields, hfields, (Value.sortedAll_eq_map s.fields).symm⟩

end Members

/-- **A value is loaded with its members in order as it is loaded with them as they are**,
up to their order in what is loaded. -/
theorem loadValue_sorted_iff {j : Json} (hj : j.Proper) {w : Value} :
    loadValue j.sorted = .ok w ↔ ∃ v, loadValue j = .ok v ∧ v.sorted = w := by
  induction j using Json.induction generalizing w with
  | arr items ih =>
    have hload : ∀ v ∈ items, ∀ w, loadValue v.sorted = .ok w ↔
        ∃ v', loadValue v = .ok v' ∧ v'.sorted = w :=
      fun v hv _ => ih v hv (Json.properItems_iff.mp hj v hv)
    simp only [Json.sorted, loadValue, map_eq_ok_iff, loadItems_eq_ok_iff, Json.sortedItems_eq_map,
      List.forall₂_map_left_iff, forall₂_iff_exists_map hload]
    constructor
    · rintro ⟨_, ⟨vs, hvs, rfl⟩, rfl⟩
      exact ⟨.list vs, ⟨vs, hvs, rfl⟩, by rw [Value.sorted, Value.sortedAll_eq_map]⟩
    · rintro ⟨_, ⟨vs, hvs, rfl⟩, rfl⟩
      exact ⟨_, ⟨vs, hvs, rfl⟩, by rw [Value.sorted, Value.sortedAll_eq_map]⟩
  | obj ms ih =>
    have hload : ∀ m ∈ ms, ∀ w, loadValue m.2.sorted = .ok w ↔
        ∃ v, loadValue m.2 = .ok v ∧ v.sorted = w :=
      fun m hm _ => ih m hm (Json.properMembers_iff.mp hj.2 m hm)
    rw [Json.sorted, loadValue_obj, loadValue_obj, isStoredToken_sortedMembers hj.1]
    split
    · exact loadToken_sortedMembers_iff hj.1
    · simp only [map_eq_ok_iff, loadRecord_sortedMembers_iff hj.1 hload]
      constructor
      · rintro ⟨_, ⟨s, hs, rfl⟩, rfl⟩
        exact ⟨s.value, ⟨s, hs, rfl⟩, rfl⟩
      · rintro ⟨_, ⟨s, hs, rfl⟩, rfl⟩
        exact ⟨s.sorted, ⟨s, hs, rfl⟩, rfl⟩
  | _ =>
    constructor
    · exact fun h => ⟨w, h, Except.ok.inj h ▸ rfl⟩
    · rintro ⟨_, ⟨⟩, rfl⟩
      rfl

theorem loadRecord_sorted_iff {j : Json} (hj : j.Proper) {r : Record} :
    loadRecord j.sorted = .ok r ↔ ∃ s, loadRecord j = .ok s ∧ s.sorted = r := by
  rw [← loadValue_eq_ok_value_iff, loadValue_sorted_iff hj]
  constructor
  · rintro ⟨v, hv, hsorted⟩
    cases v with
    | record cls fields =>
      exact ⟨⟨cls, fields⟩, loadValue_eq_ok_value_iff.mp hv, Record.value_injective hsorted⟩
    | _ => cases hsorted
  · rintro ⟨s, hs, rfl⟩
    exact ⟨s.value, loadValue_eq_ok_value_iff.mpr hs, rfl⟩

theorem loadArray_sorted_iff {j : Json} (hj : j.Proper) {rs : List Record} :
    loadArray j.sorted = .ok rs ↔ ∃ ss, loadArray j = .ok ss ∧ ss.map Record.sorted = rs := by
  cases j with
  | arr items =>
    have hload : ∀ v ∈ items, ∀ r, loadRecord v.sorted = .ok r ↔
        ∃ s, loadRecord v = .ok s ∧ s.sorted = r :=
      fun v hv _ => loadRecord_sorted_iff (Json.properItems_iff.mp hj v hv)
    simp only [Json.sorted, loadArray, loadRecords_eq_ok_iff, Json.sortedItems_eq_map,
      List.forall₂_map_left_iff, forall₂_iff_exists_map hload]
  | _ =>
    constructor
    · intro h
      cases h
    · rintro ⟨_, h, _⟩
      cases h

/-! ### What is stored is proper -/

theorem proper_store_list {vs : List Value} :
    (storeValue (.list vs)).Proper ↔ ∀ v ∈ vs, (storeValue v).Proper := by
  rw [storeValue, Json.Proper, Json.properItems_iff, storeItems_eq_map, List.forall_mem_map]

theorem proper_store_token {type : TokenType} {value offset : Json} :
    (storeValue (.token (.proper type) value offset)).Proper ↔ value.Proper ∧ offset.Proper := by
  have hnames : ["_type", "type", "value", "offset"].Nodup := by decide
  rw [storeValue, Json.Proper]
  simp only [List.map_cons, List.map_nil, hnames, true_and, Json.properMembers_iff,
    List.forall_mem_cons]
  simp [LooseType.store, Json.Proper]

theorem proper_store_record {cls : NodeClass} {fields : List Value}
    (h : fields.length = cls.fields.length) :
    (storeValue (.record cls fields)).Proper ↔ ∀ v ∈ fields, (storeValue v).Proper := by
  have hvalues : (cls.fields.zip (fields.map storeValue)).map Prod.snd = fields.map storeValue :=
    List.map_snd_zip (by rw [List.length_map, h])
  rw [storeValue, Json.Proper, names_store h, Json.properMembers_iff, List.forall_mem_cons,
    storeItems_eq_map, ← List.forall_mem_map (f := Prod.snd) (P := Json.Proper), hvalues,
    List.forall_mem_map]
  exact ⟨fun hproper => hproper.2.2, fun hfields => ⟨nodup_fields cls, trivial, hfields⟩⟩

theorem proper_storeValue {j : Json} (hj : j.Proper) {v : Value} (h : loadValue j = .ok v) :
    (storeValue v).Proper := by
  induction j using Json.induction generalizing v with
  | arr items ih =>
    rw [loadValue] at h
    obtain ⟨vs, hvs, rfl⟩ := map_eq_ok_iff.mp h
    refine proper_store_list.mpr fun v hv => ?_
    obtain ⟨w, hw, hload⟩ := exists_of_forall₂ (loadItems_eq_ok_iff.mp hvs) v hv
    exact ih w hw (Json.properItems_iff.mp hj w hw) hload
  | obj ms ih =>
    have hmembers := Json.properMembers_iff.mp hj.2
    rw [loadValue_obj] at h
    split at h
    · obtain ⟨_, type, value, -, -, hvalue, rfl⟩ := loadToken_eq_ok_iff.mp h
      have hlookup : ∀ {key : String} {w : Json}, ms.lookup key = some w → w.Proper :=
        fun hw => hmembers _ ((lookup_eq_some_iff_mem hj.1).mp hw)
      refine proper_store_token.mpr ⟨hlookup hvalue, ?_⟩
      cases hoffset : ms.lookup "offset" with
      | none => exact trivial
      | some offset => exact hlookup hoffset
    · obtain ⟨r, hr, rfl⟩ := map_eq_ok_iff.mp h
      obtain ⟨-, hfields⟩ := loadRecord_obj_eq_ok_iff.mp hr
      exact (proper_store_record hfields.length_eq.symm).mpr
        (forall_of_holds (fun m hm _ => ih m hm (hmembers m hm)) (proper_store_list.mpr (by simp))
          hfields)
  | _ => exact Except.ok.inj h ▸ hj

/-! ### Sequences of stored nodes -/

theorem loadArray_store {rs : List Record} (h : ∀ r ∈ rs, ∃ d, loadRecord d = .ok r) :
    loadArray (.arr (rs.map Record.store)) = .ok rs := by
  refine loadRecords_eq_ok_iff.mpr (List.forall₂_map_left_iff.mpr (List.forall₂_same.mpr ?_))
  intro r hr
  obtain ⟨d, hd⟩ := h r hr
  exact loadRecord_store hd

/-- **Loaded records that are stored by a codec which keeps them are loaded again**, up to the
order of members inside them. -/
theorem exists_loadNodes {codec : JsonCodec} {indent : Option Int} {rs : List Record}
    (h : ∀ r ∈ rs, ∃ d, loadRecord d = .ok r)
    (hkeeps : codec.Keeps indent (.arr (rs.map Record.store))) :
    ∃ text rs', storeNodes (rs.map Record.value) indent codec = .ok text ∧
      loadNodes text codec = .ok rs' ∧ rs'.map Record.sorted = rs.map Record.sorted := by
  obtain ⟨text, w, hwrite, hread, hw, hsorted⟩ := hkeeps
  have hstore : (Json.arr (rs.map Record.store)).Proper := by
    rw [← Json.proper_sorted_iff, ← hsorted, Json.proper_sorted_iff]
    exact hw
  have hload : loadArray w.sorted = .ok (rs.map Record.sorted) := by
    rw [hsorted]
    exact (loadArray_sorted_iff hstore).mpr ⟨rs, loadArray_store h, rfl⟩
  obtain ⟨rs', hrs', hmap⟩ := (loadArray_sorted_iff hw).mp hload
  have hloaded : ∀ r ∈ rs, r.value.Loaded := by
    intro r hr
    obtain ⟨d, hd⟩ := h r hr
    exact loaded_of_loadValue (loadValue_eq_ok_value_iff.mpr hd)
  refine ⟨text, rs', ?_, ?_, hmap⟩
  · rw [storeNodes, storeRecords_eq hloaded]
    exact hwrite
  · rw [loadNodes, hread]
    exact hrs'

/-! ### Values of nodes -/

theorem storedAll_eq_map (ns : List Node) : Node.storedAll ns = ns.map Node.stored := by
  induction ns with
  | nil => rfl
  | cons n ns ih => rw [Node.storedAll, ih, List.map_cons]

/-- What holds of texts and tokens, of a list if it does of its items, and of a record if it
does of its fields, holds of the values of nodes. -/
theorem stored_induction {P : Value → Prop} (text : ∀ s, P (.text s))
    (token : ∀ t : Token, P t.stored) (list : ∀ vs, (∀ v ∈ vs, P v) → P (.list vs))
    (record : ∀ cls fields, fields.length = cls.fields.length → (∀ v ∈ fields, P v) →
      P (.record cls fields)) (n : Node) : P n.stored := by
  induction n using Node.induction with
  | bare => exact record .node [] rfl (by simp)
  | container kind content children ih =>
    have hlen : kind.cls.fields.length = 2 := by cases kind <;> rfl
    have hcontent := list (content.map Token.stored) (List.forall_mem_map.mpr fun t _ => token t)
    have hchildren := list (children.map Node.stored) (List.forall_mem_map.mpr ih)
    rw [Node.stored, storedAll_eq_map]
    exact record kind.cls _ hlen.symm (by simp [hcontent, hchildren])
  | _ => exact record _ _ rfl (by simp [text])

theorem Node.proper_store (n : Node) : n.store.Proper :=
  stored_induction (P := fun v => (storeValue v).Proper) (fun _ => trivial)
    (fun _ => proper_store_token.mpr ⟨trivial, trivial⟩) (fun _ => proper_store_list.mpr)
    (fun _ _ hlen => (proper_store_record hlen).mpr) n

theorem eq_of_map_sorted_eq : ∀ {vs ws : List Value},
    (∀ v ∈ vs, ∀ w : Value, w.sorted = v.sorted → w = v) →
    ws.map Value.sorted = vs.map Value.sorted → ws = vs
  | [], ws, _, hmap => List.map_eq_nil_iff.mp hmap
  | v :: vs, [], _, hmap => by cases hmap
  | v :: vs, w :: ws, h, hmap => by
    obtain ⟨hv, hvs⟩ := List.forall_mem_cons.mp h
    obtain ⟨hw, hws⟩ := List.cons.inj hmap
    rw [hv w hw, eq_of_map_sorted_eq hvs hws]

/-- The value of a node holds no objects whose members could stand in another order. -/
theorem Node.eq_stored_of_sorted_eq (n : Node) : ∀ w : Value,
    w.sorted = n.stored.sorted → w = n.stored := by
  refine stored_induction (P := fun v => ∀ w : Value, w.sorted = v.sorted → w = v) ?_ ?_ ?_ ?_ n
  · intro s w hw
    cases w with
    | plain j => cases j <;> cases hw; rfl
    | _ => cases hw
  · intro t w hw
    cases w with
    | token type value offset =>
      obtain ⟨rfl, hvalue, hoffset⟩ := Value.token.inj hw
      cases value <;> cases hvalue
      cases offset <;> cases hoffset
      rfl
    | _ => cases hw
  · intro vs ih w hw
    cases w with
    | list ws =>
      have hmap := Value.list.inj hw
      rw [Value.sortedAll_eq_map, Value.sortedAll_eq_map] at hmap
      rw [eq_of_map_sorted_eq ih hmap]
    | _ => cases hw
  · intro cls fields _ ih w hw
    cases w with
    | record cls' ws =>
      obtain ⟨rfl, hmap⟩ := Value.record.inj hw
      rw [Value.sortedAll_eq_map, Value.sortedAll_eq_map] at hmap
      rw [eq_of_map_sorted_eq ih hmap]
    | _ => cases hw

theorem exists_markup_of_mem : ∀ {ns : List Node} {s : String}, Node.markupAll ns = .ok s →
    ∀ n ∈ ns, ∃ s, n.markup = .ok s
  | [], _, _ => fun _ hn => absurd hn List.not_mem_nil
  | n :: ns, s, h => by
    rw [Node.markupAll] at h
    cases hn : n.markup with
    | error fault =>
      rw [hn] at h
      cases h
    | ok front =>
      rw [hn] at h
      obtain ⟨back, hback, -⟩ := map_eq_ok_iff.mp h
      exact List.forall_mem_cons.mpr ⟨⟨front, hn⟩, exists_markup_of_mem hback⟩

/-- A node that has markup can be stored: it is neither bare nor a plain container, nor is
one of its children. -/
theorem Node.loaded_of_markup (n : Node) : ∀ {s : String}, n.markup = .ok s → n.stored.Loaded := by
  induction n using Node.induction with
  | bare => exact fun h => (nomatch h)
  | container kind content children ih =>
    intro s h
    rw [Node.markup] at h
    cases hmarker : kind.marker? with
    | none =>
      rw [hmarker] at h
      cases h
    | some marker =>
      rw [hmarker] at h
      have hkind : kind.cls ∈ NodeClass.stored ∧ kind.cls.fields.length = 2 := by
        cases kind with
        | plain => cases hmarker
        | _ => decide
      have hmarkup : ∀ n ∈ children, ∃ s, n.markup = .ok s := by
        cases children with
        | nil => simp
        | cons n ns =>
          obtain ⟨inner, hinner, -⟩ := map_eq_ok_iff.mp h
          exact exists_markup_of_mem hinner
      have hchildren : ∀ v ∈ children.map Node.stored, v.Loaded := by
        refine List.forall_mem_map.mpr fun n hn => ?_
        obtain ⟨s, hs⟩ := hmarkup n hn
        exact ih n hn hs
      have hcontent : ∀ v ∈ content.map Token.stored, v.Loaded :=
        List.forall_mem_map.mpr fun _ _ => .token _ _ _
      rw [Node.stored, storedAll_eq_map]
      exact .record hkind.1 hkind.2.symm
        (by simp [Value.Loaded.list hcontent, Value.Loaded.list hchildren])
  | _ => exact fun _ => .record (by decide) rfl (by simp [Value.text, Value.Loaded.str])

theorem Node.exists_record (n : Node) : ∃ r : Record, r.value = n.stored := by
  cases n <;> exact ⟨⟨_, _⟩, rfl⟩

theorem exists_records : ∀ {ns : List Node}, (∀ n ∈ ns, ∃ s, n.markup = .ok s) →
    ∃ rs : List Record, rs.map Record.value = ns.map Node.stored ∧
      ∀ r ∈ rs, ∃ d : Json, d.Proper ∧ loadRecord d = .ok r
  | [], _ => ⟨[], rfl, by simp⟩
  | n :: ns, h => by
    obtain ⟨⟨s, hs⟩, hns⟩ := List.forall_mem_cons.mp h
    obtain ⟨r, hr⟩ := n.exists_record
    obtain ⟨rs, hrs, hloaded⟩ := exists_records hns
    have hvalue : r.value.Loaded := hr ▸ n.loaded_of_markup hs
    have hproper : r.store.Proper := by
      rw [Record.store, hr]
      exact n.proper_store
    have hload := loadValue_eq_ok_value_iff.mp (loadValue_storeValue hvalue)
    refine ⟨r :: rs, ?_, List.forall_mem_cons.mpr ⟨⟨r.store, hproper, hload⟩, hloaded⟩⟩
    rw [List.map_cons, List.map_cons, hr, hrs]

/-- The records of nodes are the only ones that are the same up to the order of members. -/
theorem eq_of_map_sorted_eq_stored {ns : List Node} {rs rs' : List Record}
    (hrs : rs.map Record.value = ns.map Node.stored)
    (h : rs'.map Record.sorted = rs.map Record.sorted) : rs' = rs := by
  have hvalues : (rs'.map Record.value).map Value.sorted = (ns.map Node.stored).map Value.sorted := by
    have hmap := congrArg (List.map Record.value) h
    rw [List.map_map, List.map_map] at hmap
    rw [← hrs, List.map_map, List.map_map]
    exact hmap
  have hsame : rs'.map Record.value = ns.map Node.stored :=
    eq_of_map_sorted_eq (List.forall_mem_map.mpr fun n _ => n.eq_stored_of_sorted_eq) hvalues
  exact List.map_injective_iff.mpr (fun _ _ => Record.value_injective) (hsame.trans hrs.symm)

/-! ### Parsed notes -/

/-- What a note is parsed to with built-in matchers are loaded records, and no other records
are the same up to the order of members. -/
theorem exists_records_of_parse {own : Option Settings} {ambient : Settings}
    (h : (own.getD ambient).registryInUse.entries ⊆ Entry.builtIns) (source : String) :
    ∃ rs : List Record, ((parseInline source own).run ambient).1.result = .ok (rs.map Record.value) ∧
      (∀ r ∈ rs, ∃ d : Json, d.Proper ∧ loadRecord d = .ok r) ∧
      ∀ rs' : List Record, rs'.map Record.sorted = rs.map Record.sorted → rs' = rs := by
  obtain ⟨e, he, -, -, hrun⟩ := parseInline_eq h
  obtain ⟨nodes, hnodes, hmarkup, -⟩ := exists_parse he (repeats_of_mem_tokenize source)
  obtain ⟨rs, hrs, hloaded⟩ := exists_records (exists_markup_of_mem hmarkup)
  refine ⟨rs, ?_, hloaded, fun rs' => eq_of_map_sorted_eq_stored hrs⟩
  rw [hrun, hrs, ← storedAll_eq_map]
  exact Engine.result_map_of_ok _ hnodes

/-- **Storing is exact on everything that can be loaded.** A loaded record is loaded again, the
same, from what it is stored as. From the text of a codec that keeps it, it is loaded up to the
order of members in the objects inside; nodes of a parsed note hold no such objects. -/
theorem stored_nodes_load :
    (∀ (d : Json) (r : Record), loadRecord d = .ok r → loadRecord r.store = .ok r) ∧
    (∀ rs : List Record, (∀ r ∈ rs, ∃ d : Json, d.Proper ∧ loadRecord d = .ok r) →
      (Json.arr (rs.map Record.store)).Proper ∧
      ∀ (codec : JsonCodec) (indent : Option Int),
        codec.Keeps indent (.arr (rs.map Record.store)) →
        ∃ text rs', storeNodes (rs.map Record.value) indent codec = .ok text ∧
          loadNodes text codec = .ok rs' ∧ rs'.map Record.sorted = rs.map Record.sorted) ∧
    (∀ (source : String) (own : Option Settings) (ambient : Settings),
      (own.getD ambient).registryInUse.entries ⊆ Entry.builtIns →
      ∃ rs : List Record,
        ((parseInline source own).run ambient).1.result = .ok (rs.map Record.value) ∧
        (∀ r ∈ rs, ∃ d : Json, d.Proper ∧ loadRecord d = .ok r) ∧
        ∀ (codec : JsonCodec) (indent : Option Int),
          codec.Keeps indent (.arr (rs.map Record.store)) →
          ∃ text, storeNodes (rs.map Record.value) indent codec = .ok text ∧
            loadNodes text codec = .ok rs) ∧
    ∀ (indent : Option Int) (v : Json), indent.all fitsWord = true → v.hasText = true → v.Proper →
      JsonCodec.standard.Keeps indent v := by
  have hloads : ∀ rs : List Record, (∀ r ∈ rs, ∃ d : Json, d.Proper ∧ loadRecord d = .ok r) →
      ∀ r ∈ rs, ∃ d, loadRecord d = .ok r :=
    fun rs h r hr => (h r hr).imp fun _ hd => hd.2
  refine ⟨fun d r => loadRecord_store, fun rs h => ⟨?_, fun codec indent => ?_⟩,
    fun source own ambient h => ?_, fun indent v => JsonCodec.keeps_standard⟩
  · refine Json.properItems_iff.mpr (List.forall_mem_map.mpr fun r hr => ?_)
    obtain ⟨d, hd, hload⟩ := h r hr
    exact proper_storeValue hd (loadValue_eq_ok_value_iff.mpr hload)
  · exact exists_loadNodes (hloads rs h)
  · obtain ⟨rs, hparse, hloaded, hunique⟩ := exists_records_of_parse h source
    refine ⟨rs, hparse, hloaded, fun codec indent hkeeps => ?_⟩
    obtain ⟨text, rs', hstore, hload, hmap⟩ := exists_loadNodes (hloads rs hloaded) hkeeps
    obtain rfl := hunique rs' hmap
    exact ⟨text, hstore, hload⟩

/-- A bold record whose token has an object for a value, its members not in order. -/
def boldOfObject : Record where
  cls := .bold
  fields := [.list [.token (.proper .text) (.obj [("b", .int 1), ("a", .null)]) (.int 7)], .list []]

/-- That record is loaded again, alone and from a text with an indent; and so is a parsed
note. -/
theorem stored_nodes_load_bold :
    loadRecord boldOfObject.store = .ok boldOfObject ∧
    (∃ text rs', storeNodes [boldOfObject.value] (some 2) = .ok text ∧ loadNodes text = .ok rs' ∧
      rs'.map Record.sorted = [boldOfObject.sorted]) ∧
    ∃ rs text, ((parseInline "**a**").run {}).1.result = .ok (rs.map Record.value) ∧
      storeNodes (rs.map Record.value) = .ok text ∧ loadNodes text = .ok rs := by
  obtain ⟨hrecord, hsequence, hparse, hstandard⟩ := stored_nodes_load
  have hload : loadRecord boldOfObject.store = .ok boldOfObject := rfl
  have hstore : boldOfObject.store.Proper := by
    simp [boldOfObject, Record.store, Record.value, storeValue, storeItems, Json.Proper,
      Json.ProperItems, Json.ProperMembers, NodeClass.fields, LooseType.store]
  have hloaded : ∀ r ∈ [boldOfObject], ∃ d : Json, d.Proper ∧ loadRecord d = .ok r := by
    simp only [List.forall_mem_singleton]
    exact ⟨boldOfObject.store, hstore, hload⟩
  obtain ⟨hproper, hkept⟩ := hsequence [boldOfObject] hloaded
  have htext : (Json.arr ([boldOfObject].map Record.store)).hasText = true := by
    simp [boldOfObject, Record.store, Record.value, storeValue, storeItems, Json.hasText,
      Json.itemsHaveText, Json.membersHaveText, NodeClass.fields, LooseType.store, hasText, decimal,
      maxDigits]
  refine ⟨hrecord _ _ hload, hkept _ (some 2) (hstandard _ _ (by decide) htext hproper), ?_⟩
  obtain ⟨rs, hresult, hrs, hkept⟩ := hparse "**a**" none {} (List.Subset.refl _)
  have heval : ((parseInline "**a**").run {}).1.result = .ok ([Record.mk .bold
      [.list [.token (.proper .text) (.str "a") (.int 2)], .list [.record .text [.text "a"]]]].map
        Record.value) := rfl
  obtain rfl := List.map_injective_iff.mpr (fun _ _ => Record.value_injective)
    (Except.ok.inj (hresult.symm.trans heval))
  obtain ⟨text, hstored, hloads⟩ := hkept .standard none (hstandard none _ rfl (by
    simp [Record.store, Record.value, storeValue, storeItems, Json.hasText, Json.itemsHaveText,
      Json.membersHaveText, NodeClass.fields, LooseType.store, hasText, decimal, maxDigits,
      Value.text]) (hsequence _ hrs).1)
  exact ⟨_, text, hresult, hstored, hloads⟩

end InlineMarkup
