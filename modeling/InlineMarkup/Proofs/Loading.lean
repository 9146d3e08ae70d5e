/-
# What is loaded, and that it is stored exactly

An object is loaded as a record of the class that it names when each field of the
class holds a value: the one that the member of its name describes, or what the
field holds when it is not given (`loadRecord_obj_eq_ok_iff`). The values that
loading gives are plain scalars, lists, tokens of a proper type and records of the
classes whose nodes can be stored (`Value.Loaded`), each with a value for every
field. Those are the values that are loaded again from what they are stored as
(`loaded_iff`, `loadValue_storeValue`).

Key definitions: `Holds`, `Value.Loaded`. Key theorems: `loadRecord_obj_eq_ok_iff`,
`loadValue_storeValue`, `loaded_iff`, `storeRecords_eq`.
-/
import InlineMarkup.Proofs.JsonRoundTrip
import InlineMarkup.Stored.Load
import InlineMarkup.Stored.Store

namespace InlineMarkup

/-! ### Reading one after the other -/

theorem loadItems_eq_mapM : ∀ vs : List Json, loadItems vs = vs.mapM loadValue
  | [] => rfl
  | v :: vs => by
    rw [loadItems, loadItems_eq_mapM vs, List.mapM_cons]
    cases loadValue v <;> rfl

theorem loadRecords_eq_mapM : ∀ vs : List Json, loadRecords vs = vs.mapM loadRecord
  | [] => rfl
  | v :: vs => by
    rw [loadRecords, loadRecords_eq_mapM vs, List.mapM_cons]
    cases loadRecord v <;> rfl

theorem readFields_eq_mapM (read : String → Except Fault (Option Value)) : ∀ fields : List String,
    readFields read fields = fields.mapM fun field => (read field).map (field, ·)
  | [] => rfl
  | field :: fields => by
    rw [readFields, readFields_eq_mapM read fields, List.mapM_cons]
    cases read field <;> rfl

theorem loadItems_eq_ok_iff {vs : List Json} {ws : List Value} :
    loadItems vs = .ok ws ↔ List.Forall₂ (fun v w => loadValue v = .ok w) vs ws := by
  rw [loadItems_eq_mapM, mapM_eq_ok_iff]

theorem loadRecords_eq_ok_iff {vs : List Json} {rs : List Record} :
    loadRecords vs = .ok rs ↔ List.Forall₂ (fun v r => loadRecord v = .ok r) vs rs := by
  rw [loadRecords_eq_mapM, mapM_eq_ok_iff]

theorem loadField_eq (field : String) : ∀ ms : List (String × Json), loadField field ms =
    match ms.lookup field with
    | none => .ok none
    | some v => (loadValue v).map some
  | [] => rfl
  | (name, v) :: ms => by
    rw [loadField, loadField_eq field ms, List.lookup_cons, BEq.comm]
    cases field == name <;> rfl

/-! ### Records from objects -/

theorem completeFields_eq_ok_iff {cls : NodeClass} : ∀ {given : List (String × Option Value)}
    {vs : List Value}, Value.completeFields cls given = .ok vs ↔
      List.Forall₂ (fun p v => (p.2 <|> Value.missing? cls p.1) = some v) given vs
  | [], vs => by
    rw [Value.completeFields, List.forall₂_nil_left_iff]
    exact ⟨fun h => (Except.ok.inj h).symm, fun h => h ▸ rfl⟩
  | (field, v?) :: given, vs => by
    rw [Value.completeFields, List.forall₂_cons_left_iff]
    simp only [← completeFields_eq_ok_iff]
    cases (v? <|> Value.missing? cls field) <;> cases Value.completeFields cls given <;>
      simp [eq_comm]

/-- What a field of a class holds when a record is made of the members of an object: what
the member of its name describes, or what it holds when there is no such member. -/
def Holds (ms : List (String × Json)) (cls : NodeClass) (field : String) (v : Value) : Prop :=
  match ms.lookup field with
  | none => Value.missing? cls field = some v
  | some j => loadValue j = .ok v

theorem holds_iff {ms : List (String × Json)} {cls : NodeClass} {field : String} {v : Value} :
    Holds ms cls field v ↔ ∃ given, loadField field ms = .ok given ∧
      (given <|> Value.missing? cls field) = some v := by
  rw [Holds, loadField_eq]
  cases ms.lookup field with
  | none => simp
  | some j =>
    simp only [map_eq_ok_iff]
    constructor
    · intro h
      exact ⟨some v, ⟨v, h, rfl⟩, rfl⟩
    · rintro ⟨_, ⟨w, hw, rfl⟩, h⟩
      exact Option.some.inj h ▸ hw

/-- The fields are given what the members describe, and then completed: field by field this
is what they hold. -/
theorem exists_given_iff {ms : List (String × Json)} {cls : NodeClass} :
    ∀ {fields : List String} {vs : List Value},
      (∃ given, (fields.mapM fun field => (loadField field ms).map (field, ·)) = .ok given ∧
        Value.completeFields cls given = .ok vs) ↔ List.Forall₂ (Holds ms cls) fields vs := by
  intro fields
  simp only [mapM_eq_ok_iff, completeFields_eq_ok_iff, map_eq_ok_iff]
  induction fields with
  | nil => simp [List.forall₂_nil_left_iff]
  | cons field fields ih =>
    intro vs
    rw [List.forall₂_cons_left_iff]
    constructor
    · rintro ⟨given, hread, hcomplete⟩
      cases hread with
      | cons hfield hread =>
        obtain ⟨given, hgiven, rfl⟩ := hfield
        cases hcomplete with
        | cons hv hcomplete =>
          exact ⟨_, _, holds_iff.mpr ⟨given, hgiven, hv⟩, ih.mp ⟨_, hread, hcomplete⟩, rfl⟩
    · rintro ⟨v, vs, hv, hvs, rfl⟩
      obtain ⟨given, hgiven, hcomplete⟩ := holds_iff.mp hv
      obtain ⟨rest, hread, hrest⟩ := ih.mpr hvs
      exact ⟨_, .cons ⟨given, hgiven, rfl⟩ hread, .cons hcomplete hrest⟩

theorem loadRecord_obj (ms : List (String × Json)) : loadRecord (.obj ms) =
    (storedClass ms >>= fun cls =>
      (cls.fields.mapM fun field => (loadField field ms).map (field, ·)) >>= Value.ofFields cls) := by
  rw [loadRecord, recordOf]
  cases storedClass ms with
  | error fault => rfl
  | ok cls =>
    change _ = (cls.fields.mapM fun field => (loadField field ms).map (field, ·)) >>= Value.ofFields cls
    simp only [readFields_eq_mapM]
    cases cls.fields.mapM fun field => (loadField field ms).map (field, ·) <;> rfl

theorem ofFields_eq_ok_iff {cls : NodeClass} {given : List (String × Option Value)} {r : Record} :
    Value.ofFields cls given = .ok r ↔
      cls = r.cls ∧ Value.completeFields cls given = .ok r.fields := by
  obtain ⟨cls', fields⟩ := r
  rw [Value.ofFields]
  cases Value.completeFields cls given <;> simp

/-- **An object is loaded as a record** of the class that it names when each field of the
class holds a value. -/
theorem loadRecord_obj_eq_ok_iff {ms : List (String × Json)} {r : Record} :
    loadRecord (.obj ms) = .ok r ↔ storedClass ms = .ok r.cls ∧
      List.Forall₂ (Holds ms r.cls) r.cls.fields r.fields := by
  rw [loadRecord_obj, bind_eq_ok_iff, ← exists_given_iff]
  simp only [bind_eq_ok_iff, ofFields_eq_ok_iff]
  constructor
  · rintro ⟨cls, hcls, given, hgiven, rfl, hfields⟩
    exact ⟨hcls, given, hgiven, hfields⟩
  · rintro ⟨hcls, given, hgiven, hfields⟩
    exact ⟨r.cls, hcls, given, hgiven, rfl, hfields⟩

/-! ### Names of classes and of types -/

theorem lookUpName_eq_ok_iff {α : Type} {find? : String → Option α} {unknown : Fault} {v : Json}
    {a : α} : lookUpName find? unknown v = .ok a ↔ ∃ name, v = .str name ∧ find? name = some a := by
  cases v with
  | str name => cases hname : find? name <;> simp [lookUpName, hname]
  | _ => simp [lookUpName]

theorem storedClass_eq_ok_iff {ms : List (String × Json)} {cls : NodeClass} :
    storedClass ms = .ok cls ↔
      ∃ name, ms.lookup "_type" = some (.str name) ∧ NodeClass.ofStoredName? name = some cls := by
  unfold storedClass Json.member?
  cases ms.lookup "_type" with
  | none => simp
  | some v =>
    cases v with
    | null => simp
    | _ => simp [lookUpName_eq_ok_iff]

theorem isStoredToken_iff {ms : List (String × Json)} :
    isStoredToken ms = true ↔ ms.lookup "_type" = some (.str "Token") := by
  unfold isStoredToken Json.member?
  cases ms.lookup "_type" with
  | none => simp
  | some v => cases v <;> simp

theorem loadToken_of_lookup {ms : List (String × Json)} {v : Json} (h : ms.lookup "type" = some v) :
    loadToken ms = (lookUpName TokenType.ofName? (.ofToken ms) v >>= fun type =>
      match ms.lookup "value" with
      | none => .error (.ofToken ms)
      | some value => .ok (.token (.proper type) value ((ms.lookup "offset").getD (.int 0)))) := by
  rw [loadToken, Json.member?, h]
  rfl

theorem loadToken_eq_ok_iff {ms : List (String × Json)} {v : Value} : loadToken ms = .ok v ↔
    ∃ name type value, ms.lookup "type" = some (.str name) ∧ TokenType.ofName? name = some type ∧
      ms.lookup "value" = some value ∧
      v = .token (.proper type) value ((ms.lookup "offset").getD (.int 0)) := by
  cases htype : ms.lookup "type" with
  | none => simp [loadToken, Json.member?, htype]
  | some w =>
    rw [loadToken_of_lookup htype, bind_eq_ok_iff]
    simp only [lookUpName_eq_ok_iff]
    cases ms.lookup "value" with
    | none => simp
    | some value =>
      constructor
      · rintro ⟨type, ⟨name, rfl, hname⟩, h⟩
        exact ⟨name, type, value, rfl, hname, rfl, (Except.ok.inj h).symm⟩
      · rintro ⟨name, type, _, hw, hname, ⟨⟩, rfl⟩
        exact ⟨type, ⟨name, Option.some.inj hw, hname⟩, rfl⟩

theorem loadValue_obj (ms : List (String × Json)) : loadValue (.obj ms) =
    if isStoredToken ms then loadToken ms else (loadRecord (.obj ms)).map Record.value := by
  rw [loadValue]
  rfl

theorem mem_stored_of_ofStoredName? {name : String} {cls : NodeClass}
    (h : NodeClass.ofStoredName? name = some cls) : cls ∈ NodeClass.stored :=
  List.mem_of_find?_eq_some h

theorem ofStoredName?_name : ∀ cls ∈ NodeClass.stored,
    NodeClass.ofStoredName? cls.name = some cls := by
  decide

theorem name_ne_token (cls : NodeClass) : cls.name ≠ "Token" := by
  cases cls <;> decide

theorem TokenType.ofName?_name (type : TokenType) : TokenType.ofName? type.name = some type := by
  cases type <;> decide

/-! ### Values that are loaded -/

/-- The values that loading gives: plain scalars, lists, tokens of a proper type, and records
of classes whose nodes can be stored, with a value for each field. -/
inductive Value.Loaded : Value → Prop
  | null : Loaded (.plain .null)
  | bool (b : Bool) : Loaded (.plain (.bool b))
  | int (n : Int) : Loaded (.plain (.int n))
  | str (s : String) : Loaded (.plain (.str s))
  | list {vs : List Value} (items : ∀ v ∈ vs, Loaded v) : Loaded (.list vs)
  | token (type : TokenType) (value offset : Json) : Loaded (.token (.proper type) value offset)
  | record {cls : NodeClass} {fields : List Value} (stored : cls ∈ NodeClass.stored)
      (complete : fields.length = cls.fields.length) (items : ∀ v ∈ fields, Loaded v) :
      Loaded (.record cls fields)

/-- What is true of what the members of an object describe, and of no children, is true of
what the fields of a record hold. -/
theorem forall_of_holds {P : Value → Prop} {ms : List (String × Json)} {cls : NodeClass}
    {fields : List Value} (hmembers : ∀ m ∈ ms, ∀ v, loadValue m.2 = .ok v → P v)
    (hnone : P (.list [])) (h : List.Forall₂ (Holds ms cls) cls.fields fields) :
    ∀ v ∈ fields, P v := by
  intro v hv
  obtain ⟨field, -, hfield⟩ := exists_of_forall₂ h v hv
  unfold Holds at hfield
  split at hfield
  · unfold Value.missing? at hfield
    split at hfield
    · exact Option.some.inj hfield ▸ hnone
    · cases hfield
  · next j hj => exact hmembers (field, j) (mem_of_lookup hj) v hfield

/-- **What loading gives is loaded in this sense.** -/
theorem loaded_of_loadValue {j : Json} {v : Value} (h : loadValue j = .ok v) : v.Loaded := by
  induction j using Json.induction generalizing v with
  | null => exact Except.ok.inj h ▸ .null
  | bool b => exact Except.ok.inj h ▸ .bool b
  | int n => exact Except.ok.inj h ▸ .int n
  | str s => exact Except.ok.inj h ▸ .str s
  | arr items ih =>
    rw [loadValue] at h
    obtain ⟨vs, hvs, rfl⟩ := map_eq_ok_iff.mp h
    refine .list fun v hv => ?_
    obtain ⟨w, hw, hload⟩ := exists_of_forall₂ (loadItems_eq_ok_iff.mp hvs) v hv
    exact ih w hw hload
  | obj ms ih =>
    rw [loadValue_obj] at h
    split at h
    · obtain ⟨-, type, value, -, -, -, rfl⟩ := loadToken_eq_ok_iff.mp h
      exact .token type value _
    · obtain ⟨r, hr, rfl⟩ := map_eq_ok_iff.mp h
      obtain ⟨hcls, hfields⟩ := loadRecord_obj_eq_ok_iff.mp hr
      obtain ⟨name, -, hname⟩ := storedClass_eq_ok_iff.mp hcls
      exact .record (mem_stored_of_ofStoredName? hname) hfields.length_eq.symm
        (forall_of_holds ih (.list (by simp)) hfields)

/-! ### Values as they are stored -/

theorem storeItems_eq_map : ∀ vs : List Value, storeItems vs = vs.map storeValue
  | [] => rfl
  | v :: vs => by rw [storeItems, storeItems_eq_map vs, List.map_cons]

theorem nodup_fields (cls : NodeClass) : ("_type" :: cls.fields).Nodup := by
  cases cls <;> decide

theorem names_store {cls : NodeClass} {fields : List Value}
    (h : fields.length = cls.fields.length) :
    (("_type", Json.str cls.name) :: cls.fields.zip (storeItems fields)).map Prod.fst =
      "_type" :: cls.fields := by
  have hlen : cls.fields.length ≤ (storeItems fields).length := by
    rw [storeItems_eq_map, List.length_map]
    exact Nat.le_of_eq h.symm
  rw [List.map_cons, List.map_fst_zip hlen]

theorem lookup_store {cls : NodeClass} {fields : List Value} {field : String} {v : Value}
    (h : fields.length = cls.fields.length) (hv : (field, v) ∈ cls.fields.zip fields) :
    (("_type", Json.str cls.name) :: cls.fields.zip (storeItems fields)).lookup field =
      some (storeValue v) := by
  have hnodup := nodup_fields cls
  rw [← names_store h] at hnodup
  refine (lookup_eq_some_iff_mem hnodup).mpr (List.mem_cons_of_mem _ ?_)
  rw [storeItems_eq_map, List.zip_map_right]
  exact List.mem_map_of_mem hv

/-- **A value that loading gives is loaded from what it is stored as.** -/
theorem loadValue_storeValue {v : Value} (h : v.Loaded) : loadValue (storeValue v) = .ok v := by
  induction h with
  | list _ ih =>
    rw [storeValue, loadValue, storeItems_eq_map]
    exact map_eq_ok_iff.mpr ⟨_, loadItems_eq_ok_iff.mpr
      (List.forall₂_map_left_iff.mpr (List.forall₂_same.mpr ih)), rfl⟩
  | token type value offset =>
    rw [storeValue, loadValue_obj, if_pos (isStoredToken_iff.mpr rfl)]
    exact loadToken_eq_ok_iff.mpr ⟨type.name, type, value, rfl, type.ofName?_name, rfl, rfl⟩
  | @record cls fields stored complete _ ih =>
    have hclass : ¬ isStoredToken (("_type", Json.str cls.name) ::
        cls.fields.zip (storeItems fields)) = true := by
      rw [isStoredToken_iff, List.lookup_cons_self]
      simp [name_ne_token cls]
    rw [storeValue, loadValue_obj, if_neg hclass]
    refine map_eq_ok_iff.mpr ⟨⟨cls, fields⟩, loadRecord_obj_eq_ok_iff.mpr ⟨?_, ?_⟩, rfl⟩
    · exact storedClass_eq_ok_iff.mpr ⟨cls.name, List.lookup_cons_self, ofStoredName?_name cls stored⟩
    · refine List.forall₂_iff_zip.mpr ⟨complete.symm, fun {field v} hv => ?_⟩
      rw [Holds, lookup_store complete hv]
      exact ih v (List.of_mem_zip hv).2
  | _ => rfl

/-- The loaded values are those that loading can give. -/
theorem loaded_iff {v : Value} : v.Loaded ↔ ∃ j, loadValue j = .ok v :=
  ⟨fun h => ⟨storeValue v, loadValue_storeValue h⟩, fun ⟨_, h⟩ => loaded_of_loadValue h⟩

theorem Record.value_injective {r s : Record} (h : r.value = s.value) : r = s := by
  cases r
  cases s
  cases h
  rfl

theorem loadValue_eq_ok_value_iff {j : Json} {r : Record} :
    loadValue j = .ok r.value ↔ loadRecord j = .ok r := by
  cases j with
  | obj ms =>
    rw [loadValue_obj]
    split
    · next htoken =>
      constructor
      · intro h
        obtain ⟨_, _, _, _, _, _, hr⟩ := loadToken_eq_ok_iff.mp h
        cases hr
      · intro h
        obtain ⟨name, hname, hcls⟩ := storedClass_eq_ok_iff.mp (loadRecord_obj_eq_ok_iff.mp h).1
        rw [isStoredToken_iff.mp htoken] at hname
        cases hname
        have hnone : NodeClass.ofStoredName? "Token" = none := by decide
        rw [hnone] at hcls
        cases hcls
    · rw [map_eq_ok_iff]
      constructor
      · rintro ⟨s, hs, heq⟩
        exact Record.value_injective heq ▸ hs
      · exact fun h => ⟨r, h, rfl⟩
  | arr items =>
    rw [loadValue, map_eq_ok_iff]
    constructor
    · rintro ⟨_, _, h⟩
      cases h
    · rintro ⟨⟩
  | _ => constructor <;> rintro ⟨⟩

/-- **A loaded record is loaded again, the same, from what it is stored as.** -/
theorem loadRecord_store {j : Json} {r : Record} (h : loadRecord j = .ok r) :
    loadRecord r.store = .ok r :=
  loadValue_eq_ok_value_iff.mp (loadValue_storeValue (loaded_of_loadValue
    (loadValue_eq_ok_value_iff.mpr h)))

/-! ### Records are stored -/

theorem strayTypes?_eq_none_iff : ∀ {vs : List Value},
    strayTypes? vs = none ↔ ∀ v ∈ vs, v.strayType? = none
  | [] => by simp [strayTypes?]
  | v :: vs => by
    rw [strayTypes?, List.forall_mem_cons, ← strayTypes?_eq_none_iff]
    cases v.strayType? <;> simp

theorem Value.Loaded.strayType?_eq_none {v : Value} (h : v.Loaded) : v.strayType? = none := by
  induction h with
  | list _ ih => exact strayTypes?_eq_none_iff.mpr ih
  | record _ _ _ ih => exact strayTypes?_eq_none_iff.mpr ih
  | _ => rfl

theorem storeRecord_value {r : Record} (h : r.value.Loaded) : storeRecord r.value = .ok r.store := by
  have hstray : strayTypes? r.fields = none := h.strayType?_eq_none
  rw [Record.value, storeRecord, hstray]
  rfl

theorem storeRecords_eq : ∀ {rs : List Record}, (∀ r ∈ rs, r.value.Loaded) →
    storeRecords (rs.map Record.value) = .ok (rs.map Record.store)
  | [], _ => rfl
  | r :: rs, h => by
    obtain ⟨hr, hrs⟩ := List.forall_mem_cons.mp h
    rw [List.map_cons, storeRecords, storeRecord_value hr, storeRecords_eq hrs]
    rfl

end InlineMarkup
