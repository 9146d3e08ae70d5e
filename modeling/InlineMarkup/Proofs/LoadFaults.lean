/-
# How loading fails

When a value is not that of a stored node, loading it fails with a fault of storing, with two
exceptions. An array or object that stands for the name of a class or of a token's type cannot
be looked up, which is a fault of type. And a message about an unknown class or a malformed
token shows what is at fault, which fails with a fault of value when there is an integer of too
many digits in it.

Fields and items are read in order and the first fault is the one reported, so loading breaks
exactly when it comes upon such a place before any other fault (`ComesUpon`). The text of a
value can besides hold a number of too many digits, which is a fault of value.

Key definitions: `BadClass`, `BadToken`, `ComesUpon`, `Breaks`, `Flawed`, `Reports`. Key theorems:
`breaks_loadValue_iff`, `load_reports_iff`.
-/
import InlineMarkup.Proofs.Loading

namespace InlineMarkup

/-- Arrays and objects, which cannot be looked up as names. -/
def Json.isCompound : Json → Bool
  | arr _ => true
  | obj _ => true
  | _ => false

/-- What stands for the name of a class and breaks loading, with the fault that it gives: an array
or object, and an integer that is too long for the message that no class has this name. -/
inductive BadClass : Json → Fault → Prop
  | compound {name : Json} (stands : name.isCompound = true) : BadClass name (.notKey name.typeName)
  | long {n : Int} (textless : hasText n = false) : BadClass (.int n) .noNumberText

/-- The members name a type and hold a value, as those of a stored token do. -/
def HasTypeAndValue (ms : List (String × Json)) : Prop :=
  ∃ name type value, ms.lookup "type" = some (.str name) ∧ TokenType.ofName? name = some type ∧
    ms.lookup "value" = some value

/-- The members of a stored token break loading, with the fault that they give: an array or object
stands for the name of its type, or they are not those of a token and hold an integer that is too
long for the message which shows them all. -/
inductive BadToken (ms : List (String × Json)) : Fault → Prop
  | compound {name : Json} (named : ms.lookup "type" = some name) (stands : name.isCompound = true) :
      BadToken ms (.notKey name.typeName)
  | long (plain : ∀ name, ms.lookup "type" = some name → name.isCompound = false)
      (malformed : ¬ HasTypeAndValue ms) (textless : (Json.obj ms).hasText = false) :
      BadToken ms .noNumberText

/-- What is read one after the other comes, before any fault, upon the name of a class or upon a
token that breaks loading with `fault`. -/
inductive ComesUpon (fault : Fault) : Json → Prop
  | item {front back : List Json} {v : Json} (loaded : ∀ w ∈ front, ∃ x, loadValue w = .ok x)
      (inside : ComesUpon fault v) : ComesUpon fault (.arr (front ++ v :: back))
  | token {ms : List (String × Json)} (token : isStoredToken ms = true) (bad : BadToken ms fault) :
      ComesUpon fault (.obj ms)
  | className {ms : List (String × Json)} {name : Json} (named : ms.lookup "_type" = some name)
      (bad : BadClass name fault) : ComesUpon fault (.obj ms)
  | field {ms : List (String × Json)} {cls : NodeClass} {front back : List String} {field : String}
      {v : Json} (known : storedClass ms = .ok cls) (split : cls.fields = front ++ field :: back)
      (loaded : ∀ f ∈ front, ∃ given, loadField f ms = .ok given)
      (held : ms.lookup field = some v) (inside : ComesUpon fault v) : ComesUpon fault (.obj ms)

/-- What fails, and not with a fault of storing. -/
def Breaks {α : Type} (result : Except Fault α) (fault : Fault) : Prop :=
  result = .error fault ∧ fault.kind ≠ .serialization

theorem not_breaks_of_kind {α : Type} {fault fault' : Fault} (h : fault.kind = .serialization) :
    ¬ Breaks (.error fault : Except Fault α) fault' := by
  rintro ⟨⟨⟩, hkind⟩
  exact hkind h

theorem not_breaks_ok {α : Type} {a : α} {fault : Fault} :
    ¬ Breaks (.ok a : Except Fault α) fault := by
  rintro ⟨⟨⟩, -⟩

theorem breaks_map_iff {α β : Type} {result : Except Fault α} {f : α → β} {fault : Fault} :
    Breaks (result.map f) fault ↔ Breaks result fault := by
  rw [Breaks, Breaks, map_eq_error_iff]

theorem breaks_bind_iff {α β : Type} {result : Except Fault α} {f : α → Except Fault β}
    {fault : Fault} : Breaks (result >>= f) fault ↔
      Breaks result fault ∨ ∃ a, result = .ok a ∧ Breaks (f a) fault := by
  simp only [Breaks, bind_eq_error_iff]
  constructor
  · rintro ⟨h | ⟨a, ha, h⟩, hkind⟩
    · exact .inl ⟨h, hkind⟩
    · exact .inr ⟨a, ha, h, hkind⟩
  · rintro (⟨h, hkind⟩ | ⟨a, ha, h, hkind⟩)
    · exact ⟨.inl h, hkind⟩
    · exact ⟨.inr ⟨a, ha, h⟩, hkind⟩

theorem breaks_mapM_iff {α β : Type} {f : α → Except Fault β} {xs : List α} {fault : Fault} :
    Breaks (xs.mapM f) fault ↔ ∃ front x back, xs = front ++ x :: back ∧
      (∀ w ∈ front, ∃ y, f w = .ok y) ∧ Breaks (f x) fault := by
  simp only [Breaks, mapM_eq_error_iff]
  constructor
  · rintro ⟨⟨front, x, back, hsplit, hfront, hx⟩, hkind⟩
    exact ⟨front, x, back, hsplit, hfront, hx, hkind⟩
  · rintro ⟨front, x, back, hsplit, hfront, hx, hkind⟩
    exact ⟨⟨front, x, back, hsplit, hfront, hx⟩, hkind⟩

theorem breaks_error_iff {α : Type} {given fault : Fault} (h : given.kind ≠ .serialization) :
    Breaks (.error given : Except Fault α) fault ↔ fault = given := by
  constructor
  · rintro ⟨⟨⟩, -⟩
    rfl
  · rintro rfl
    exact ⟨rfl, h⟩

theorem kind_notKey (type : String) : (Fault.notKey type).kind ≠ .serialization := by
  simp [Fault.kind]

theorem breaks_showing_iff {α : Type} {v : Json} {known fault : Fault}
    (h : known.kind = .serialization) :
    Breaks (.error (.showing v known) : Except Fault α) fault ↔
      v.hasText = false ∧ fault = .noNumberText := by
  cases htext : v.hasText with
  | true => simp [Fault.showing, htext, not_breaks_of_kind h]
  | false =>
    have hkind : Fault.noNumberText.kind ≠ .serialization := by simp [Fault.kind]
    simp [Fault.showing, htext, breaks_error_iff hkind]

/-! ### Names -/

/-- Looking a name up breaks when it is an array or object, or when it leads nowhere and the
fault of that is not one of storing. -/
theorem breaks_lookUpName_iff {α : Type} {find? : String → Option α} {unknown fault : Fault}
    {v : Json} : Breaks (lookUpName find? unknown v) fault ↔
      (v.isCompound = true ∧ fault = .notKey v.typeName) ∨
      (v.isCompound = false ∧ (∀ a, lookUpName find? unknown v ≠ .ok a) ∧
        Breaks (.error unknown : Except Fault α) fault) := by
  cases v with
  | str s => cases hs : find? s <;> simp [lookUpName, hs, Json.isCompound, not_breaks_ok]
  | arr items | obj members =>
    simp [lookUpName, Json.isCompound, breaks_error_iff (kind_notKey _)]
  | _ => simp [lookUpName, Json.isCompound]

theorem breaks_storedClass_iff {ms : List (String × Json)} {fault : Fault} :
    Breaks (storedClass ms) fault ↔ ∃ name, ms.lookup "_type" = some name ∧ BadClass name fault := by
  unfold storedClass Json.member?
  cases ms.lookup "_type" with
  | none => simp [not_breaks_of_kind (show Fault.classMissing.kind = .serialization from rfl)]
  | some name =>
    have hlookup : Breaks (lookUpName NodeClass.ofStoredName? (.ofClass name) name) fault ↔
        BadClass name fault := by
      rw [breaks_lookUpName_iff, Fault.ofClass, breaks_showing_iff rfl]
      constructor
      · rintro (⟨hname, rfl⟩ | ⟨hname, -, htext, rfl⟩)
        · exact .compound hname
        · cases name with
          | int n => exact .long htext
          | _ => first | cases htext | cases hname
      · rintro (hname | htext)
        · exact .inl ⟨hname, rfl⟩
        · exact .inr ⟨rfl, by simp [lookUpName], htext, rfl⟩
    simp only [Option.some.injEq, exists_eq_left']
    cases name with
    | null =>
      refine iff_of_false (not_breaks_of_kind rfl) ?_
      rintro ⟨⟨⟩⟩
    | _ => exact hlookup

theorem breaks_ofToken_iff {α : Type} {ms : List (String × Json)} {fault : Fault} :
    Breaks (.error (.ofToken ms) : Except Fault α) fault ↔
      (Json.obj ms).hasText = false ∧ fault = .noNumberText :=
  breaks_showing_iff rfl

theorem loadToken_of_not_lookup {ms : List (String × Json)} (h : ms.lookup "type" = none) :
    loadToken ms = .error (.ofToken ms) := by
  rw [loadToken, Json.member?, h]

theorem BadToken.of_breaks {ms : List (String × Json)} {fault : Fault}
    (h : Breaks (loadToken ms) fault) : BadToken ms fault := by
  cases hname : ms.lookup "type" with
  | none =>
    rw [loadToken_of_not_lookup hname] at h
    obtain ⟨htext, rfl⟩ := breaks_ofToken_iff.mp h
    exact .long (by simp [hname]) (by simp [HasTypeAndValue, hname]) htext
  | some name =>
    rw [loadToken_of_lookup hname, breaks_bind_iff, breaks_lookUpName_iff] at h
    obtain (⟨hstands, rfl⟩ | ⟨hplain, hnone, hbreaks⟩) | ⟨type, htype, hbreaks⟩ := h
    · exact .compound hname hstands
    · obtain ⟨htext, rfl⟩ := breaks_ofToken_iff.mp hbreaks
      refine .long (by simpa [hname] using hplain) ?_ htext
      rintro ⟨s, type, -, hs, htype, -⟩
      rw [hname] at hs
      exact hnone type (lookUpName_eq_ok_iff.mpr ⟨s, Option.some.inj hs, htype⟩)
    · obtain ⟨s, rfl, -⟩ := lookUpName_eq_ok_iff.mp htype
      cases hvalue : ms.lookup "value" with
      | some value =>
        rw [hvalue] at hbreaks
        exact absurd hbreaks not_breaks_ok
      | none =>
        rw [hvalue] at hbreaks
        obtain ⟨htext, rfl⟩ := breaks_ofToken_iff.mp hbreaks
        exact .long (by simp [hname, Json.isCompound]) (by simp [HasTypeAndValue, hvalue]) htext

theorem BadToken.breaks {ms : List (String × Json)} {fault : Fault} (h : BadToken ms fault) :
    Breaks (loadToken ms) fault := by
  cases h with
  | compound hname hstands =>
    rw [loadToken_of_lookup hname, breaks_bind_iff, breaks_lookUpName_iff]
    exact .inl (.inl ⟨hstands, rfl⟩)
  | long hplain hbad htext =>
    cases hname : ms.lookup "type" with
    | none =>
      rw [loadToken_of_not_lookup hname]
      exact breaks_ofToken_iff.mpr ⟨htext, rfl⟩
    | some name =>
      rw [loadToken_of_lookup hname, breaks_bind_iff, breaks_lookUpName_iff]
      cases hlook : lookUpName TokenType.ofName? (.ofToken ms) name with
      | error given =>
        exact .inl (.inr ⟨hplain name hname, by simp, breaks_ofToken_iff.mpr ⟨htext, rfl⟩⟩)
      | ok type =>
        obtain ⟨s, rfl, htype⟩ := lookUpName_eq_ok_iff.mp hlook
        refine .inr ⟨type, rfl, ?_⟩
        cases hvalue : ms.lookup "value" with
        | none => exact breaks_ofToken_iff.mpr ⟨htext, rfl⟩
        | some value => exact absurd ⟨s, type, value, hname, htype, hvalue⟩ hbad

theorem breaks_loadToken_iff {ms : List (String × Json)} {fault : Fault} :
    Breaks (loadToken ms) fault ↔ BadToken ms fault :=
  ⟨.of_breaks, BadToken.breaks⟩

/-! ### Values -/

theorem breaks_loadField_iff {field : String} {ms : List (String × Json)} {fault : Fault} :
    Breaks (loadField field ms) fault ↔
      ∃ v, ms.lookup field = some v ∧ Breaks (loadValue v) fault := by
  rw [loadField_eq]
  cases ms.lookup field with
  | none => simp [not_breaks_ok]
  | some v => simp [breaks_map_iff]

theorem not_breaks_ofFields {cls : NodeClass} {given : List (String × Option Value)} {fault : Fault} :
    ¬ Breaks (Value.ofFields cls given) fault := by
  unfold Value.ofFields
  split
  · exact not_breaks_of_kind rfl
  · exact not_breaks_ok

/-- An object breaks as a record by the name of its class, or by the first field that does not
hold a value. -/
theorem breaks_loadRecord_obj_iff {ms : List (String × Json)} {fault : Fault} :
    Breaks (loadRecord (.obj ms)) fault ↔
      (∃ name, ms.lookup "_type" = some name ∧ BadClass name fault) ∨
      ∃ cls front field back v, storedClass ms = .ok cls ∧ cls.fields = front ++ field :: back ∧
        (∀ f ∈ front, ∃ given, loadField f ms = .ok given) ∧ ms.lookup field = some v ∧
        Breaks (loadValue v) fault := by
  rw [loadRecord_obj, breaks_bind_iff, breaks_storedClass_iff]
  simp only [breaks_bind_iff, not_breaks_ofFields, and_false, exists_false, or_false,
    breaks_mapM_iff, breaks_map_iff, breaks_loadField_iff, map_eq_ok_iff]
  refine or_congr_right ?_
  constructor
  · rintro ⟨cls, hcls, front, field, back, hsplit, hfront, v, hv, hbreaks⟩
    refine ⟨cls, front, field, back, v, hcls, hsplit, fun f hf => ?_, hv, hbreaks⟩
    obtain ⟨_, given, hgiven, -⟩ := hfront f hf
    exact ⟨given, hgiven⟩
  · rintro ⟨cls, front, field, back, v, hcls, hsplit, hfront, hv, hbreaks⟩
    refine ⟨cls, hcls, front, field, back, hsplit, fun f hf => ?_, v, hv, hbreaks⟩
    obtain ⟨given, hgiven⟩ := hfront f hf
    exact ⟨_, given, hgiven, rfl⟩

theorem storedClass_of_token {ms : List (String × Json)} (h : isStoredToken ms = true) :
    storedClass ms = .error (.unknownClass (.str "Token")) := by
  rw [storedClass, Json.member?, isStoredToken_iff.mp h]
  rfl

theorem not_badClass_str {name : String} {fault : Fault} : ¬ BadClass (.str name) fault := by
  rintro ⟨⟨⟩⟩

/-- **Loading a value breaks exactly when it comes upon a class name or a token that breaks
it.** -/
theorem breaks_loadValue_iff {j : Json} {fault : Fault} :
    Breaks (loadValue j) fault ↔ ComesUpon fault j := by
  induction j using Json.induction with
  | arr items ih =>
    rw [loadValue, breaks_map_iff, loadItems_eq_mapM, breaks_mapM_iff]
    constructor
    · rintro ⟨front, v, back, rfl, hfront, hv⟩
      exact .item hfront ((ih v (by simp)).mp hv)
    · intro hcomes
      cases hcomes with
      | @item front back v hfront hinside =>
        exact ⟨front, v, back, rfl, hfront, (ih v (by simp)).mpr hinside⟩
  | obj ms ih =>
    rw [loadValue_obj]
    split
    · next htoken =>
      rw [breaks_loadToken_iff]
      constructor
      · exact .token htoken
      · intro hcomes
        cases hcomes with
        | token _ hbad => exact hbad
        | className hlookup hbad =>
          rw [isStoredToken_iff.mp htoken] at hlookup
          cases hlookup
          exact absurd hbad not_badClass_str
        | field known =>
          rw [storedClass_of_token htoken] at known
          cases known
    · next htoken =>
      rw [breaks_map_iff, breaks_loadRecord_obj_iff]
      constructor
      · rintro (⟨name, hlookup, hbad⟩ |
          ⟨cls, front, field, back, v, hcls, hsplit, hfront, hv, hbreaks⟩)
        · exact .className hlookup hbad
        · exact .field hcls hsplit hfront hv ((ih (field, v) (mem_of_lookup hv)).mp hbreaks)
      · intro hcomes
        cases hcomes with
        | token token => exact absurd token htoken
        | className hlookup hbad => exact .inl ⟨_, hlookup, hbad⟩
        | @field _ cls front back field v hcls hsplit hfront hv hinside =>
          have hbreaks := (ih (field, v) (mem_of_lookup hv)).mpr hinside
          exact .inr ⟨cls, front, field, back, v, hcls, hsplit, hfront, hv, hbreaks⟩
  | _ =>
    refine iff_of_false not_breaks_ok ?_
    rintro ⟨⟩

/-! ### Records and texts of records -/

/-- A stored node comes upon a class name or a token that breaks loading. What is a stored token
inside a field is by itself a node of no known class. -/
def Flawed (d : Json) (fault : Fault) : Prop :=
  ∃ ms, d = .obj ms ∧ isStoredToken ms = false ∧ ComesUpon fault d

theorem breaks_loadRecord_iff {d : Json} {fault : Fault} :
    Breaks (loadRecord d) fault ↔ Flawed d fault := by
  cases d with
  | obj ms =>
    cases htoken : isStoredToken ms with
    | true =>
      rw [loadRecord_obj, storedClass_of_token htoken]
      refine iff_of_false (not_breaks_of_kind rfl) ?_
      rintro ⟨_, ⟨⟩, hnode, -⟩
      rw [htoken] at hnode
      cases hnode
    | false =>
      have hvalue : Breaks (loadValue (.obj ms)) fault ↔ _ := breaks_loadValue_iff
      rw [loadValue_obj, htoken, if_neg Bool.false_ne_true, breaks_map_iff] at hvalue
      rw [hvalue]
      constructor
      · exact fun hcomes => ⟨ms, rfl, htoken, hcomes⟩
      · rintro ⟨_, -, -, hcomes⟩
        exact hcomes
  | _ =>
    refine iff_of_false (not_breaks_of_kind rfl) ?_
    rintro ⟨_, ⟨⟩, -⟩

/-- In an array the first node that cannot be loaded is flawed. -/
def FlawedIn (v : Json) (fault : Fault) : Prop :=
  ∃ front d back, v = .arr (front ++ d :: back) ∧ (∀ w ∈ front, ∃ r, loadRecord w = .ok r) ∧
    Flawed d fault

theorem breaks_loadArray_iff {v : Json} {fault : Fault} :
    Breaks (loadArray v) fault ↔ FlawedIn v fault := by
  cases v with
  | arr items =>
    rw [loadArray, loadRecords_eq_mapM, breaks_mapM_iff]
    simp only [breaks_loadRecord_iff, FlawedIn, Json.arr.injEq]
  | _ =>
    refine iff_of_false (not_breaks_of_kind rfl) ?_
    rintro ⟨_, _, _, ⟨⟩, -⟩

theorem JsonCodec.read_of_parse {text : String} {v : Json} (h : Json.parse text = .ok v) :
    standard.read text = .ok v := by
  change (Json.parse text).mapError Fault.ofJson = _
  rw [h]
  rfl

theorem loadNodes_of_parse {text : String} {v : Json} (h : Json.parse text = .ok v) :
    loadNodes text = loadArray v := by
  rw [loadNodes, JsonCodec.read_of_parse h]

/-- A number of too many digits breaks a text, before anything else does. -/
theorem breaks_loadNodes_of_not_hasText (indent : Option Int) {v : Json} (htext : v.hasText = false)
    (hproper : v.Proper) : ∃ count, Breaks (loadNodes (v.render indent)) (.tooManyDigits count) := by
  obtain ⟨fault, count, hparse, hcause⟩ := Json.parse_render_of_not_hasText indent htext hproper
  have hread : JsonCodec.standard.read (v.render indent) = .error (.tooManyDigits count) := by
    change (Json.parse (v.render indent)).mapError Fault.ofJson = _
    rw [hparse, Except.mapError, Fault.ofJson, hcause]
  refine ⟨count, ?_, by simp [Fault.kind]⟩
  rw [loadNodes, hread]

/-- What gives a result, or fails with a fault of storing. -/
def Reports {α : Type} (result : Except Fault α) : Prop :=
  (∃ a, result = .ok a) ∨ ∃ fault, result = .error fault ∧ fault.kind = .serialization

theorem reports_iff {α : Type} {result : Except Fault α} :
    Reports result ↔ ∀ fault, ¬ Breaks result fault := by
  cases result with
  | ok a => simp [Reports, not_breaks_ok]
  | error fault => simp [Reports, Breaks]

/-- **Malformed input is reported as a fault of storing**, unless loading comes upon a class name
or a token that breaks it. So it is for every value, for every text of a value, and for the text
that it is written as, when no number in it has too many digits to be read. -/
theorem load_reports_iff (d : Json) :
    (Reports (loadRecord d) ↔ ∀ fault, ¬ Flawed d fault) ∧
    (∀ text, Json.parse text = .ok d →
      (Reports (loadNodes text) ↔ ∀ fault, ¬ FlawedIn d fault)) ∧
    ∀ indent, d.Proper → (Reports (loadNodes (d.render indent)) ↔
      d.hasText = true ∧ ∀ fault, ¬ FlawedIn d.sorted fault) := by
  have hparsed : ∀ text v, Json.parse text = .ok v →
      (Reports (loadNodes text) ↔ ∀ fault, ¬ FlawedIn v fault) := by
    intro text v hparse
    simp only [reports_iff, loadNodes_of_parse hparse, breaks_loadArray_iff]
  refine ⟨?_, fun text => hparsed text d, fun indent hproper => ?_⟩
  · simp only [reports_iff, breaks_loadRecord_iff]
  · cases htext : d.hasText with
    | true =>
      rw [hparsed _ _ (Json.parse_render indent htext hproper)]
      exact ⟨fun h => ⟨rfl, h⟩, fun h => h.2⟩
    | false =>
      obtain ⟨count, hbreaks⟩ := breaks_loadNodes_of_not_hasText indent htext hproper
      exact ⟨fun h => absurd hbreaks (reports_iff.mp h _), fun h => absurd h.1 Bool.false_ne_true⟩

/-- A node whose class is a list is not reported as malformed, alone or in the text of an
array; nor is one alone whose class is an integer of too many digits. -/
theorem load_reports_iff_list :
    ¬ Reports (loadRecord (.obj [("_type", .arr [])])) ∧
    ¬ Reports (loadNodes ((Json.arr [.obj [("_type", .arr [])]]).render none)) ∧
    ¬ Reports (loadRecord (.obj [("_type", .int (10 ^ maxDigits))])) := by
  have hlist : Flawed (.obj [("_type", .arr [])]) (.notKey "list") :=
    ⟨_, rfl, rfl, .className rfl (.compound rfl)⟩
  have hlong : Flawed (.obj [("_type", .int (10 ^ maxDigits))]) .noNumberText :=
    ⟨_, rfl, rfl, .className rfl (.long ((hasText_ten_pow maxDigits).trans (by simp)))⟩
  have hproper : (Json.arr [.obj [("_type", .arr [])]]).Proper := by
    simp [Json.Proper, Json.ProperItems, Json.ProperMembers]
  refine ⟨fun h => (load_reports_iff _).1.mp h _ hlist, fun h => ?_,
    fun h => (load_reports_iff _).1.mp h _ hlong⟩
  exact (((load_reports_iff _).2.2 none hproper).mp h).2 _ ⟨[], _, [], rfl, by simp, hlist⟩

/-- So not everything is loaded or reported as malformed. -/
theorem exists_not_reports : ∃ d : Json, ¬ Reports (loadRecord d) := by
  refine ⟨.obj [("_type", .arr [])], ?_⟩
  rintro (⟨r, hr⟩ | ⟨fault, hfault, hkind⟩)
  · cases hr
  · cases hfault
    cases hkind

end InlineMarkup
