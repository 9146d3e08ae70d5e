/-
# Loaded nodes that can be read

Loading looks at the name of a class, at the names of its fields and at the types of tokens, but
not at what else the fields hold. So what is loaded need not be a node: a container may be loaded
with a number among its children, and then it has no markup (`exists_loaded_not_readable`).

Which JSON values are loaded as nodes is told by what they hold (`DescribesNode`): texts in the
fields of leaves, and in those of containers tokens with a text and a whole number as offset, and
children that are such values again. These are loaded, and nothing else is loaded as a record whose
fields at all depths hold what they are for (`describesNode_iff`). Records loaded so can all be
asked for their text, their markup and their tags (`readable_of_typed`).

Key definitions: `Value.Typed`, `DescribesToken`, `DescribesNode`, `Readable`.
Key theorems: `Value.typed_iff`, `describesNode_iff`, `readable_of_typed`,
`loaded_usable_iff`.
-/
import InlineMarkup.Proofs.LoadFaults
import InlineMarkup.Proofs.LooseReaders
import InlineMarkup.Proofs.RewrittenText

namespace InlineMarkup

/-! ### Fields that hold what they are for -/

/-- A record of a class whose nodes can be stored holds what its fields are for: texts, or for a
container tokens with a text and an offset each, and records that do so again. -/
inductive Value.Typed : Value → Prop
  | leaf {cls : NodeClass} {texts : List String} (stored : cls ∈ NodeClass.stored)
      (plain : cls.isContainer = false) (complete : texts.length = cls.fields.length) :
      Typed (.record cls (texts.map .text))
  | container {cls : NodeClass} {content : List Token} {children : List Value}
      (stored : cls ∈ NodeClass.stored) (nests : cls.isContainer = true)
      (below : ∀ v ∈ children, Typed v) :
      Typed (.record cls [.list (content.map Token.stored), .list children])

theorem exists_leaf {cls : NodeClass} {texts : List String} (hstored : cls ∈ NodeClass.stored)
    (hplain : cls.isContainer = false) (hcomplete : texts.length = cls.fields.length) :
    ∃ n : Node, n.Inline ∧ .record cls (texts.map .text) = n.stored := by
  have hleaf : ∃ n : Node, (Value.record cls (texts.map .text)).node? = some n ∧
      n.isContainer = false ∧ n.cls = cls := by
    cases cls with
    | node => exact absurd hstored (by decide)
    | container | bold | italic | strikethrough => cases hplain
    | image | link =>
      obtain ⟨s, t, rfl⟩ := List.length_eq_two.mp hcomplete
      exact ⟨_, rfl, rfl, rfl⟩
    | _ =>
      obtain ⟨s, rfl⟩ := List.length_eq_one_iff.mp hcomplete
      exact ⟨_, rfl, rfl, rfl⟩
  obtain ⟨n, hnode, hn, rfl⟩ := hleaf
  exact ⟨n, Node.inline_of_plain hn hstored, Value.node?_eq_some_iff.mp hnode⟩

theorem exists_kind_of_isContainer {cls : NodeClass} (h : cls.isContainer = true) :
    ∃ kind : ContainerKind, kind.cls = cls := by
  cases cls with
  | container => exact ⟨.plain, rfl⟩
  | bold => exact ⟨.bold, rfl⟩
  | italic => exact ⟨.italic, rfl⟩
  | strikethrough => exact ⟨.strikethrough, rfl⟩
  | _ => cases h

theorem exists_storedAll {vs : List Value} (h : ∀ v ∈ vs, ∃ n : Node, n.Inline ∧ v = n.stored) :
    ∃ ns : List Node, (∀ n ∈ ns, n.Inline) ∧ vs = Node.storedAll ns := by
  induction vs with
  | nil => exact ⟨[], by simp, rfl⟩
  | cons v vs ih =>
    obtain ⟨⟨n, hn, rfl⟩, hvs⟩ := List.forall_mem_cons.mp h
    obtain ⟨ns, hns, rfl⟩ := ih hvs
    exact ⟨n :: ns, List.forall_mem_cons.mpr ⟨hn, hns⟩, rfl⟩

theorem mem_storedAll_iff {v : Value} {ns : List Node} :
    v ∈ Node.storedAll ns ↔ ∃ n ∈ ns, v = n.stored := by
  induction ns with
  | nil => simp [Node.storedAll]
  | cons n ns ih => rw [Node.storedAll, List.mem_cons, ih, List.exists_mem_cons_iff]

theorem Node.Inline.typed {n : Node} (h : n.Inline) : n.stored.Typed := by
  have hstored : n.cls ∈ NodeClass.stored := h n (mem_preorder_iff.mpr (.inl rfl))
  induction n using Node.induction with
  | bare => exact absurd hstored (by decide)
  | container kind content children ih =>
    obtain ⟨hkind, hchildren⟩ := Node.inline_container_iff.mp h
    rw [Node.stored]
    refine .container hkind (by cases kind <;> rfl) fun v hv => ?_
    obtain ⟨n, hn, rfl⟩ := mem_storedAll_iff.mp hv
    exact ih n hn (hchildren n hn) (hchildren n hn n (mem_preorder_iff.mpr (.inl rfl)))
  | text s | code s | wikiLink s | highlight s | tag s =>
    exact @Value.Typed.leaf _ [s] hstored rfl rfl
  | image s t | link s t => exact @Value.Typed.leaf _ [s, t] hstored rfl rfl

/-- **The values whose fields hold what they are for are the nodes of the language.** -/
theorem Value.typed_iff {v : Value} : v.Typed ↔ ∃ n : Node, n.Inline ∧ v = n.stored := by
  constructor
  · intro h
    induction h with
    | leaf stored plain complete => exact exists_leaf stored plain complete
    | @container cls content children stored nests _ ih =>
      obtain ⟨kind, rfl⟩ := exists_kind_of_isContainer nests
      obtain ⟨ns, hns, rfl⟩ := exists_storedAll ih
      exact ⟨.container kind content ns, Node.inline_container_iff.mpr ⟨stored, hns⟩, rfl⟩
  · rintro ⟨n, hn, rfl⟩
    exact hn.typed

/-! ### JSON values that describe nodes -/

/-- A JSON value is a stored token with a text and an offset, or with none, which is then zero. -/
def DescribesToken (j : Json) (t : Token) : Prop :=
  ∃ ms, j = .obj ms ∧ isStoredToken ms = true ∧ ms.lookup "type" = some (.str t.type.name) ∧
    ms.lookup "value" = some (.str t.value) ∧ (ms.lookup "offset").getD (.int 0) = .int t.offset

/-- A JSON value is an object that names a class and has texts for the fields of a leaf, or tokens
and objects of that kind for those of a container. Without a member for them there are no
children. -/
inductive DescribesNode : Json → Prop
  | leaf {ms : List (String × Json)} {cls : NodeClass} {texts : List String}
      (named : storedClass ms = .ok cls) (plain : cls.isContainer = false)
      (held : List.Forall₂ (fun field s => ms.lookup field = some (.str s)) cls.fields texts) :
      DescribesNode (.obj ms)
  | container {ms : List (String × Json)} {cls : NodeClass} {tokens children : List Json}
      {content : List Token} (named : storedClass ms = .ok cls) (nests : cls.isContainer = true)
      (contentHeld : ms.lookup "content_tokens" = some (.arr tokens))
      (typed : List.Forall₂ DescribesToken tokens content)
      (childrenHeld : (ms.lookup "children").getD (.arr []) = .arr children)
      (below : ∀ j ∈ children, DescribesNode j) : DescribesNode (.obj ms)

theorem TokenType.ofName?_eq_some_iff {name : String} {type : TokenType} :
    TokenType.ofName? name = some type ↔ name = type.name := by
  constructor
  · intro h
    unfold ofName? at h
    have hname := List.find?_some h
    exact (beq_iff_eq.mp hname).symm
  · rintro rfl
    exact type.ofName?_name

theorem loadValue_eq_text_iff {j : Json} {s : String} :
    loadValue j = .ok (.text s) ↔ j = .str s := by
  cases j with
  | str t => simp [loadValue, Value.text]
  | arr items => simp [loadValue, map_eq_ok_iff, Value.text]
  | obj ms =>
    rw [loadValue_obj]
    split
    · simp [loadToken_eq_ok_iff, Value.text]
    · simp [map_eq_ok_iff, Record.value, Value.text]
  | _ => simp [loadValue, Value.text]

theorem loadValue_eq_list_iff {j : Json} {vs : List Value} :
    loadValue j = .ok (.list vs) ↔ ∃ items, j = .arr items ∧ loadItems items = .ok vs := by
  cases j with
  | arr items => simp [loadValue, map_eq_ok_iff]
  | obj ms =>
    rw [loadValue_obj]
    split
    · simp [loadToken_eq_ok_iff]
    · simp [map_eq_ok_iff, Record.value]
  | _ => simp [loadValue]

theorem loadValue_eq_stored_iff {j : Json} {t : Token} :
    loadValue j = .ok t.stored ↔ DescribesToken j t := by
  constructor
  · intro h
    cases j with
    | obj ms =>
      rw [loadValue_obj] at h
      split at h
      · next htoken =>
        obtain ⟨name, type, value, htype, hname, hvalue, heq⟩ := loadToken_eq_ok_iff.mp h
        obtain ⟨hproper, rfl, hoffset⟩ := Value.token.inj heq
        obtain rfl := LooseType.proper.inj hproper
        rw [TokenType.ofName?_eq_some_iff.mp hname] at htype
        exact ⟨ms, rfl, htoken, htype, hvalue, hoffset.symm⟩
      · obtain ⟨r, -, heq⟩ := map_eq_ok_iff.mp h
        cases heq
    | arr items =>
      obtain ⟨vs, -, heq⟩ := map_eq_ok_iff.mp h
      cases heq
    | _ => cases h
  · rintro ⟨ms, rfl, htoken, htype, hvalue, hoffset⟩
    rw [loadValue_obj, if_pos htoken]
    exact loadToken_eq_ok_iff.mpr ⟨_, _, _, htype, t.type.ofName?_name, hvalue, by
      rw [Token.stored, hoffset]⟩

/-! ### What is loaded -/

theorem mem_stored_of_storedClass {ms : List (String × Json)} {cls : NodeClass}
    (h : storedClass ms = .ok cls) : cls ∈ NodeClass.stored := by
  obtain ⟨name, -, hname⟩ := storedClass_eq_ok_iff.mp h
  exact mem_stored_of_ofStoredName? hname

theorem fields_of_isContainer {cls : NodeClass} (h : cls.isContainer = true) :
    cls.fields = ["content_tokens", "children"] := by
  cases cls <;> first | rfl | cases h

theorem holds_text_iff {ms : List (String × Json)} {cls : NodeClass} {field s : String} :
    Holds ms cls field (.text s) ↔ ms.lookup field = some (.str s) := by
  unfold Holds
  cases ms.lookup field with
  | none => simp [Value.missing?, Value.text]
  | some j => simp [loadValue_eq_text_iff]

theorem holds_content_iff {ms : List (String × Json)} {cls : NodeClass} {vs : List Value} :
    Holds ms cls "content_tokens" (.list vs) ↔
      ∃ items, ms.lookup "content_tokens" = some (.arr items) ∧ loadItems items = .ok vs := by
  unfold Holds
  cases ms.lookup "content_tokens" with
  | none => simp [Value.missing?, NodeClass.isOptional]
  | some j => simp [loadValue_eq_list_iff]

theorem holds_children_iff {ms : List (String × Json)} {cls : NodeClass} {vs : List Value}
    (hcls : cls.isContainer = true) : Holds ms cls "children" (.list vs) ↔
      ∃ items, (ms.lookup "children").getD (.arr []) = .arr items ∧ loadItems items = .ok vs := by
  unfold Holds
  cases ms.lookup "children" with
  | none => simp [Value.missing?, NodeClass.isOptional, hcls, loadItems, eq_comm]
  | some j => simp [loadValue_eq_list_iff]

/-- What is described is loaded, and the fields of what is loaded hold what they are for. -/
theorem DescribesNode.exists_loadRecord {d : Json} (h : DescribesNode d) :
    ∃ r, loadRecord d = .ok r ∧ r.value.Typed := by
  induction h with
  | @leaf ms cls texts named plain held =>
    refine ⟨⟨cls, texts.map .text⟩, loadRecord_obj_eq_ok_iff.mpr ⟨named, ?_⟩,
      .leaf (mem_stored_of_storedClass named) plain held.length_eq.symm⟩
    exact List.forall₂_map_right_iff.mpr (held.imp fun _ _ => holds_text_iff.mpr)
  | @container ms cls tokens children content named nests contentHeld typed childrenHeld _ ih =>
    have hbelow : ∀ j ∈ children, ∃ v, loadValue j = .ok v ∧ v.Typed := by
      intro j hj
      obtain ⟨r, hr, htyped⟩ := ih j hj
      exact ⟨r.value, loadValue_eq_ok_value_iff.mpr hr, htyped⟩
    obtain ⟨vs, hvs⟩ := exists_forall₂ hbelow
    refine ⟨⟨cls, [.list (content.map Token.stored), .list vs]⟩,
      loadRecord_obj_eq_ok_iff.mpr ⟨named, ?_⟩,
      .container (mem_stored_of_storedClass named) nests fun v hv => ?_⟩
    · rw [fields_of_isContainer nests]
      refine .cons ?_ (.cons ?_ .nil)
      · refine holds_content_iff.mpr ⟨tokens, contentHeld, loadItems_eq_ok_iff.mpr ?_⟩
        exact List.forall₂_map_right_iff.mpr (typed.imp fun _ _ => loadValue_eq_stored_iff.mpr)
      · exact (holds_children_iff nests).mpr
          ⟨children, childrenHeld, loadItems_eq_ok_iff.mpr (hvs.imp fun _ _ => And.left)⟩
    · obtain ⟨j, -, -, htyped⟩ := exists_of_forall₂ hvs v hv
      exact htyped

theorem Value.Typed.describesNode {v : Value} (h : v.Typed) {d : Json}
    (hload : loadValue d = .ok v) : DescribesNode d := by
  -- the induction is on the record: what its children were loaded from is found item by item, while
  -- the members of an object do not say which of them is loaded as what
  have hobject : ∀ {r : Record} {d : Json}, loadRecord d = .ok r → ∃ ms, d = .obj ms := by
    intro r d hr
    cases d with
    | obj ms => exact ⟨ms, rfl⟩
    | _ => cases hr
  induction h generalizing d with
  | @leaf cls texts stored plain complete =>
    have hload : loadRecord d = .ok ⟨cls, texts.map .text⟩ := loadValue_eq_ok_value_iff.mp hload
    obtain ⟨ms, rfl⟩ := hobject hload
    obtain ⟨named, hfields⟩ := loadRecord_obj_eq_ok_iff.mp hload
    exact .leaf named plain
      ((List.forall₂_map_right_iff.mp hfields).imp fun _ _ => holds_text_iff.mp)
  | @container cls content children stored nests _ ih =>
    have hload : loadRecord d = .ok ⟨cls, [.list (content.map Token.stored), .list children]⟩ :=
      loadValue_eq_ok_value_iff.mp hload
    obtain ⟨ms, rfl⟩ := hobject hload
    obtain ⟨named, hfields⟩ := loadRecord_obj_eq_ok_iff.mp hload
    rw [fields_of_isContainer nests] at hfields
    cases hfields with
    | cons hcontent hrest =>
      cases hrest with
      | cons hchildren _ =>
        obtain ⟨tokens, htokens, hcontent⟩ := holds_content_iff.mp hcontent
        obtain ⟨items, hitems, hchildren⟩ := (holds_children_iff nests).mp hchildren
        have htyped := List.forall₂_map_right_iff.mp (loadItems_eq_ok_iff.mp hcontent)
        refine .container named nests htokens
          (htyped.imp fun _ _ => loadValue_eq_stored_iff.mp) hitems fun j hj => ?_
        obtain ⟨v, hv, hload⟩ := exists_of_forall₂ (loadItems_eq_ok_iff.mp hchildren).flip j hj
        exact ih v hv hload

/-- **Exactly the JSON values that describe nodes are loaded as records whose fields hold what
they are for.** -/
theorem describesNode_iff {d : Json} :
    DescribesNode d ↔ ∃ r, loadRecord d = .ok r ∧ r.value.Typed := by
  constructor
  · exact DescribesNode.exists_loadRecord
  · rintro ⟨r, hr, htyped⟩
    exact htyped.describesNode (loadValue_eq_ok_value_iff.mpr hr)

theorem typed_iff_of_loadRecord {d : Json} {r : Record} (h : loadRecord d = .ok r) :
    r.value.Typed ↔ DescribesNode d := by
  rw [describesNode_iff, h]
  constructor
  · exact fun htyped => ⟨r, rfl, htyped⟩
  · rintro ⟨s, hs, htyped⟩
    exact Except.ok.inj hs ▸ htyped

theorem forall_typed_iff {items : List Json} {rs : List Record}
    (h : List.Forall₂ (fun d r => loadRecord d = .ok r) items rs) :
    (∀ r ∈ rs, r.value.Typed) ↔ ∀ d ∈ items, DescribesNode d := by
  induction h with
  | nil => simp
  | cons hload _ ih =>
    rw [List.forall_mem_cons, List.forall_mem_cons]
    exact and_congr (typed_iff_of_loadRecord hload) ih

theorem forall_typed_iff_of_loadArray {d : Json} {rs : List Record} (h : loadArray d = .ok rs) :
    (∀ r ∈ rs, r.value.Typed) ↔ ∃ items, d = .arr items ∧ ∀ j ∈ items, DescribesNode j := by
  cases d with
  | arr items =>
    rw [forall_typed_iff (loadRecords_eq_ok_iff.mp h)]
    simp
  | _ => cases h

/-! ### What can be asked for -/

/-- Values can be asked for their text, their markup and their tags, and each of them alone for its
text and its markup. -/
structure Readable (values : List Value) : Prop where
  text : ∃ s, Loose.plainText values = .ok s
  markup : ∃ s, Loose.markup values = .ok s
  tags : ∃ names : List String, Loose.tags values = .ok (names.map .text)
  textOf : ∀ v ∈ values, ∃ s, Loose.textOf v = .ok (.text s)
  markupOf : ∀ v ∈ values, ∃ s, Loose.markupOf v = .ok (.text s)

/-- **Records whose fields hold what they are for can be asked for everything.** -/
theorem readable_of_typed {rs : List Record} (h : ∀ r ∈ rs, r.value.Typed) :
    Readable (rs.map Record.value) := by
  have hnodes : ∀ v ∈ rs.map Record.value, ∃ n : Node, n.Inline ∧ v = n.stored :=
    List.forall_mem_map.mpr fun r hr => Value.typed_iff.mp (h r hr)
  obtain ⟨ns, hns, hvalues⟩ := exists_storedAll hnodes
  have hmarkups : ∀ n ∈ ns, ∃ s, n.markup = .ok s := fun n hn => Node.exists_markup (hns n hn)
  refine ⟨?_, ?_, ?_, ?_, ?_⟩
  · rw [Loose.plainText_eq, hvalues, join_valueTexts_of fun n _ => valueText_stored n]
    exact ⟨_, rfl⟩
  · rw [Loose.markup_eq, hvalues, join_valueMarkups_of fun n _ => valueMarkup_stored n]
    exact exists_markupAll hmarkups
  · have hvisit := run_visitAll_stored ns []
    rw [Loose.tags_eq, hvalues]
    exact ⟨_, congrArg (Except.map Prod.snd) hvisit⟩
  · intro v hv
    obtain ⟨r, -, rfl⟩ := List.mem_map.mp hv
    obtain ⟨n, -, hn⟩ := hnodes _ hv
    rw [Record.value, Loose.textOf_record]
    exact ⟨_, (congrArg valueText hn).trans (valueText_stored n)⟩
  · intro v hv
    obtain ⟨r, -, rfl⟩ := List.mem_map.mp hv
    obtain ⟨n, hinline, hn⟩ := hnodes _ hv
    obtain ⟨s, hs⟩ := Node.exists_markup hinline
    rw [Record.value, Loose.markupOf_record]
    refine ⟨s, (congrArg valueMarkup hn).trans ?_⟩
    rw [valueMarkup_stored, hs]
    rfl

/-- **What is loaded holds what its fields are for when the JSON value describes a node, and only
then.** Such records can be asked for their text, their markup and their tags. -/
theorem loaded_usable_iff (d : Json) :
    (DescribesNode d ↔ ∃ r, loadRecord d = .ok r ∧ r.value.Typed) ∧
    (∀ r, loadRecord d = .ok r → (r.value.Typed ↔ DescribesNode d) ∧
      (r.value.Typed → Readable [r.value])) ∧
    ∀ (codec : JsonCodec) (text : String) (rs : List Record), codec.read text = .ok d →
      loadNodes text codec = .ok rs →
        ((∀ r ∈ rs, r.value.Typed) ↔ ∃ items, d = .arr items ∧ ∀ j ∈ items, DescribesNode j) ∧
        ((∀ r ∈ rs, r.value.Typed) → Readable (rs.map Record.value)) := by
  refine ⟨describesNode_iff, fun r hload => ⟨typed_iff_of_loadRecord hload, fun htyped => ?_⟩, ?_⟩
  · exact readable_of_typed (List.forall_mem_singleton.mpr htyped)
  · intro codec text rs hread hload
    rw [loadNodes, hread] at hload
    exact ⟨forall_typed_iff_of_loadArray hload, readable_of_typed⟩

/-- A bold tag is loaded, alone and in the text of an array, and can be asked for everything. -/
theorem loaded_usable_iff_bold :
    ∃ d r, DescribesNode d ∧ loadRecord d = .ok r ∧ r.value.Typed ∧ Readable [r.value] ∧
      loadNodes ((Json.arr [d]).render none) = .ok [r] ∧ ∀ s ∈ [r], s.value.Typed := by
  let token : Json := .obj [("_type", .str "Token"), ("type", .str "HASH"), ("value", .str "#")]
  let child : Json := .obj [("_type", .str "Tag"), ("content", .str "a")]
  let d : Json := .obj [("_type", .str "Bold"), ("children", .arr [child]),
    ("content_tokens", .arr [token])]
  let r : Record := ⟨.bold, [.list [Token.stored ⟨.hash, "#", 0⟩], .list [(Node.tag "a").stored]]⟩
  have hchild : DescribesNode child := .leaf rfl rfl (.cons rfl .nil)
  have htoken : DescribesToken token ⟨.hash, "#", 0⟩ := ⟨_, rfl, rfl, rfl, rfl, rfl⟩
  have hd : DescribesNode d := .container rfl rfl rfl (.cons htoken .nil) rfl
    (List.forall_mem_singleton.mpr hchild)
  have hload : loadRecord d = .ok r := rfl
  obtain ⟨-, halone, -⟩ := loaded_usable_iff d
  obtain ⟨htyped, hreadable⟩ := halone r hload
  have hr := htyped.mpr hd
  -- the members stand in order, so the text is read as the same value
  have hsorted : (Json.arr [d]).sorted = .arr [d] := by
    simp +decide [d, child, token, Json.sorted, Json.sortedItems, Json.sortedMembers,
      Json.insertSorted]
  have hparse : Json.parse ((Json.arr [d]).render none) = .ok (.arr [d]) := by
    rw [Json.parse_render none, hsorted]
    · simp [d, child, token, Json.hasText, Json.itemsHaveText, Json.membersHaveText]
    · simp [d, child, token, Json.Proper, Json.ProperItems, Json.ProperMembers]
  have hloads : loadNodes ((Json.arr [d]).render none) = .ok [r] := loadNodes_of_parse hparse
  obtain ⟨-, -, htexts⟩ := loaded_usable_iff (.arr [d])
  obtain ⟨hall, -⟩ := htexts .standard _ [r] (JsonCodec.read_of_parse hparse) hloads
  exact ⟨d, r, hd, hload, hr, hreadable hr, hloads,
    hall.mpr ⟨[d], rfl, List.forall_mem_singleton.mpr hd⟩⟩

/-- What is loaded need not be a node. A container is loaded with a number among its children, and
has no markup; with a number for its children it has no text, no markup and no tags. A text is
loaded with a number for its content, and cannot be joined with others. -/
theorem exists_loaded_not_readable :
    (∃ r, loadRecord (.obj [("_type", .str "Bold"), ("content_tokens", .arr []),
        ("children", .arr [.int 1])]) = .ok r ∧ ¬ r.value.Typed ∧
      Loose.markup [r.value] = .error (.noMarkup "int")) ∧
    (∃ r, loadRecord (.obj [("_type", .str "Bold"), ("content_tokens", .arr []),
        ("children", .int 5)]) = .ok r ∧ ¬ r.value.Typed ∧
      Loose.plainText [r.value] = .error (.listExpected "int") ∧
      Loose.markup [r.value] = .error (.listExpected "int") ∧
      Loose.tags [r.value] = .error (.listExpected "int")) ∧
    ∃ r, loadRecord (.obj [("_type", .str "Text"), ("content", .int 5)]) = .ok r ∧
      ¬ r.value.Typed ∧ Loose.plainText [r.value] = .error (.textExpected 0 "int") := by
  refine ⟨⟨⟨.bold, [.list [], .list [.plain (.int 1)]]⟩, rfl, fun h => ?_, rfl⟩,
    ⟨⟨.bold, [.list [], .plain (.int 5)]⟩, rfl, fun h => ?_, rfl, rfl, rfl⟩,
    ⟨⟨.text, [.plain (.int 5)]⟩, rfl, fun h => ?_, rfl⟩⟩
  · obtain ⟨s, hs⟩ := (readable_of_typed (List.forall_mem_singleton.mpr h)).markup
    cases hs
  · obtain ⟨s, hs⟩ := (readable_of_typed (List.forall_mem_singleton.mpr h)).text
    cases hs
  · obtain ⟨s, hs⟩ := (readable_of_typed (List.forall_mem_singleton.mpr h)).text
    cases hs

end InlineMarkup
