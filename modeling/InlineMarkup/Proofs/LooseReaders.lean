/-
# Nodes read as loose values

Text, markup and tags of loose values are asked for in two ways: values that are nodes answer as
nodes, and other values as what they are. Both ways give one answer, so the first one is a short
way only: whatever the values are, their text is what the loose readers put together
(`Loose.plainText_eq`, `Loose.markup_eq`, `Loose.tags_eq`).

For this the value of a node has the text, the markup and the tags of the node, faults of markup
included (`valueText_stored`, `valueMarkup_stored`, `run_visit_stored`), and nothing else is the
value of a node (`Value.node?_eq_some_iff`).

Key theorems: `Value.node?_eq_some_iff`, `valueText_stored`, `valueMarkup_stored`,
`run_visit_stored`, `Loose.plainText_eq`, `Loose.markup_eq`, `Loose.tags_eq`.
-/
import InlineMarkup.Loose.Text
import InlineMarkup.Proofs.Forest
import InlineMarkup.Proofs.Lists

namespace InlineMarkup

/-! ### The values of nodes -/

namespace Value

theorem token?_eq_some_iff {v : Value} {t : Token} : v.token? = some t ↔ v = t.stored := by
  constructor
  · intro h
    unfold token? at h
    split at h
    · cases h
      rfl
    · cases h
  · rintro rfl
    exact token?_stored t

theorem tokens?_eq_some_iff {vs : List Value} {ts : List Token} :
    tokens? vs = some ts ↔ vs = ts.map Token.stored := by
  constructor
  · intro h
    induction vs generalizing ts with
    | nil => cases h; rfl
    | cons v vs ih =>
      rw [tokens?] at h
      split at h
      · next t us ht hus =>
        cases h
        rw [token?_eq_some_iff.mp ht, ih hus, List.map_cons]
      · cases h
  · rintro rfl
    exact tokens?_stored ts

theorem containerKind?_eq_some_iff {cls : NodeClass} {kind : ContainerKind} :
    cls.containerKind? = some kind ↔ cls = kind.cls := by
  cases cls <;> cases kind <;> decide

theorem eq_storedAll_of {ns : List Node}
    (h : ∀ n ∈ ns, ∀ v : Value, v.node? = some n → v = n.stored) {vs : List Value}
    (hvs : nodes? vs = some ns) : vs = Node.storedAll ns := by
  induction vs generalizing ns with
  | nil => cases hvs; rfl
  | cons v vs ih =>
    rw [nodes?] at hvs
    split at hvs
    · next n ms hn hms =>
      cases hvs
      obtain ⟨hhead, htail⟩ := List.forall_mem_cons.mp h
      rw [hhead v hn, ih htail hms, Node.storedAll]
    · cases hvs

/-- **A value is a node exactly when it is the value of the node.** -/
theorem node?_eq_some_iff {v : Value} {n : Node} : v.node? = some n ↔ v = n.stored := by
  constructor
  · intro h
    induction n using Node.induction generalizing v with
    | container kind content children ih =>
      unfold node? at h
      split at h <;> try cases h
      split at h <;> cases h
      next hkind htokens hnodes =>
        rw [containerKind?_eq_some_iff.mp hkind, tokens?_eq_some_iff.mp htokens,
          eq_storedAll_of ih hnodes]
        rfl
    | _ =>
      -- a record with two lists is a container or no node, so it is not this one
      unfold node? at h
      split at h <;> first | (cases h; rfl) | cases h | (split at h <;> cases h)
  · rintro rfl
    exact node?_stored n

theorem nodes?_eq_some_iff {vs : List Value} {ns : List Node} :
    nodes? vs = some ns ↔ vs = Node.storedAll ns :=
  ⟨eq_storedAll_of fun _ _ _ => node?_eq_some_iff.mp, fun h => h ▸ nodes?_storedAll ns⟩

end Value

/-! ### Text -/

theorem joinTexts_cons (i : Nat) (s : String) (vs : List Value) :
    joinTexts i (.text s :: vs) = (joinTexts (i + 1) vs).map (s ++ ·) := by
  rw [Value.text, joinTexts]

/-- The loose text of nodes in a row is their text, if that is so of each of them. -/
theorem join_valueTexts_of {ns : List Node}
    (h : ∀ n ∈ ns, valueText n.stored = .ok (.text n.plainText)) (i : Nat) :
    valueTexts (Node.storedAll ns) >>= joinTexts i = .ok (Node.plainTextAll ns) := by
  induction ns generalizing i with
  | nil => rfl
  | cons n ns ih =>
    obtain ⟨hn, hns⟩ := List.forall_mem_cons.mp h
    obtain ⟨ws, hws, hjoin⟩ := bind_eq_ok_iff.mp (ih hns (i + 1))
    rw [Node.storedAll, valueTexts, hn, hws]
    change joinTexts i (.text n.plainText :: ws) = _
    rw [joinTexts_cons, hjoin]
    rfl

theorem valueText_container (kind : ContainerKind) (content : Value) (items : List Value) :
    valueText (.record kind.cls [content, .list items]) =
      (valueTexts items >>= joinTexts 0).map .text := by
  cases kind <;> rw [ContainerKind.cls, valueText] <;> cases valueTexts items <;>
    first | rfl | nofun

/-- **The loose text of a node is its text.** -/
theorem valueText_stored (n : Node) : valueText n.stored = .ok (.text n.plainText) := by
  induction n using Node.induction with
  | container kind content children ih =>
    rw [Node.stored, valueText_container, join_valueTexts_of ih]
    rfl
  | _ => rfl

/-! ### Markup -/

theorem tokenValues_stored : ∀ ts : List Token,
    tokenValues (ts.map Token.stored) = .ok (ts.map fun t => .text t.value)
  | [] => rfl
  | t :: ts => by
    rw [List.map_cons, Token.stored, tokenValues, tokenValues_stored ts]
    rfl

theorem joinTexts_values (ts : List Token) : ∀ i : Nat,
    joinTexts i (ts.map fun t => .text t.value) = .ok (joinTokens ts) := by
  induction ts with
  | nil => exact fun _ => rfl
  | cons t ts ih =>
    intro i
    rw [List.map_cons, joinTexts_cons, ih]
    simp [joinTokens, Except.map]

theorem joinContent_stored (ts : List Token) :
    joinContent (.list (ts.map Token.stored)) = .ok (joinTokens ts) := by
  rw [joinContent, Value.items]
  change joinLoose (ts.map Token.stored) = _
  rw [joinLoose, tokenValues_stored]
  exact joinTexts_values ts 0

theorem join_valueMarkups_of {ns : List Node}
    (h : ∀ n ∈ ns, valueMarkup n.stored = n.markup.map .text) (i : Nat) :
    valueMarkups (Node.storedAll ns) >>= joinTexts i = Node.markupAll ns := by
  induction ns generalizing i with
  | nil => rfl
  | cons n ns ih =>
    obtain ⟨hn, hns⟩ := List.forall_mem_cons.mp h
    rw [Node.storedAll, valueMarkups, hn, Node.markupAll, ← ih hns (i + 1)]
    cases n.markup with
    | error fault => rfl
    | ok s =>
      cases valueMarkups (Node.storedAll ns) with
      | error fault => rfl
      | ok ws => exact joinTexts_cons i s ws

theorem valueMarkup_childless (kind : ContainerKind) (content : Value) :
    valueMarkup (.record kind.cls [content, .list []]) =
      match kind.marker? with
      | none => .error (.noMarkup kind.cls.name)
      | some marker => (joinContent content).map fun s => .text (marker ++ s ++ marker) := by
  cases kind <;> rfl

theorem valueMarkup_container (kind : ContainerKind) (content v : Value) (vs : List Value) :
    valueMarkup (.record kind.cls [content, .list (v :: vs)]) =
      match kind.marker? with
      | none => .error (.noMarkup kind.cls.name)
      | some marker =>
        (valueMarkups (v :: vs) >>= joinTexts 0).map fun s => .text (marker ++ s ++ marker) := by
  cases kind <;> rw [ContainerKind.cls, valueMarkup] <;>
    first | rfl | (cases valueMarkups (v :: vs) <;> rfl) | nofun

/-- **The loose markup of a node is its markup**, and fails as that does. -/
theorem valueMarkup_stored (n : Node) : valueMarkup n.stored = n.markup.map .text := by
  induction n using Node.induction with
  | container kind content children ih =>
    cases children with
    | nil =>
      rw [Node.stored, Node.storedAll, valueMarkup_childless, joinContent_stored, Node.markup]
      cases kind.marker? <;> rfl
    | cons n ns =>
      rw [Node.stored, Node.storedAll, valueMarkup_container, ← Node.storedAll,
        join_valueMarkups_of ih, Node.markup]
      cases kind.marker? with
      | none => rfl
      | some marker => cases Node.markupAll (n :: ns) <;> rfl
  | tag name =>
    change Except.ok (Value.text ("#" ++ name ++ "")) = .ok (.text ("#" ++ name))
    rw [String.append_empty]
  | _ => rfl

/-! ### Tags -/

theorem any_same_text (names : List String) (s : String) :
    (names.map Value.text).any (Value.text s).same = names.contains s := by
  rw [List.any_map, List.contains_eq_any_beq]
  rfl

theorem run_noteTag (s : String) (names : List String) :
    (noteTag (Node.tag s).stored).run (names.map .text) =
      .ok ((), (addName names s).map .text) := by
  have hnoted : (if (names.map Value.text).any (Value.text s).same then names.map Value.text
      else names.map .text ++ [.text s]) = (addName names s).map .text := by
    rw [any_same_text, addName]
    split
    · rfl
    · rw [List.map_append]
      rfl
  exact congrArg (fun noted => Except.ok ((), noted)) hnoted

theorem run_visitAll_stored_of {ns : List Node}
    (h : ∀ n ∈ ns, ∀ names : List String, ∃ a,
      (looseTagVisitor.visit n.stored).run (names.map .text) =
        .ok (a, ((n.preorder.filterMap Node.tag?).foldl addName names).map .text))
    (names : List String) :
    (looseTagVisitor.visitAll (Node.storedAll ns)).run (names.map .text) =
      .ok ((), ((tagNames ns).foldl addName names).map .text) := by
  induction ns generalizing names with
  | nil => rfl
  | cons n ns ih =>
    obtain ⟨hn, hns⟩ := List.forall_mem_cons.mp h
    obtain ⟨a, ha⟩ := hn names
    rw [Node.storedAll, LooseVisitor.visitAll, StateT.run_bind, ha, tagNames_cons,
      List.foldl_append]
    exact ih hns _

/-- **The visitor of loose tags adds the names of the tags in a node.** -/
theorem run_visit_stored (n : Node) (names : List String) : ∃ a,
    (looseTagVisitor.visit n.stored).run (names.map .text) =
      .ok (a, ((n.preorder.filterMap Node.tag?).foldl addName names).map .text) := by
  induction n using Node.induction generalizing names with
  | container kind content children ih =>
    -- no kind of container has a handler, so the visit goes on with the children
    have hchildren := run_visitAll_stored_of ih names
    refine ⟨none, ?_⟩
    cases kind <;>
    · rw [Node.stored, ContainerKind.cls, LooseVisitor.visit, StateT.run_bind]
      change (looseTagVisitor.visitAll (Node.storedAll children)).run (names.map .text) >>= _ = _
      rw [hchildren]
      rfl
  | tag s =>
    refine ⟨some (), ?_⟩
    change ((noteTag (Node.tag s).stored >>= fun a => pure (some a)) :
      StateT (List Value) (Except Fault) _).run _ = _
    rw [StateT.run_bind, run_noteTag]
    rfl
  | _ => exact ⟨none, rfl⟩

theorem run_visitAll_stored (ns : List Node) (names : List String) :
    (looseTagVisitor.visitAll (Node.storedAll ns)).run (names.map .text) =
      .ok ((), ((tagNames ns).foldl addName names).map .text) :=
  run_visitAll_stored_of (fun n _ => run_visit_stored n) names

/-! ### Whatever the values are -/

namespace Loose

theorem joinedAnswers_eq {ofNodes : List Node → Except Fault String}
    {readAll : List Value → Except Fault (List Value)}
    (h : ∀ ns, readAll (Node.storedAll ns) >>= joinTexts 0 = ofNodes ns) (values : List Value) :
    joinedAnswers ofNodes readAll values = readAll values >>= joinTexts 0 := by
  rw [joinedAnswers]
  cases hnodes : Value.nodes? values with
  | none => rfl
  | some ns =>
    rw [Value.nodes?_eq_some_iff.mp hnodes]
    exact (h ns).symm

/-- **The text of values in a row is put together from their loose texts.** -/
theorem plainText_eq (values : List Value) :
    plainText values = valueTexts values >>= joinTexts 0 :=
  joinedAnswers_eq (fun _ => join_valueTexts_of (fun n _ => valueText_stored n) 0) values

theorem markup_eq (values : List Value) :
    markup values = valueMarkups values >>= joinTexts 0 :=
  joinedAnswers_eq (fun _ => join_valueMarkups_of (fun n _ => valueMarkup_stored n) 0) values

/-- **The tags of values are those that a visit of the loose values notes.** -/
theorem tags_eq (values : List Value) :
    tags values = ((looseTagVisitor.visitAll values).run []).map Prod.snd := by
  rw [tags]
  cases hnodes : Value.nodes? values with
  | none => rfl
  | some ns =>
    have hvisit := run_visitAll_stored ns []
    rw [List.map_nil, ← tagsOf_eq] at hvisit
    rw [Value.nodes?_eq_some_iff.mp hnodes, hvisit]
    rfl

theorem answer_record {ofNode : Node → Except Fault Value} {read : Value → Except Fault Value}
    (h : ∀ n, read n.stored = ofNode n) (readAll : List Value → Except Fault (List Value))
    (cls : NodeClass) (fields : List Value) :
    answer ofNode read readAll (.record cls fields) = read (.record cls fields) := by
  rw [answer]
  cases hnode : (Value.record cls fields).node? with
  | none => rfl
  | some n => rw [Value.node?_eq_some_iff.mp hnode, h n]

theorem textOf_record (cls : NodeClass) (fields : List Value) :
    textOf (.record cls fields) = valueText (.record cls fields) :=
  answer_record valueText_stored valueTexts cls fields

theorem markupOf_record (cls : NodeClass) (fields : List Value) :
    markupOf (.record cls fields) = valueMarkup (.record cls fields) :=
  answer_record valueMarkup_stored valueMarkups cls fields

end Loose

end InlineMarkup
