/-
# How deep containers nest

The content of a container reaches up to the first closer and does not hold it. So
inside a container the construct that made it cannot be closed, and with every level
there is one construct less that can (`alive_content_lt`). Where as many levels are
left as constructs can be closed, no container is refused (`plain_of_alive_eq_zero`).

Key definitions: `BoxedBy`, `Construct.KeepsContent`, `containerMakers`, `alive`,
`Engine.Opens`. Key theorems: `container_of_first?`, `boxedBy_containerMakers`,
`alive_content_lt`, `plain_of_alive_eq_zero`, `Engine.Opens.exists_closes`.
-/
import InlineMarkup.Proofs.Reading

namespace InlineMarkup

/-! ### Containers and their content -/

/-- All containers that the constructs `cs` make are made by the constructs `ds`, and
hold the content they were made of. -/
def BoxedBy (cs : List Construct) (ds : List Delimited) : Prop :=
  ∀ d, .delimited d ∈ cs → ∀ content kind ts inner, d.build content = .container kind ts inner →
    d ∈ ds ∧ ts = content

/-- The built-in constructs that make containers. -/
def boxes : List Delimited :=
  [bold, italic, strikethrough]

theorem boxes_subset {d : Delimited} (h : d ∈ boxes) : .delimited d ∈ builtInConstructs := by
  simp only [boxes, List.mem_cons, List.not_mem_nil, or_false] at h
  rcases h with rfl | rfl | rfl <;> simp [builtInConstructs]

theorem boxedBy_builtIns : BoxedBy builtInConstructs boxes := by
  intro d hd content kind ts inner h
  rcases eq_of_delimited_mem hd with rfl | rfl | rfl | rfl | rfl | rfl
  · cases h
  · cases h
  · exact ⟨by simp [boxes], ((Node.container.injEq ..).mp h).2.1.symm⟩
  · exact ⟨by simp [boxes], ((Node.container.injEq ..).mp h).2.1.symm⟩
  · exact ⟨by simp [boxes], ((Node.container.injEq ..).mp h).2.1.symm⟩
  · cases h

/-- Containers that a construct makes hold the content they were made of. -/
def Construct.KeepsContent : Construct → Prop
  | .delimited d => ∀ content kind ts inner, d.build content = .container kind ts inner → ts = content
  | _ => True

open Classical in
/-- The constructs that make a container of some content. -/
noncomputable def containerMakers (cs : List Construct) : List Delimited :=
  cs.filterMap fun
    | .delimited d => if ∃ content, (d.build content).isContainer = true then some d else none
    | _ => none

theorem mem_containerMakers {cs : List Construct} {d : Delimited} (hd : .delimited d ∈ cs)
    {content : List Token} (h : (d.build content).isContainer = true) : d ∈ containerMakers cs := by
  have hmakes : ∃ content, (d.build content).isContainer = true := ⟨content, h⟩
  exact List.mem_filterMap.mpr ⟨.delimited d, hd, by simp only [if_pos hmakes]⟩

theorem containerMakers_builtIns : containerMakers builtInConstructs = boxes := by
  have hplain : ∀ d ∈ [codeSpan, wikiLink, highlight], ∀ content,
      (d.build content).isContainer = false := by
    simp [codeSpan, wikiLink, highlight, Node.isContainer]
  have hbox : ∀ d ∈ boxes, ∀ content, (d.build content).isContainer = true := by
    simp [boxes, bold, italic, strikethrough, Node.unparsed, Node.isContainer]
  simp only [boxes, List.forall_mem_cons] at hplain hbox
  simp [containerMakers, builtInConstructs, boxes, hplain, hbox]

theorem boxedBy_containerMakers {cs : List Construct} (h : ∀ c ∈ cs, c.KeepsContent) :
    BoxedBy cs (containerMakers cs) := by
  intro d hd content kind ts inner hbuild
  have hbox : (d.build content).isContainer = true := by
    rw [hbuild]
    rfl
  exact ⟨mem_containerMakers hd hbox, h _ hd _ _ _ _ hbuild⟩

theorem keepsContent_builtIns : ∀ c ∈ builtInConstructs, c.KeepsContent := by
  intro c hc
  cases c with
  | delimited d => exact fun content kind ts inner h => (boxedBy_builtIns d hc content kind ts inner h).2
  | image => trivial
  | link => trivial
  | tag => trivial

variable {e : Engine} {cs : List Construct} {ds : List Delimited}

/-- A container is what one of the constructs `ds` makes of the tokens between its
delimiters. -/
theorem container_of_forms (hb : BoxedBy cs ds) {c : Construct} (hc : c ∈ cs) {before : Option Token}
    {span rest content : List Token} {kind : ContainerKind} {inner : List Node}
    (h : c.Forms before span rest (.container kind content inner)) : ∃ d ∈ ds, ∃ o cl,
      span = o :: (content ++ [cl]) ∧ o.isMarker d.marker d.run = true ∧ content ≠ [] ∧
      d.closerRule.Closes content cl ∧ d.build content = .container kind content inner := by
  generalize hn : Node.container kind content inner = node at h
  cases h with
  | delimited opens filled closes edges =>
    obtain ⟨hd, rfl⟩ := hb _ hc _ _ _ _ hn.symm
    exact ⟨_, hd, _, _, rfl, opens, filled, closes, rfl⟩
  | link => cases hn
  | image => cases hn
  | tag => cases hn

theorem container_of_first? (he : e.matchers ⊆ cs.map Construct.matcher) (hb : BoxedBy cs ds)
    {before : Option Token} {span rest content : List Token} {kind : ContainerKind}
    {inner : List Node} {m : Matcher} {consumed : Int}
    (h : e.first? before (span ++ rest) = some (m, ⟨.container kind content inner, consumed⟩))
    (hlen : consumed = span.length) : ∃ d ∈ ds, ∃ o cl,
      span = o :: (content ++ [cl]) ∧ o.isMarker d.marker d.run = true ∧ content ≠ [] ∧
      d.closerRule.Closes content cl ∧ d.build content = .container kind content inner := by
  obtain ⟨c, hc, -, hform⟩ := e.forms_of_first? he h hlen
  exact container_of_forms hb hc hform

/-! ### Constructs that can be closed -/

/-- The number of the constructs `ds` that some token of `ts` could close. -/
def alive (ds : List Delimited) (ts : List Token) : Nat :=
  ds.countP fun d => ts.any d.closerRule.accepts

theorem alive_le_of_subset {ts us : List Token} (h : ts ⊆ us) : alive ds ts ≤ alive ds us := by
  refine List.countP_mono_left fun d _ hd => ?_
  obtain ⟨t, ht, hacc⟩ := List.any_eq_true.mp hd
  exact List.any_eq_true.mpr ⟨t, h ht, hacc⟩

theorem countP_lt_of_mem {α : Type} {p q : α → Bool} : ∀ {l : List α},
    (∀ a ∈ l, p a = true → q a = true) → (∃ a ∈ l, p a = false ∧ q a = true) →
    l.countP p < l.countP q
  | [], _, h => by simp at h
  | a :: l, hpq, h => by
    have hle : l.countP p ≤ l.countP q :=
      List.countP_mono_left fun b hb => hpq b (List.mem_cons_of_mem _ hb)
    have ha := hpq a List.mem_cons_self
    obtain ⟨b, hb, hpb, hqb⟩ := h
    rcases List.mem_cons.mp hb with rfl | hb
    · simp only [List.countP_cons, hpb, hqb, if_true, Bool.false_eq_true, if_false]
      omega
    · have ih := countP_lt_of_mem (fun b hb => hpq b (List.mem_cons_of_mem _ hb)) ⟨b, hb, hpb, hqb⟩
      simp only [List.countP_cons]
      cases hp : p a
      · simp only [Bool.false_eq_true, if_false]
        omega
      · simp only [ha hp, if_true]
        omega

/-- **Inside a container one construct less can be closed.** -/
theorem alive_content_lt {d : Delimited} (hd : d ∈ ds) {content us : List Token} {cl : Token}
    (closes : d.closerRule.Closes content cl) (hcl : cl ∈ us) (hsub : content ⊆ us) :
    alive ds content < alive ds us := by
  refine countP_lt_of_mem (fun d' _ h => ?_) ⟨d, hd, ?_, ?_⟩
  · obtain ⟨t, ht, hacc⟩ := List.any_eq_true.mp h
    exact List.any_eq_true.mpr ⟨t, hsub ht, hacc⟩
  · refine List.any_eq_false.mpr fun t ht hacc => ?_
    have := closes.1 t ht
    simp [CloserRule.passes, hacc] at this
  · exact List.any_eq_true.mpr ⟨cl, hcl, closes.2⟩

theorem plain_of_alive_eq_zero (he : e.matchers ⊆ cs.map Construct.matcher) (hb : BoxedBy cs ds)
    {before : Option Token} {ts : List Token} (h0 : alive ds ts = 0) {m : Matcher} {found : Match}
    (h : e.first? before ts = some (m, found)) : found.node.isContainer = false := by
  obtain ⟨c, hc, -, span, rest, rfl, hform, -⟩ := e.exists_forms_of_first? he h
  cases hn : found.node with
  | container kind content inner =>
    rw [hn] at hform
    obtain ⟨d, hd, o, cl, rfl, -, -, closes, -⟩ := container_of_forms hb hc hform
    have hlt : alive ds content < alive ds (o :: (content ++ [cl]) ++ rest) :=
      alive_content_lt hd closes (by simp) fun t ht => by simp [ht]
    omega
  | _ => rfl

/-! ### Containers that are opened -/

/-- At some position of the tokens a container with the content is found first. -/
def Engine.Opens (e : Engine) (ts content : List Token) : Prop :=
  ∃ before p m kind inner consumed,
    firstMatch? e.matchers (.indexed (TokenSeq.ofList ts before)) p =
      some (m, ⟨.container kind content inner, consumed⟩)

/-- The content of an opened container stands between two of the tokens and is closed by
the second. -/
theorem Engine.Opens.exists_closes (he : e.matchers ⊆ cs.map Construct.matcher) (hb : BoxedBy cs ds)
    {ts content : List Token} (h : e.Opens ts content) : ∃ d ∈ ds, ∃ o cl,
      o :: (content ++ [cl]) <:+: ts ∧ d.closerRule.Closes content cl := by
  obtain ⟨before, p, m, kind, inner, consumed, hfound⟩ := h
  rw [Engine.firstMatch?_eq_first? he] at hfound
  obtain ⟨c, hc, -, span, rest, hsplit, hform, -⟩ := exists_forms_of_first? he hfound
  obtain ⟨d, hd, o, cl, rfl, -, -, closes, -⟩ := container_of_forms hb hc hform
  have hspan : o :: (content ++ [cl]) <:+: ts.drop p := hsplit ▸ (List.prefix_append _ rest).isInfix
  exact ⟨d, hd, o, cl, hspan.trans (List.drop_suffix p ts).isInfix, closes⟩

theorem Engine.Opens.isInfix (he : e.matchers ⊆ cs.map Construct.matcher) (hb : BoxedBy cs ds)
    {ts content : List Token} (h : e.Opens ts content) : content <:+: ts := by
  obtain ⟨d, -, o, cl, hslice, -⟩ := h.exists_closes he hb
  exact List.IsInfix.trans ⟨[o], [cl], by simp⟩ hslice

theorem alive_lt_of_opens (he : e.matchers ⊆ cs.map Construct.matcher) (hb : BoxedBy cs ds)
    {ts content : List Token} (h : e.Opens ts content) : alive ds content < alive ds ts := by
  obtain ⟨d, hd, o, cl, hslice, closes⟩ := h.exists_closes he hb
  exact alive_content_lt hd closes (hslice.subset (by simp)) (h.isInfix he hb).subset

end InlineMarkup
