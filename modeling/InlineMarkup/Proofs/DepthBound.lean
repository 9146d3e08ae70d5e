/-
# Nesting is bounded by the constructs

A construct between delimiters finds nothing inside a container that it made: the content
holds no closer of it, and neither does any slice of the content
(`Engine.attempt_eq_none_within`). So containers nest no deeper than there are constructs
that make them (`Engine.Reads.depth_le`), whatever the limit is. From that many levels on
the limit makes no difference, and no container is reported as nested too deep
(`Engine.pass_eq_of_alive_le`, `Engine.events_eq_nil_of_alive_le`).

Of the built-in constructs each makes containers of a kind of its own. So no container is
inside another one of its kind (`Engine.Reads.cls_ne_of_mem`).

Key definitions: `Node.depth`. Key theorems: `Engine.attempt_eq_none_within`,
`Engine.pass_eq_of_alive_le`, `Engine.Reads.depth_le`, `Engine.Reads.cls_ne_of_mem`,
`parseInline_eq_of_three_le`, `nesting_bounded`.
-/
import Mathlib.Logic.Relation
import InlineMarkup.Proofs.Comparison
import InlineMarkup.Proofs.Levels
import InlineMarkup.Proofs.StandardParse

namespace InlineMarkup

/-! ### Depth of nodes -/

mutual

/-- The number of containers on the longest way down from a node. -/
def Node.depth : Node → Nat
  | .container _ _ children => Node.depthAll children + 1
  | _ => 0

/-- The greatest depth of nodes in a row. -/
def Node.depthAll : List Node → Nat
  | [] => 0
  | n :: ns => max n.depth (Node.depthAll ns)

end

theorem Node.depth_of_plain {n : Node} (h : n.isContainer = false) : n.depth = 0 := by
  cases n with
  | container => cases h
  | _ => rw [Node.depth]; exact fun _ _ _ => Node.noConfusion

theorem ignoresJoins_depthAll : IgnoresJoins Node.depthAll where
  cons n ns ms h := by rw [Node.depthAll, Node.depthAll, h]
  joined a b ns := by simp [Node.depthAll, Node.depth]

theorem depthAll_finish (e : Engine) (ns : List Node) :
    Node.depthAll (e.finish ns) = Node.depthAll ns :=
  ignoresJoins_depthAll.finish e ns

namespace Engine

variable {e e' : Engine} {cs : List Construct} {ds : List Delimited}

/-! ### Inside a container -/

/-- All that a pass over tokens comes to, over the content of containers inside
containers, are slices of the tokens. -/
theorem isInfix_of_opens (he : e.matchers ⊆ cs.map Construct.matcher) (hb : BoxedBy cs ds)
    {ts us : List Token} (h : Relation.ReflTransGen e.Opens ts us) : us <:+: ts := by
  induction h with
  | refl => exact List.infix_rfl
  | tail _ hopens ih => exact (hopens.isInfix he hb).trans ih

/-- **A construct finds nothing inside a container that it made**, however deep inside. -/
theorem attempt_eq_none_within (he : e.matchers ⊆ cs.map Construct.matcher) (hb : BoxedBy cs ds)
    {d : Delimited} (hd : .delimited d ∈ cs) {ts us content : List Token} {before : Option Token}
    {p : Nat} {kind : ContainerKind} {inner : List Node} {consumed : Int}
    (hfound : d.attempt (.indexed (TokenSeq.ofList ts before)) p =
      some ⟨.container kind content inner, consumed⟩)
    (h : Relation.ReflTransGen e.Opens content us) (before' : Option Token) (q : Nat) :
    d.attempt (.indexed (TokenSeq.ofList us before')) q = none := by
  obtain ⟨-, content', cl, -, -, -, -, closes, -, hnode⟩ :=
    (d.attempt_eq_some_iff (TokenView.shows_ofList ts before)).mp hfound
  obtain ⟨-, rfl⟩ := hb d hd _ _ _ _ (congrArg Match.node hnode).symm
  have hslice := isInfix_of_opens he hb h
  cases hagain : d.attempt (.indexed (TokenSeq.ofList us before')) q with
  | none => rfl
  | some found =>
    -- the closer of the second span would be a token of the content
    obtain ⟨o, inside, cl', rest, hdrop, -, -, closes', -⟩ :=
      (d.attempt_eq_some_iff (TokenView.shows_ofList us before')).mp hagain
    have hmem : cl' ∈ us.drop q := by simp [hdrop]
    have hpass := closes.1 cl' (hslice.subset (List.mem_of_mem_drop hmem))
    have hother : d.closerRule.accepts cl' = false := (CloserRule.passes_iff.mp hpass).1
    rw [closes'.2] at hother
    cases hother

/-! ### Levels enough -/

/-- **Where at least as many levels are left as constructs can be closed, their number makes
no difference.** -/
theorem pass_eq_of_alive_le (he : e.matchers ⊆ cs.map Construct.matcher) (hb : BoxedBy cs ds)
    (hmatchers : e'.matchers = e.matchers) (hcoalesce : e'.coalesce = e.coalesce)
    {levels levels' : Nat} {ts : List Token} (h : alive ds ts ≤ levels) (h' : alive ds ts ≤ levels')
    (before : Option Token) :
    e'.pass levels' (TokenSeq.ofList ts before) = e.pass levels (TokenSeq.ofList ts before) := by
  have hagree : Agree e e' fun n n' us => alive ds us ≤ n ∧ alive ds us ≤ n' :=
    { coalesce := hcoalesce
      finds := fun _ before p => by rw [hmatchers]
      opens := by
        rintro n n' us content ⟨hn, hn'⟩ hopens
        have hlt := alive_lt_of_opens he hb hopens
        exact .inr ⟨n - 1, n' - 1, by omega, by omega, by omega, by omega⟩ }
  exact hagree.pass_eq ⟨h, h'⟩ before

theorem events_eq_nil_of_alive_le (he : e.matchers ⊆ cs.map Construct.matcher) (hb : BoxedBy cs ds)
    {levels : Nat} {ts : List Token} (h : alive ds ts ≤ levels) (before : Option Token) :
    (e.pass levels (TokenSeq.ofList ts before)).events = [] := by
  refine events_pass_eq_nil (P := fun n us => alive ds us ≤ n) ?_ h before
  intro n us content hn hopens
  have hlt := alive_lt_of_opens he hb hopens
  exact ⟨n - 1, by omega, by omega⟩

theorem parse_eq_of_length_le (he : e.matchers ⊆ cs.map Construct.matcher) (hb : BoxedBy cs ds)
    (hmatchers : e'.matchers = e.matchers) (hcoalesce : e'.coalesce = e.coalesce)
    (h : ds.length ≤ e.limit) (h' : ds.length ≤ e'.limit) (ts : List Token) :
    e'.parse ts = e.parse ts ∧ (e.parse ts).events = [] := by
  have halive : alive ds ts ≤ ds.length := List.countP_le_length
  have hlevels : alive ds ts ≤ e.limit := Nat.le_trans halive h
  have hlevels' : alive ds ts ≤ e'.limit := Nat.le_trans halive h'
  exact ⟨pass_eq_of_alive_le he hb hmatchers hcoalesce hlevels hlevels' none,
    events_eq_nil_of_alive_le he hb hlevels none⟩

/-! ### Depth of readings -/

/-- **Containers nest no deeper than constructs can be closed.** The induction is on the
reading. -/
theorem Reads.depth_le (he : e.matchers ⊆ cs.map Construct.matcher) (hb : BoxedBy cs ds)
    {levels : Nat} {before : Option Token} {ts : List Token} {ns : List Node}
    (h : e.Reads levels before ts ns) : Node.depthAll ns ≤ alive ds ts := by
  induction h with
  | done => exact Nat.zero_le _
  | literal nothing next ih | refused first box next ih =>
    rw [Node.depthAll, Node.depth_of_plain rfl, Nat.zero_max]
    exact Nat.le_trans ih (alive_le_of_subset (List.subset_cons_self _ _))
  | leaf split first covers plain next ih =>
    subst split
    rw [Node.depthAll, Node.depth_of_plain plain, Nat.zero_max]
    exact Nat.le_trans ih (alive_le_of_subset (List.subset_append_right _ _))
  | @container levels before ts span rest content kind inner children ns m consumed split first
      covers nested next ihNested ihNext =>
    subst split
    obtain ⟨d, hd, o, cl, rfl, -, -, closes, -⟩ := container_of_first? he hb first covers
    have hlt : alive ds content < alive ds (o :: (content ++ [cl]) ++ rest) :=
      alive_content_lt hd closes (by simp) fun t ht => by simp [ht]
    have hrest : alive ds rest ≤ alive ds (o :: (content ++ [cl]) ++ rest) :=
      alive_le_of_subset (List.subset_append_right _ rest)
    rw [Node.depthAll, Node.depth, depthAll_finish]
    omega

theorem exists_parse_depth_le (he : e.matchers ⊆ cs.map Construct.matcher) (hb : BoxedBy cs ds)
    (ts : List Token) :
    ∃ nodes, (e.parse ts).result = .ok nodes ∧ Node.depthAll nodes ≤ ds.length := by
  obtain ⟨ns, hreads, hparse⟩ := exists_reads he e.limit none ts
  refine ⟨e.finish ns, hparse, ?_⟩
  calc Node.depthAll (e.finish ns) = Node.depthAll ns := depthAll_finish e ns
    _ ≤ alive ds ts := hreads.depth_le he hb
    _ ≤ ds.length := List.countP_le_length

/-! ### Nodes at all depths -/

theorem forall_preorderAll_finish (e : Engine) {P : Node → Prop} (htext : ∀ s, P (.text s))
    {ns : List Node} (h : ∀ n ∈ preorderAll ns, P n) : ∀ n ∈ preorderAll (e.finish ns), P n := by
  unfold finish
  split
  · exact forall_preorderAll_mergeTexts htext h
  · exact h

/-- To hold of all nodes at all depths of a reading, it is enough to hold of those that are
no containers, and of the containers made of a slice of the tokens, whose children are
read from their content. -/
theorem Reads.forall_preorderAll (he : e.matchers ⊆ cs.map Construct.matcher) (hb : BoxedBy cs ds)
    {P : Node → Prop} (hplain : ∀ n, n.isContainer = false → P n) {levels : Nat}
    {before : Option Token} {ts : List Token} {ns : List Node} (h : e.Reads levels before ts ns)
    (hbox : ∀ {d o cl content kind inner levels before children}, d ∈ ds →
      o.isMarker d.marker d.run = true → content ≠ [] →
      o :: (content ++ [cl]) <:+: ts → d.closerRule.Closes content cl →
      d.build content = .container kind content inner → e.Reads levels before content children →
      P (.container kind content (e.finish children))) : ∀ n ∈ preorderAll ns, P n := by
  induction h with
  | done => simp [preorderAll]
  | literal nothing next ih | refused first box next ih =>
    rw [preorderAll, Node.preorder_of_plain rfl, List.singleton_append, List.forall_mem_cons]
    exact ⟨hplain _ rfl, ih fun hd ho hne hslice =>
      hbox hd ho hne (hslice.trans (List.suffix_cons _ _).isInfix)⟩
  | leaf split first covers plain next ih =>
    subst split
    rw [preorderAll, Node.preorder_of_plain plain, List.singleton_append, List.forall_mem_cons]
    exact ⟨hplain _ plain, ih fun hd ho hne hslice =>
      hbox hd ho hne (hslice.trans (List.suffix_append _ _).isInfix)⟩
  | @container levels before ts span rest content kind inner children ns m consumed split first
      covers nested next ihNested ihNext =>
    subst split
    obtain ⟨d, hd, o, cl, rfl, ho, hne, closes, hbuild⟩ := container_of_first? he hb first covers
    have hspan := (List.prefix_append (o :: (content ++ [cl])) rest).isInfix
    have hcontent : content <:+: o :: (content ++ [cl]) ++ rest :=
      List.IsInfix.trans ⟨[o], [cl], by simp⟩ hspan
    simp only [preorderAll, Node.preorder, List.cons_append, List.forall_mem_cons,
      List.forall_mem_append]
    refine ⟨hbox hd ho hne hspan closes hbuild nested, ?_, ?_⟩
    · exact e.forall_preorderAll_finish (fun s => hplain _ rfl)
        (ihNested fun hd ho hne hslice => hbox hd ho hne (hslice.trans hcontent))
    · exact ihNext fun hd ho hne hslice =>
        hbox hd ho hne (hslice.trans (List.suffix_append _ _).isInfix)

end Engine

/-! ### Kinds of nested containers -/

theorem ContainerKind.cls_injective : Function.Injective ContainerKind.cls := by
  intro a b h
  cases a <;> cases b <;> first | rfl | cases h

theorem Node.cls_ne_of_plain {n : Node} (h : n.isContainer = false) (kind : ContainerKind) :
    n.cls ≠ kind.cls := by
  cases n with
  | container => cases h
  | _ => cases kind <;> exact NodeClass.noConfusion

theorem eq_of_build_kind {d d' : Delimited} (hd : d ∈ boxes) (hd' : d' ∈ boxes)
    {kind : ContainerKind} {content content' ts ts' : List Token} {inner inner' : List Node}
    (h : d.build content = .container kind ts inner)
    (h' : d'.build content' = .container kind ts' inner') : d = d' := by
  have hkind : (d.build content).cls = (d'.build content').cls := by
    rw [h, h']
    rfl
  simp only [boxes, List.mem_cons, List.not_mem_nil, or_false] at hd hd'
  rcases hd with rfl | rfl | rfl <;> rcases hd' with rfl | rfl | rfl <;> first | rfl | cases hkind

namespace Engine

variable {e : Engine} {levels : Nat} {before : Option Token} {ts : List Token} {ns : List Node}

/-- Tokens that do not close a built-in construct are read without containers of its kind,
at all depths. -/
theorem Reads.cls_ne_of_unclosed (he : e.matchers ⊆ builtIns) (h : e.Reads levels before ts ns)
    {d : Delimited} (hd : d ∈ boxes) {kind : ContainerKind} {content : List Token}
    {inner : List Node} (hbuild : d.build content = .container kind content inner)
    (hts : ∀ t ∈ ts, d.closerRule.accepts t = false) : ∀ n ∈ preorderAll ns, n.cls ≠ kind.cls := by
  refine h.forall_preorderAll he boxedBy_builtIns (fun n hn => Node.cls_ne_of_plain hn kind) ?_
  intro d' o cl content' kind' inner' levels' before' children hd' _ _ hslice closes hbuild' _ hcls
  obtain rfl : kind' = kind := ContainerKind.cls_injective hcls
  obtain rfl := eq_of_build_kind hd hd' hbuild hbuild'
  have hclosed := hts cl (hslice.subset (by simp))
  rw [closes.2] at hclosed
  cases hclosed

/-- **No container is inside another one of its class**: what is inside does not close it. -/
theorem Reads.cls_ne_of_mem (he : e.matchers ⊆ builtIns) (h : e.Reads levels before ts ns) :
    ∀ n ∈ preorderAll ns, ∀ m ∈ preorderAll n.children, m.cls ≠ n.cls := by
  refine h.forall_preorderAll he boxedBy_builtIns ?_ ?_
  · intro n hn m hm
    rw [Node.children_of_plain hn] at hm
    cases hm
  · intro d o cl content kind inner levels' before' children hd _ _ _ closes hbuild hreads
    have hunclosed : ∀ t ∈ content, d.closerRule.accepts t = false := fun t ht =>
      (CloserRule.passes_iff.mp (closes.1 t ht)).1
    exact e.forall_preorderAll_finish (fun s => Node.cls_ne_of_plain rfl kind)
      (hreads.cls_ne_of_unclosed he hd hbuild hunclosed)

end Engine

/-- With the same registry of built-in entries and the same flag for merging texts, all
settings with three levels or more parse a note alike. -/
theorem parseInline_eq_of_three_le {own own' : Option Settings} {ambient ambient' : Settings}
    (hentries : (own.getD ambient).registryInUse.entries ⊆ Entry.builtIns)
    (hregistry : (own'.getD ambient').registryInUse = (own.getD ambient).registryInUse)
    (hcoalesce : (own'.getD ambient').coalesce = (own.getD ambient).coalesce)
    (h : 3 ≤ (own.getD ambient).maxDepth.levels) (h' : 3 ≤ (own'.getD ambient').maxDepth.levels)
    (source : String) :
    ((parseInline source own').run ambient').1 = ((parseInline source own).run ambient).1 := by
  obtain ⟨ms, hms, hsub⟩ := exists_matchers hentries
  have hms' : (own'.getD ambient').registryInUse.checked? = some ms := by
    rw [hregistry]
    exact hms
  have hparse : Engine.parse ⟨ms, (own'.getD ambient').maxDepth.levels,
        (own'.getD ambient').coalesce.truthy⟩ (tokenize source) =
      Engine.parse ⟨ms, (own.getD ambient).maxDepth.levels,
        (own.getD ambient).coalesce.truthy⟩ (tokenize source) := by
    refine (Engine.parse_eq_of_length_le ?_ boxedBy_builtIns ?_ ?_ ?_ ?_ _).1
    · exact hsub
    · rfl
    · exact congrArg Json.truthy hcoalesce
    · exact h
    · exact h'
  rw [parseInline_eq_of_checked hms, parseInline_eq_of_checked hms', hparse]

/-- **Nesting is bounded by the constructs.** A construct finds nothing inside a container that
it made, so containers nest no deeper than there are constructs that make them, and limits that
are not below their number make no difference. With built-in matchers that number is 3. -/
theorem nesting_bounded :
    (∀ (cs : List Construct) (e : Engine), (∀ c ∈ cs, c.KeepsContent) →
      e.matchers = cs.map Construct.matcher →
      (∀ (d : Delimited) (ts : List Token) (before : Option Token) (p : Nat) (kind : ContainerKind)
        (content : List Token) (inner : List Node) (consumed : Int), .delimited d ∈ cs →
        d.attempt (.indexed (TokenSeq.ofList ts before)) p =
          some ⟨.container kind content inner, consumed⟩ →
        ∀ us, Relation.ReflTransGen e.Opens content us → ∀ before' q,
          d.attempt (.indexed (TokenSeq.ofList us before')) q = none) ∧
      (∀ ts, ∃ nodes, (e.parse ts).result = .ok nodes ∧
        Node.depthAll nodes ≤ (containerMakers cs).length) ∧
      ∀ e' : Engine, e'.matchers = e.matchers → e'.coalesce = e.coalesce →
        (containerMakers cs).length ≤ e.limit → (containerMakers cs).length ≤ e'.limit →
        ∀ ts, e'.parse ts = e.parse ts ∧ (e.parse ts).events = []) ∧
    (∀ e : Engine, e.matchers ⊆ builtIns → ∀ ts, ∃ nodes, (e.parse ts).result = .ok nodes ∧
      Node.depthAll nodes ≤ 3 ∧
      ∀ n ∈ preorderAll nodes, ∀ m ∈ preorderAll n.children, m.cls ≠ n.cls) ∧
    ∀ (source : String) (own own' : Option Settings) (ambient ambient' : Settings),
      (own.getD ambient).registryInUse.entries ⊆ Entry.builtIns →
      (own'.getD ambient').registryInUse = (own.getD ambient).registryInUse →
      (own'.getD ambient').coalesce = (own.getD ambient).coalesce →
      3 ≤ (own.getD ambient).maxDepth.levels → 3 ≤ (own'.getD ambient').maxDepth.levels →
      ((parseInline source own').run ambient').1 = ((parseInline source own).run ambient).1 := by
  refine ⟨fun cs e hkeep he => ?_, fun e he ts => ?_, ?_⟩
  · have hsub : e.matchers ⊆ cs.map Construct.matcher := he ▸ List.Subset.refl _
    have hboxed := boxedBy_containerMakers hkeep
    refine ⟨?_, Engine.exists_parse_depth_le hsub hboxed, ?_⟩
    · intro d ts before p kind content inner consumed hd hfound us hus before' q
      exact Engine.attempt_eq_none_within hsub hboxed hd hfound hus before' q
    · intro e' hmatchers hcoalesce h h' ts
      exact Engine.parse_eq_of_length_le hsub hboxed hmatchers hcoalesce h h' ts
  · obtain ⟨ns, hreads, hparse⟩ := Engine.exists_reads he e.limit none ts
    obtain ⟨nodes, hnodes, hdepth⟩ := Engine.exists_parse_depth_le he boxedBy_builtIns ts
    obtain rfl : nodes = e.finish ns := Except.ok.inj (hnodes.symm.trans hparse)
    refine ⟨_, hparse, hdepth, e.forall_preorderAll_finish ?_ (hreads.cls_ne_of_mem he)⟩
    simp [Node.children, preorderAll]
  · intro source own own' ambient ambient' hentries hregistry hcoalesce h h'
    exact parseInline_eq_of_three_le hentries hregistry hcoalesce h h' source

/-- In bold text nothing bold is found, nor is it in the italic text inside. The three
built-in constructs that make containers need three levels, whatever the settings. -/
theorem nesting_bounded_bold :
    bold.attempt (.indexed (TokenSeq.ofList ((tokenize "**a *b* c**").extract 4 5) none)) 0 = none ∧
    (∃ nodes, (standardEngine.parse (tokenize "**a *~~b~~* c**")).result = .ok nodes ∧
      Node.depthAll nodes ≤ (containerMakers builtInConstructs).length) ∧
    (Engine.parse ⟨builtIns, 3, true⟩ (tokenize "**a *~~b~~* c**") =
        standardEngine.parse (tokenize "**a *~~b~~* c**") ∧
      (standardEngine.parse (tokenize "**a *~~b~~* c**")).events = []) ∧
    (∃ nodes, (Engine.parse ⟨builtIns.reverse, 1, false⟩ (tokenize "**a *b* c**")).result = .ok nodes ∧
      Node.depthAll nodes ≤ 3 ∧
      ∀ n ∈ preorderAll nodes, ∀ m ∈ preorderAll n.children, m.cls ≠ n.cls) ∧
    ((parseInline "**a *~~b~~* c**" (some { maxDepth := .count 3 })).run {}).1 =
      ((parseInline "**a *~~b~~* c**").run {}).1 := by
  obtain ⟨hgeneral, hbuiltIns, hsettings⟩ := nesting_bounded
  obtain ⟨hnone, hdepth, hlimits⟩ :=
    hgeneral builtInConstructs standardEngine keepsContent_builtIns rfl
  have hlimit : (containerMakers builtInConstructs).length ≤ 3 := by
    rw [containerMakers_builtIns]
    decide
  have hlimit' : (containerMakers builtInConstructs).length ≤ standardEngine.limit :=
    Nat.le_trans hlimit (by decide)
  have hfound : bold.attempt (.indexed (TokenSeq.ofList (tokenize "**a *b* c**") none)) 0 =
      some ⟨.container .bold ((tokenize "**a *b* c**").extract 1 8) [], 9⟩ := rfl
  have hopens : standardEngine.Opens ((tokenize "**a *b* c**").extract 1 8)
      ((tokenize "**a *b* c**").extract 4 5) :=
    ⟨none, 2, italic.matcher, .italic, [], 3, rfl⟩
  have hbold : .delimited bold ∈ builtInConstructs := by simp [builtInConstructs]
  refine ⟨?_, hdepth _, ?_, ?_, ?_⟩
  · exact hnone _ _ _ _ _ _ _ _ hbold hfound _ (.single hopens) none 0
  · exact hlimits ⟨builtIns, 3, true⟩ rfl rfl hlimit' hlimit _
  · exact hbuiltIns ⟨builtIns.reverse, 1, false⟩ (fun m hm => List.mem_reverse.mp hm) _
  · exact hsettings _ none (some { maxDepth := .count 3 }) {} {} (List.Subset.refl _) rfl rfl
      (by decide) (by decide)

end InlineMarkup
