/-
# Parsing loses nothing

With built-in matchers a parse always succeeds, and the markup of its nodes is the
text of the tokens, whichever of the matchers there are and in whichever order, at
every nesting limit, with texts merged or not (`markup_parse`). Before texts are
merged each node spells a span of its own, and the spans in a row are the tokens
(`Spells`).

It is enough that a markup token is some of its character: the delimiters that a
node drops are then those that its markup has. A container is written from its
children, which are there because its content is not empty.

Key definitions: `Token.Repeats`, `Spells`. Key theorems: `markup_of_forms`,
`Engine.Reads.spells`, `markup_finish`, `markup_parse`.
-/
import Mathlib.Data.List.Forall2
import InlineMarkup.Proofs.Merging
import InlineMarkup.Proofs.Nesting
import InlineMarkup.Proofs.StandardParse
import InlineMarkup.Proofs.Tokenization
import InlineMarkup.Loose.Text

namespace InlineMarkup

/-! ### Markup of nodes in a row -/

theorem markupAll_cons {n : Node} {ns : List Node} {s s' : String} (hn : n.markup = .ok s)
    (hns : Node.markupAll ns = .ok s') : Node.markupAll (n :: ns) = .ok (s ++ s') := by
  rw [Node.markupAll, hn, hns]
  rfl

/-- The nodes spell the tokens: one by one, in order, they are the markup of spans
that are not empty and that are, in a row, the tokens. -/
def Spells (nodes : List Node) (ts : List Token) : Prop :=
  ∃ spans : List (List Token), spans.flatten = ts ∧ (∀ span ∈ spans, span ≠ []) ∧
    List.Forall₂ (fun node span => node.markup = .ok (joinTokens span)) nodes spans

namespace Spells

theorem nil : Spells [] [] :=
  ⟨[], rfl, by simp, .nil⟩

theorem cons {node : Node} {nodes : List Node} {span rest : List Token}
    (hn : node.markup = .ok (joinTokens span)) (hne : span ≠ []) (h : Spells nodes rest) :
    Spells (node :: nodes) (span ++ rest) := by
  obtain ⟨spans, rfl, hspans, hall⟩ := h
  exact ⟨span :: spans, rfl, List.forall_mem_cons.mpr ⟨hne, hspans⟩, .cons hn hall⟩

theorem ne_nil {nodes : List Node} {ts : List Token} (h : Spells nodes ts) (hts : ts ≠ []) :
    nodes ≠ [] := by
  rintro rfl
  obtain ⟨spans, rfl, -, hall⟩ := h
  cases hall
  exact hts rfl

theorem markupAll {nodes : List Node} {ts : List Token} (h : Spells nodes ts) :
    Node.markupAll nodes = .ok (joinTokens ts) := by
  obtain ⟨spans, rfl, -, hall⟩ := h
  induction hall with
  | nil => rfl
  | cons hn _ ih => rw [markupAll_cons hn ih, List.flatten_cons, joinTokens_append]

end Spells

/-! ### Merged texts -/

theorem ignoresJoins_markupAll : IgnoresJoins Node.markupAll where
  cons n ns ms h := by rw [Node.markupAll, Node.markupAll, h]
  joined a b ns := by
    simp only [Node.markupAll, Node.markup]
    cases Node.markupAll ns with
    | error fault => rfl
    | ok s => simp [Except.map, String.append_assoc]

theorem markup_finish (e : Engine) (ns : List Node) :
    Node.markupAll (e.finish ns) = Node.markupAll ns :=
  ignoresJoins_markupAll.finish e ns

/-! ### Markup of spans -/

/-- A markup token is some of the character of its type. -/
def Token.Repeats (t : Token) : Prop :=
  ∀ x, t.type.markChar? = some x → ∃ n, t.value = String.ofList (List.replicate n x)

theorem Token.WellFormed.repeats {t : Token} (h : t.WellFormed) : t.Repeats := fun x hx =>
  ⟨t.length, by rw [← h.value_eq_replicate hx, String.ofList_toList]⟩

theorem Token.Repeats.value_eq {t : Token} (h : t.Repeats) {type : TokenType} {x : Char} (run : Nat)
    (hm : t.isMarker type run = true) (hx : type.markChar? = some x) :
    t.value = String.ofList (List.replicate run x) := by
  rw [Token.isMarker_iff, Int.natCast_inj] at hm
  obtain ⟨rfl, hlen⟩ := hm
  obtain ⟨n, hn⟩ := h x hx
  rw [Token.length, hn, String.length_ofList, List.length_replicate] at hlen
  rw [hn, hlen]

theorem joinTokens_delimited {d : Delimited} {o cl : Token} {content : List Token} {x y : Char}
    (run : Nat) (hrun : d.run = run) (hx : d.marker.markChar? = some x)
    (hy : (d.closer.getD d.marker).markChar? = some y) (ho : o.isMarker d.marker d.run = true)
    (hcl : d.closerRule.Closes content cl) (hrep : ∀ t ∈ o :: (content ++ [cl]), t.Repeats) :
    joinTokens (o :: (content ++ [cl])) = String.ofList (List.replicate run x) ++
      joinTokens content ++ String.ofList (List.replicate run y) := by
  have hclosed : cl.isMarker (d.closer.getD d.marker) run = true := hrun ▸ hcl.2
  rw [joinTokens_cons, joinTokens_append, joinTokens_cons, joinTokens_nil, String.append_empty,
    (hrep o (by simp)).value_eq run (hrun ▸ ho) hx, (hrep cl (by simp)).value_eq run hclosed hy,
    String.append_assoc]

theorem joinTokens_bracketed {span label url : List Token} (h : Bracketed span label url)
    (hrep : ∀ t ∈ span, t.Repeats) :
    joinTokens span = "[" ++ joinTokens label ++ "](" ++ joinTokens url ++ ")" := by
  obtain ⟨hlb, hlabel, hlp, -, hurl⟩ := h
  rename_i lb rb lp rp
  have h1 := (hrep lb (by simp)).value_eq 1 hlb rfl
  have h2 := (hrep rb (by simp)).value_eq 1 hlabel.2 rfl
  have h3 := (hrep lp (by simp)).value_eq 1 hlp rfl
  have h4 := (hrep rp (by simp)).value_eq 1 hurl.2 rfl
  have hturn : "](" = String.ofList (List.replicate 1 ']') ++ String.ofList (List.replicate 1 '(') :=
    rfl
  simp only [joinTokens_cons, joinTokens_append, joinTokens_nil, h1, h2, h3, h4, hturn,
    String.append_assoc, String.append_empty]
  rfl

/-- The markup of a leaf is the text of its span: the delimiters that the node drops
are those that its markup has. -/
theorem markup_of_forms {c : Construct} (hc : c ∈ builtInConstructs) {before : Option Token}
    {span rest : List Token} {node : Node} (h : c.Forms before span rest node)
    (plain : node.isContainer = false) (hrep : ∀ t ∈ span, t.Repeats) :
    node.markup = .ok (joinTokens span) := by
  simp only [builtInConstructs, List.mem_cons, List.not_mem_nil, or_false] at hc
  rcases hc with rfl | rfl | rfl | rfl | rfl | rfl | rfl | rfl | rfl
  · cases h with
    | delimited ho hne hcl hedge =>
      rw [joinTokens_delimited 1 rfl rfl rfl ho hcl hrep]
      rfl
  · cases h with
    | image hmark parts =>
      rw [List.forall_mem_cons] at hrep
      have hopen : "![" = String.ofList (List.replicate 1 '!') ++ "[" := rfl
      rw [joinTokens_cons, hrep.1.value_eq 1 hmark rfl, joinTokens_bracketed parts hrep.2,
        Node.markup, hopen]
      simp only [String.append_assoc]
  · cases h with
    | delimited ho hne hcl hedge =>
      rw [joinTokens_delimited 2 rfl rfl rfl ho hcl hrep]
      rfl
  · cases h with
    | link parts hne =>
      rw [joinTokens_bracketed parts hrep]
      rfl
  · cases h with
    | delimited => cases plain
  · cases h with
    | delimited => cases plain
  · cases h with
    | delimited => cases plain
  · cases h with
    | delimited ho hne hcl hedge =>
      rw [joinTokens_delimited 2 rfl rfl rfl ho hcl hrep]
      rfl
  · cases h with
    | tag hmark hopen hne hword hrest =>
      rw [joinTokens_cons, (hrep _ List.mem_cons_self).value_eq 1 hmark rfl]
      rfl

/-- The constructs that make containers open and close with the same marker. -/
theorem accepts_of_opens {d : Delimited} (hd : d ∈ boxes) {o : Token}
    (ho : o.isMarker d.marker d.run = true) : d.closerRule.accepts o = true := by
  simp only [boxes, List.mem_cons, List.not_mem_nil, or_false] at hd
  rcases hd with rfl | rfl | rfl <;> exact ho

theorem marker_of_box {d : Delimited} (hd : d ∈ boxes) {kind : ContainerKind}
    {content ts : List Token} {inner : List Node} (hbuild : d.build content = .container kind ts inner)
    {t : Token} (ht : d.closerRule.accepts t = true) (hrep : t.Repeats) :
    kind.marker? = some t.value := by
  simp only [boxes, List.mem_cons, List.not_mem_nil, or_false] at hd
  rcases hd with rfl | rfl | rfl
  · obtain ⟨rfl, -⟩ := (Node.container.injEq ..).mp hbuild
    rw [hrep.value_eq 2 ht rfl]
    rfl
  · obtain ⟨rfl, -⟩ := (Node.container.injEq ..).mp hbuild
    rw [hrep.value_eq 1 ht rfl]
    rfl
  · obtain ⟨rfl, -⟩ := (Node.container.injEq ..).mp hbuild
    rw [hrep.value_eq 2 ht rfl]
    rfl

theorem joinTokens_box {d : Delimited} (hd : d ∈ boxes) {kind : ContainerKind}
    {content ts : List Token} {inner : List Node} (hbuild : d.build content = .container kind ts inner)
    {o cl : Token} (ho : o.isMarker d.marker d.run = true) (hcl : d.closerRule.Closes content cl)
    (hrep : ∀ t ∈ o :: (content ++ [cl]), t.Repeats) : ∃ marker, kind.marker? = some marker ∧
      joinTokens (o :: (content ++ [cl])) = marker ++ joinTokens content ++ marker := by
  have hopen := marker_of_box hd hbuild (accepts_of_opens hd ho) (hrep o (by simp))
  have hclose := marker_of_box hd hbuild hcl.2 (hrep cl (by simp))
  have hsame : cl.value = o.value := Option.some.inj (hclose.symm.trans hopen)
  refine ⟨o.value, hopen, ?_⟩
  rw [joinTokens_cons, joinTokens_append, joinTokens_cons, joinTokens_nil, String.append_empty,
    hsame, String.append_assoc]

theorem markup_container {kind : ContainerKind} {marker s : String} {content : List Token}
    {children : List Node} (hmarker : kind.marker? = some marker) (hne : children ≠ [])
    (h : Node.markupAll children = .ok s) :
    (Node.container kind content children).markup = .ok (marker ++ s ++ marker) := by
  have hempty : children.isEmpty = false := by simpa using hne
  rw [Node.markup, hmarker]
  simp only [hempty, Bool.false_eq_true, if_false, h, Except.map]

/-! ### Markup of parses -/

/-- The nodes of a reading spell the tokens. The induction is on the reading: what a
token is read as spells it, and so does a span, given that children spell the content
of their container. -/
theorem Engine.Reads.spells {e : Engine} (he : e.matchers ⊆ builtIns) {levels : Nat}
    {before : Option Token} {ts : List Token} {ns : List Node} (h : e.Reads levels before ts ns)
    (hrep : ∀ t ∈ ts, t.Repeats) : Spells ns ts := by
  induction h with
  | done => exact .nil
  | @literal levels before t ts ns nothing next ih =>
    have ht : (Node.text t.value).markup = .ok (joinTokens [t]) := by simp [Node.markup]
    exact .cons ht (List.cons_ne_nil _ _) (ih (List.forall_mem_cons.mp hrep).2)
  | @refused before t ts ns m found first box next ih =>
    have ht : (Node.text t.value).markup = .ok (joinTokens [t]) := by simp [Node.markup]
    exact .cons ht (List.cons_ne_nil _ _) (ih (List.forall_mem_cons.mp hrep).2)
  | leaf split first covers plain _ ih =>
    subst split
    obtain ⟨hspan, hrest⟩ := List.forall_mem_append.mp hrep
    obtain ⟨c, hc, -, hform⟩ := e.forms_of_first? he first covers
    exact .cons (markup_of_forms hc hform plain hspan) hform.ne_nil (ih hrest)
  | container split first covers _ _ ihNested ihNext =>
    subst split
    obtain ⟨hspan, hrest⟩ := List.forall_mem_append.mp hrep
    obtain ⟨d, hd, o, cl, rfl, ho, hne, hcl, hbuild⟩ :=
      container_of_first? he boxedBy_builtIns first covers
    have hcontent := ihNested fun t ht => hspan t (by simp [ht])
    obtain ⟨marker, hmarker, hjoin⟩ := joinTokens_box hd hbuild ho hcl hspan
    refine .cons ?_ (List.cons_ne_nil _ _) (ihNext hrest)
    rw [hjoin]
    refine markup_container hmarker (finish_ne_nil e (hcontent.ne_nil hne)) ?_
    rw [markup_finish, hcontent.markupAll]

/-- What an engine makes of tokens spells them, and its markup is their text. -/
theorem exists_parse {e : Engine} (he : e.matchers ⊆ builtIns) {ts : List Token}
    (hrep : ∀ t ∈ ts, t.Repeats) : ∃ nodes, (e.parse ts).result = .ok nodes ∧
      markup nodes = .ok (joinTokens ts) ∧ (e.coalesce = false → Spells nodes ts) := by
  obtain ⟨ns, hreads, hparse⟩ := Engine.exists_reads he e.limit none ts
  have hspells := hreads.spells he hrep
  refine ⟨e.finish ns, hparse, ?_, fun hplain => ?_⟩
  · rw [markup, markup_finish, hspells.markupAll]
  · rw [Engine.finish, hplain]
    exact hspells

theorem repeats_of_mem_tokenize (source : String) : ∀ t ∈ tokenize source, t.Repeats := by
  intro t ht
  have hcut := isCut_tokensFrom 0 source.toList
  exact (hcut.1 t ht).repeats

/-- **Parsing loses nothing.** With built-in matchers every parse succeeds, and the markup of the
nodes is the text of the tokens. Unless texts are merged, the nodes spell spans of the tokens one
by one. -/
theorem markup_parse :
    (∀ e : Engine, e.matchers ⊆ builtIns → ∀ ts : List Token, (∀ t ∈ ts, t.Repeats) →
      ∃ nodes, (e.parse ts).result = .ok nodes ∧ markup nodes = .ok (joinTokens ts) ∧
        (e.coalesce = false → Spells nodes ts)) ∧
    (∀ e : Engine, e.matchers ⊆ builtIns → ∀ source : String,
      ∃ nodes, (e.parse (tokenize source)).result = .ok nodes ∧ markup nodes = .ok source ∧
        (e.coalesce = false → Spells nodes (tokenize source))) ∧
    ∀ (source : String) (own : Option Settings) (ambient : Settings),
      (own.getD ambient).registryInUse.entries ⊆ Entry.builtIns →
      ∃ values, ((parseInline source own).run ambient).1.result = .ok values ∧
        Loose.markup values = .ok source := by
  refine ⟨fun e he ts hrep => exists_parse he hrep, fun e he source => ?_,
    fun source own ambient h => ?_⟩
  · have hparse := exists_parse he (repeats_of_mem_tokenize source)
    rwa [joinTokens_tokenize] at hparse
  · obtain ⟨e, he, -, -, hrun⟩ := parseInline_eq h
    obtain ⟨nodes, hnodes, hmarkup, -⟩ := exists_parse he (repeats_of_mem_tokenize source)
    refine ⟨Node.storedAll nodes, ?_, ?_⟩
    · rw [hrun]
      exact Engine.result_map_of_ok _ hnodes
    · rw [Loose.markup, Loose.joinedAnswers, Value.nodes?_storedAll, ← joinTokens_tokenize source]
      exact hmarkup

/-- Nothing is lost with the matchers in reverse order, no level for containers and
tokens that are not those of a note, nor with the default settings. -/
theorem markup_parse_reverse :
    (∃ nodes, (Engine.parse ⟨builtIns.reverse, 0, false⟩
        [⟨.asterisk, "**", 7⟩, ⟨.text, "a*", 0⟩, ⟨.asterisk, "**", -1⟩]).result = .ok nodes ∧
      markup nodes = .ok "**a***" ∧ Spells nodes
        [⟨.asterisk, "**", 7⟩, ⟨.text, "a*", 0⟩, ⟨.asterisk, "**", -1⟩]) ∧
    (∃ nodes, (Engine.parse ⟨builtIns, 2, false⟩ (tokenize "*a* #b")).result = .ok nodes ∧
      markup nodes = .ok "*a* #b" ∧ Spells nodes (tokenize "*a* #b")) ∧
    ∃ values, ((parseInline "![](u)").run {}).1.result = .ok values ∧
      Loose.markup values = .ok "![](u)" := by
  have hstars : ∀ offset : Int, (Token.mk .asterisk "**" offset).Repeats := by
    intro offset x hx
    cases hx
    exact ⟨2, rfl⟩
  have htext : (Token.mk .text "a*" 0).Repeats := by
    intro x hx
    cases hx
  obtain ⟨htokens, hnote, hsettings⟩ := markup_parse
  refine ⟨?_, ?_, hsettings "![](u)" none {} (List.Subset.refl _)⟩
  · obtain ⟨nodes, hparse, hmarkup, hspells⟩ := htokens ⟨builtIns.reverse, 0, false⟩
      (fun m hm => List.mem_reverse.mp hm)
      [⟨.asterisk, "**", 7⟩, ⟨.text, "a*", 0⟩, ⟨.asterisk, "**", -1⟩]
      (by simp [hstars, htext])
    exact ⟨nodes, hparse, hmarkup, hspells rfl⟩
  · obtain ⟨nodes, hparse, hmarkup, hspells⟩ := hnote ⟨builtIns, 2, false⟩ (List.Subset.refl _) "*a* #b"
    exact ⟨nodes, hparse, hmarkup, hspells rfl⟩

end InlineMarkup
