/-
# Containers are made of their parts

Text between two delimiters `**`, `*` or `~~` parses to one container exactly if the
delimiters can hold it (`ContainerKind.Holds`). Its tokens are then the content, and its
nodes are the children, both moved by the length of the delimiter. One level less is left
to the content than to a note, but the built-in constructs never need so many
(`Engine.pass_eq_of_alive_le`).

Key definitions: `ContainerKind.Holds`, `ContainerKind.MadeBy`.
Key theorems: `edgesFit_iff_chars`, `holds_of_forms`, `parsesTo_of_holds`, `parse_container`.
-/
import InlineMarkup.Proofs.DepthBound
import InlineMarkup.Proofs.LeafGrammar
import InlineMarkup.Proofs.Losslessness
import InlineMarkup.Proofs.Relabelling

namespace InlineMarkup

/-! ### What containers hold -/

/-- The texts that containers of a kind hold between their delimiters. No space touches
the delimiters of italic text. -/
def ContainerKind.Holds : ContainerKind → List Char → Prop
  | .plain, _ => False
  | .bold, cs => cs ≠ [] ∧ Between '*' '*' 2 cs
  | .italic, cs => cs ≠ [] ∧ Between '*' '*' 1 cs ∧
    NoSpace cs.head?.toList ∧ NoSpace cs.getLast?.toList
  | .strikethrough, cs => cs ≠ [] ∧ Between '~' '~' 2 cs

instance (kind : ContainerKind) (cs : List Char) : Decidable (kind.Holds cs) :=
  match kind with
  | .plain => inferInstanceAs (Decidable False)
  | .bold => inferInstanceAs (Decidable (_ ∧ _))
  | .italic => inferInstanceAs (Decidable (_ ∧ _))
  | .strikethrough => inferInstanceAs (Decidable (_ ∧ _))

theorem forall_ne_iff_of_map_eq {α β γ : Type} {f : α → γ} {g : β → γ} {a : Option α} {b : Option β}
    (h : a.map f = b.map g) (c : γ) : (∀ x ∈ a.toList, f x ≠ c) ↔ ∀ y ∈ b, g y ≠ c := by
  cases a with
  | none => cases b <;> simp at h ⊢
  | some x => cases b <;> simp at h ⊢; rw [h]

theorem edgesFit_iff_chars {d : Delimited} {ts : List Token} (h : ∀ t ∈ ts, t.WellFormed) :
    d.EdgesFit ts ↔ d.allowEdgeSpace = true ∨
      NoSpace (charsOf ts).head?.toList ∧ NoSpace (charsOf ts).getLast?.toList := by
  rw [Delimited.EdgesFit, noSpace_iff, noSpace_iff,
    forall_ne_iff_of_map_eq (map_head?_charsOf h), forall_ne_iff_of_map_eq (map_getLast?_charsOf h)]

/-- The construct `d` makes the containers of a kind. It has `k` times `x` as opener and
as closer, and what it accepts between them is what the kind holds. -/
structure ContainerKind.MadeBy (kind : ContainerKind) (d : Delimited) (x : Char) (k : Nat) : Prop where
  mem : d ∈ boxes
  build : d.build = Node.unparsed kind
  opener : d.marker.markChar? = some x
  closer : d.closerRule.IsFor x k
  space : d.allowSpace = true
  marker : kind.marker? = some (String.ofList (List.replicate k x))
  holds : ∀ cs, kind.Holds cs ↔ cs ≠ [] ∧ Between x x k cs ∧
    (d.allowEdgeSpace = true ∨ NoSpace cs.head?.toList ∧ NoSpace cs.getLast?.toList)

theorem exists_madeBy {kind : ContainerKind} {marker : String}
    (h : kind.marker? = some marker) : ∃ d x k, kind.MadeBy d x k := by
  cases kind with
  | plain => cases h
  | bold =>
    refine ⟨bold, '*', 2, ?_, rfl, rfl, ⟨rfl, rfl, by decide, rfl⟩, rfl, rfl, fun cs => ?_⟩
    · simp [boxes]
    · simp [ContainerKind.Holds, bold]
  | italic =>
    refine ⟨italic, '*', 1, ?_, rfl, rfl, ⟨rfl, rfl, by decide, rfl⟩, rfl, rfl, fun cs => ?_⟩
    · simp [boxes]
    · simp [ContainerKind.Holds, italic]
  | strikethrough =>
    refine ⟨strikethrough, '~', 2, ?_, rfl, rfl, ⟨rfl, rfl, by decide, rfl⟩, rfl, rfl, fun cs => ?_⟩
    · simp [boxes]
    · simp [ContainerKind.Holds, strikethrough]

section Parts

variable {kind : ContainerKind} {d : Delimited} {x : Char} {k : Nat}

/-! ### From containers to what they hold -/

theorem Engine.Reads.first?_of_container {e : Engine} {levels : Nat} {before : Option Token}
    {ts content : List Token} {children : List Node}
    (h : e.Reads levels before ts [.container kind content children]) : ∃ m inner,
      e.first? before ts = some (m, ⟨.container kind content inner, ts.length⟩) := by
  generalize hns : [Node.container kind content children] = ns at h
  cases h with
  | done => cases hns
  | literal => cases hns
  | refused => cases hns
  | leaf split first covers plain next =>
    rw [← (List.cons.inj hns).1] at plain
    cases plain
  | container split first covers nested next =>
    cases hns
    cases next with
    | done =>
      rw [covers] at first
      rw [split, List.append_nil]
      rw [split, List.append_nil] at first
      exact ⟨_, _, first⟩

/-- **A span that makes a container is what the kind holds between its delimiters.** -/
theorem holds_of_forms (hkind : kind.MadeBy d x k) {c : Construct} (hc : c ∈ builtInConstructs)
    {before : Option Token} {span rest content : List Token} {inner : List Node}
    (h : c.Forms before span rest (.container kind content inner)) {offset : Int}
    (hcut : IsCut offset span) : kind.Holds (joinTokens content).toList ∧ ∃ marker,
      kind.marker? = some marker ∧ joinTokens span = marker ++ joinTokens content ++ marker := by
  generalize hnode : Node.container kind content inner = node at h
  cases h with
  | link => cases hnode
  | image => cases hnode
  | tag => cases hnode
  | @delimited d' _ o cl content' _ opens filled closes edges =>
    obtain ⟨hd', rfl⟩ := boxedBy_builtIns d' hc _ _ _ _ hnode.symm
    have hbuild : d.build content = .container kind content [] := by
      rw [hkind.build]
      rfl
    obtain rfl := eq_of_build_kind hd' hkind.mem hnode.symm hbuild
    have hrep : ∀ t ∈ o :: (content ++ [cl]), t.Repeats := fun t ht => (hcut.wellFormed t ht).repeats
    have hcontent : ∀ t ∈ content, t.WellFormed := fun t ht => hcut.wellFormed t (by simp [ht])
    obtain ⟨hne, hbetween, -⟩ := field_of_closes hkind.closer hkind.opener hcut opens closes
    have hedges := (edgesFit_iff_chars hcontent).mp edges
    rw [← toList_joinTokens] at hedges
    have hchars : (joinTokens content).toList ≠ [] := mt String.toList_eq_nil_iff.mp (hne filled)
    exact ⟨(hkind.holds _).mpr ⟨hchars, hbetween, hedges⟩,
      joinTokens_box hkind.mem hnode.symm opens closes hrep⟩

theorem holds_of_parsesTo (hkind : kind.MadeBy d x k) {marker c : String}
    (hmarker : kind.marker? = some marker) {content : List Token} {children : List Node}
    (h : ParsesTo (marker ++ c ++ marker) [.container kind content children]) :
    kind.Holds c.toList := by
  obtain ⟨ns, hreads, hmerged⟩ := parsesTo_iff_reads.mp h
  obtain rfl : ns = [.container kind content children] :=
    eq_singleton_of_mergeTexts (fun s => Node.noConfusion) hmerged.symm
  obtain ⟨m, inner, hfirst⟩ := hreads.first?_of_container
  rw [← List.append_nil (tokenize _)] at hfirst
  obtain ⟨c', hc', -, hform⟩ :=
    standardEngine.forms_of_first? matchers_standardEngine hfirst (by simp)
  obtain ⟨hholds, marker', hmarker', hjoin⟩ := holds_of_forms hkind hc' hform (isCut_tokensFrom 0 _)
  -- the delimiters on both sides are the same, so the content is the text
  obtain rfl : marker = marker' := Option.some.inj (hmarker.symm.trans hmarker')
  rw [joinTokens_tokenize, String.append_left_inj, String.append_right_inj] at hjoin
  rwa [hjoin]

/-! ### From what they hold to containers -/

theorem exists_reads_of_parsesTo {c : String} {children : List Node} (h : ParsesTo c children)
    {levels : Nat} (hlevels : 3 ≤ levels) :
    ∃ ns, standardEngine.Reads levels none (tokenize c) ns ∧ children = mergeTexts ns := by
  have halive : alive boxes (tokenize c) ≤ 3 := List.countP_le_length
  have hpass : standardEngine.pass 16 (TokenSeq.ofList (tokenize c)) =
      standardEngine.pass levels (TokenSeq.ofList (tokenize c)) :=
    Engine.pass_eq_of_alive_le matchers_standardEngine boxedBy_builtIns rfl rfl
      (Nat.le_trans halive hlevels) (Nat.le_trans halive (by decide)) none
  have hparse : (standardEngine.pass 16 (TokenSeq.ofList (tokenize c))).result = .ok children :=
    parsesTo_iff.mp h
  rw [hpass] at hparse
  exact (Engine.pass_eq_ok_iff matchers_standardEngine).mp hparse

/-- **Between delimiters that can hold it, a note parses to its container.** -/
theorem parsesTo_of_holds (hkind : kind.MadeBy d x k) {marker c : String}
    (hmarker : kind.marker? = some marker) (h : kind.Holds c.toList) {children : List Node}
    (hparse : ParsesTo c children) : ParsesTo (marker ++ c ++ marker)
      [.container kind ((tokenize c).map (Token.shift marker.length))
        (children.map (Node.shift marker.length))] := by
  obtain rfl : marker = String.ofList (List.replicate k x) :=
    Option.some.inj (hmarker.symm.trans hkind.marker)
  have hlength : (String.ofList (List.replicate k x)).length = k := by simp
  obtain ⟨hchars, hbetween, hedges⟩ := (hkind.holds _).mp h
  have hne : c ≠ "" := mt String.toList_eq_nil_iff.mpr hchars
  have hfit : d.EdgesFit (tokensFrom k c.toList) := by
    rw [edgesFit_iff_chars (isCut_tokensFrom k _).wellFormed, charsOf_tokensFrom]
    exact hedges
  have hform := forms_delimited hkind.closer hkind.opener hkind.space hne hbetween hfit
  obtain ⟨ns, hreads, rfl⟩ := exists_reads_of_parsesTo hparse (show 3 ≤ 15 by decide)
  have hnested := hreads.shift matchers_standardEngine k rfl
  have hmem := boxes_subset hkind.mem
  have hfirst := standardEngine.first?_of_forms matchers_standardEngine openers_builtIns.1 hmem
    (List.mem_map_of_mem hmem) hform
  rw [hkind.build, tokensFrom_eq_shift, List.append_nil] at hfirst
  have hmerged : mergeTexts (ns.map (Node.shift k)) = (mergeTexts ns).map (Node.shift k) :=
    (Relabelling.shift k).mergeTexts_map ns
  rw [hlength, ← hmerged]
  exact parsesTo_iff_reads.mpr
    ⟨_, .container (List.append_nil _).symm hfirst rfl hnested .done, rfl⟩

end Parts

/-! ### Markup of a container -/

theorem markupAll_singleton (n : Node) : Node.markupAll [n] = n.markup := by
  rw [Node.markupAll, Node.markupAll]
  cases n.markup with
  | error fault => rfl
  | ok s => simp [Except.map]

theorem markup_of_parsesTo {source : String} {n : Node} (h : ParsesTo source [n]) :
    n.markup = .ok source := by
  obtain ⟨nodes, hparse, hmarkup, -⟩ :=
    exists_parse matchers_standardEngine (repeats_of_mem_tokenize source)
  obtain rfl := h.unique (parsesTo_iff.mpr hparse)
  rwa [markup, markupAll_singleton, joinTokens_tokenize] at hmarkup

/-- **Containers are made of their parts.** A text between two delimiters parses to one container
of their kind if and only if they can hold it. What the container holds is what the text is cut
and parsed into, further on by the delimiter. -/
theorem parse_container {kind : ContainerKind} {marker : String}
    (hmarker : kind.marker? = some marker) (c : String) :
    ((∃ node, ParsesTo (marker ++ c ++ marker) [node] ∧ node.cls = kind.cls ∧
        node.markup = .ok (marker ++ c ++ marker)) ↔ kind.Holds c.toList) ∧
    (kind.Holds c.toList → ∃ children, ParsesTo c children ∧
      ParsesTo (marker ++ c ++ marker)
        [.container kind ((tokenize c).map (Token.shift marker.length))
          (children.map (Node.shift marker.length))]) := by
  obtain ⟨d, x, k, hkind⟩ := exists_madeBy hmarker
  obtain ⟨children, hparse⟩ := exists_parsesTo c
  refine ⟨⟨?_, fun hholds => ?_⟩, fun hholds => ?_⟩
  · rintro ⟨node, hnode, hcls, -⟩
    cases node with
    | container kind' content inner =>
      obtain rfl : kind' = kind := ContainerKind.cls_injective hcls
      exact holds_of_parsesTo hkind hmarker hnode
    | _ => exact absurd hcls (Node.cls_ne_of_plain rfl kind)
  · have hwhole := parsesTo_of_holds hkind hmarker hholds hparse
    exact ⟨_, hwhole, rfl, markup_of_parsesTo hwhole⟩
  · exact ⟨children, hparse, parsesTo_of_holds hkind hmarker hholds hparse⟩

/-- Italic text holds bold text, but nothing that begins with it. -/
theorem parse_container_italic : ContainerKind.italic.Holds "a **b #c**\t!".toList ∧
    (∃ children, ParsesTo "a **b #c**\t!" children ∧ ParsesTo ("*" ++ "a **b #c**\t!" ++ "*")
      [.container .italic ((tokenize "a **b #c**\t!").map (Token.shift "*".length))
        (children.map (Node.shift "*".length))]) ∧
    ¬ ∃ node, ParsesTo ("*" ++ "**b** a" ++ "*") [node] ∧ node.cls = ContainerKind.italic.cls ∧
      node.markup = .ok ("*" ++ "**b** a" ++ "*") := by
  have hmarker : ContainerKind.italic.marker? = some "*" := rfl
  have hholds : ContainerKind.italic.Holds "a **b #c**\t!".toList := by decide
  have hnot : ¬ ContainerKind.italic.Holds "**b** a".toList := by decide
  exact ⟨hholds, (parse_container hmarker _).2 hholds, mt (parse_container hmarker _).1.mp hnot⟩

end InlineMarkup
