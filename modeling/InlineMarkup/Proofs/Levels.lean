/-
# What stands at some depth of a parse

Every node at any depth of a parse stands in the result of a reading of a slice of
the tokens, with enough levels left that this reading refuses no container
(`Engine.Reads.exists_level`). On such a level a leaf comes from a span of the form
of a construct (`Engine.Reads.exists_forms_of_mem`), and a container holds the
result of the next level (`Engine.Reads.exists_reads_of_mem`).

Key theorems: `Engine.Reads.exists_forms_of_mem`, `Engine.Reads.exists_reads_of_mem`,
`Engine.Reads.exists_level`, `Engine.Reads.exists_suffix`, `ParsesTo.exists_level`.
-/
import InlineMarkup.Proofs.Forest
import InlineMarkup.Proofs.Merging
import InlineMarkup.Proofs.Nesting
import InlineMarkup.Proofs.StandardParse

namespace InlineMarkup

theorem mem_of_mem_finish {e : Engine} {n : Node} (hn : ∀ s, n ≠ .text s) {ns : List Node}
    (h : n ∈ e.finish ns) : n ∈ ns := by
  unfold Engine.finish at h
  split at h
  · exact mem_of_mem_mergeTexts hn h
  · exact h

theorem forall_preorderAll_mergeTexts {P : Node → Prop} (htext : ∀ s, P (.text s))
    {ns : List Node} (h : ∀ n ∈ preorderAll ns, P n) : ∀ n ∈ preorderAll (mergeTexts ns), P n := by
  intro n hn
  rcases n.text_cases with ⟨s, rfl⟩ | hother
  · exact htext s
  · refine h n (mem_preorderAll_iff.mpr ?_)
    rcases mem_preorderAll_iff.mp hn with hn | ⟨m, hm, hn⟩
    · exact .inl (mem_of_mem_mergeTexts hother hn)
    · have hbox : ∀ s, m ≠ .text s := by
        rintro s rfl
        simp [Node.children, preorderAll] at hn
      exact .inr ⟨m, mem_of_mem_mergeTexts hbox hm, hn⟩

theorem mem_preorderAll_finish (e : Engine) {n : Node} (hn : ∀ s, n ≠ .text s) {ns : List Node}
    (h : n ∈ preorderAll ns) : n ∈ preorderAll (e.finish ns) := by
  unfold Engine.finish
  split
  · rw [mem_preorderAll_iff] at h ⊢
    rcases h with h | ⟨m, hm, hbelow⟩
    · exact .inl (mem_mergeTexts_of_mem hn h)
    · have hbox : ∀ s, m ≠ .text s := by
        rintro s rfl
        simp [Node.children, preorderAll] at hbelow
      exact .inr ⟨m, mem_mergeTexts_of_mem hbox hm, hbelow⟩
  · exact h

namespace Engine.Reads

variable {e : Engine} {cs : List Construct} {ds : List Delimited} {levels : Nat}
  {before : Option Token} {ts : List Token} {ns : List Node}

/-! ### Nodes of a reading -/

theorem exists_forms_of_mem (he : e.matchers ⊆ cs.map Construct.matcher)
    (h : e.Reads levels before ts ns) {n : Node} (hn : n ∈ ns) (hleaf : n.isContainer = false)
    (htext : ∀ s, n ≠ .text s) : ∃ c ∈ cs, ∃ before' span rest, span ++ rest <:+ ts ∧
      c.Forms before' span rest n := by
  induction h with
  | done => cases hn
  | literal nothing next ih | refused first box next ih =>
    have htail := (List.mem_cons.mp hn).resolve_left (htext _)
    obtain ⟨c, hc, before', span, rest, hsuffix, hform⟩ := ih htail
    exact ⟨c, hc, before', span, rest, hsuffix.trans (List.suffix_cons _ _), hform⟩
  | leaf split first covers plain next ih =>
    subst split
    rcases List.mem_cons.mp hn with rfl | htail
    · obtain ⟨c, hc, -, hform⟩ := e.forms_of_first? he first covers
      exact ⟨c, hc, _, _, _, List.suffix_rfl, hform⟩
    · obtain ⟨c, hc, before', span, rest, hsuffix, hform⟩ := ih htail
      exact ⟨c, hc, before', span, rest, hsuffix.trans (List.suffix_append _ _), hform⟩
  | container split first covers nested next _ ihNext =>
    subst split
    rcases List.mem_cons.mp hn with rfl | htail
    · cases hleaf
    · obtain ⟨c, hc, before', span, rest, hsuffix, hform⟩ := ihNext htail
      exact ⟨c, hc, before', span, rest, hsuffix.trans (List.suffix_append _ _), hform⟩

/-- A container stands between its delimiters, and its children are the result of
reading its content one level deeper. -/
theorem exists_reads_of_mem (he : e.matchers ⊆ cs.map Construct.matcher) (hb : BoxedBy cs ds)
    (h : e.Reads levels before ts ns) {kind : ContainerKind} {content : List Token}
    {children : List Node} (hn : .container kind content children ∈ ns) :
    ∃ d ∈ ds, ∃ o cl, o :: (content ++ [cl]) <:+: ts ∧ d.closerRule.Closes content cl ∧
      ∃ levels' before' inner, levels = levels' + 1 ∧ e.Reads levels' before' content inner ∧
        children = e.finish inner := by
  induction h with
  | done => cases hn
  | literal nothing next ih | refused first box next ih =>
    have htail := (List.mem_cons.mp hn).resolve_left (by simp)
    obtain ⟨d, hd, o, cl, hslice, hrest⟩ := ih htail
    exact ⟨d, hd, o, cl, hslice.trans (List.suffix_cons _ _).isInfix, hrest⟩
  | leaf split first covers plain next ih =>
    subst split
    rcases List.mem_cons.mp hn with hnode | htail
    · rw [← hnode] at plain
      cases plain
    · obtain ⟨d, hd, o, cl, hslice, hrest⟩ := ih htail
      exact ⟨d, hd, o, cl, hslice.trans (List.suffix_append _ _).isInfix, hrest⟩
  | container split first covers nested next _ ihNext =>
    subst split
    rcases List.mem_cons.mp hn with hnode | htail
    · obtain ⟨rfl, rfl, rfl⟩ := Node.container.inj hnode
      obtain ⟨d, hd, o, cl, rfl, -, -, closes, -⟩ := container_of_first? he hb first covers
      exact ⟨d, hd, o, cl, (List.prefix_append _ _).isInfix, closes, _, _, _, rfl, nested, rfl⟩
    · obtain ⟨d, hd, o, cl, hslice, hrest⟩ := ihNext htail
      exact ⟨d, hd, o, cl, hslice.trans (List.suffix_append _ _).isInfix, hrest⟩

/-- **Every node stands on some level.** The induction is on the levels left; there are
always at least as many as constructs that can be closed. -/
theorem exists_level (he : e.matchers ⊆ cs.map Construct.matcher) (hb : BoxedBy cs ds) {n : Node}
    (h : e.Reads levels before ts ns) (hlevels : alive ds ts ≤ levels)
    (hn : n ∈ preorderAll (e.finish ns)) : ∃ levels' before' ts' ns',
      e.Reads levels' before' ts' ns' ∧ alive ds ts' ≤ levels' ∧ ts' <:+: ts ∧
        n ∈ e.finish ns' := by
  induction levels generalizing before ts ns with
  | zero =>
    rcases mem_preorderAll_iff.mp hn with hn | ⟨m, hm, hn⟩
    · exact ⟨_, _, _, _, h, hlevels, List.infix_rfl, hn⟩
    · cases m with
      | container kind content children =>
        have hread := mem_of_mem_finish (by simp) hm
        obtain ⟨-, -, -, -, -, -, _, -, -, hsucc, -⟩ := h.exists_reads_of_mem he hb hread
        cases hsucc
      | _ => simp [Node.children, preorderAll] at hn
  | succ levels ih =>
    rcases mem_preorderAll_iff.mp hn with hn | ⟨m, hm, hn⟩
    · exact ⟨_, _, _, _, h, hlevels, List.infix_rfl, hn⟩
    · cases m with
      | container kind content children =>
        have hread := mem_of_mem_finish (by simp) hm
        obtain ⟨d, hd, o, cl, hslice, closes, levels', before', inner, hsucc, hinner, rfl⟩ :=
          h.exists_reads_of_mem he hb hread
        obtain rfl := Nat.succ.inj hsucc
        have hcontent : content <:+: ts :=
          List.IsInfix.trans ⟨[o], [cl], by simp⟩ hslice
        have hless : alive ds content < alive ds ts :=
          alive_content_lt hd closes (hslice.subset (by simp)) hcontent.subset
        obtain ⟨levels', before', ts', ns', hreads, halive, hslice, hmem⟩ :=
          ih hinner (by omega) hn
        exact ⟨levels', before', ts', ns', hreads, halive, hslice.trans hcontent, hmem⟩
      | _ => simp [Node.children, preorderAll] at hn

/-! ### The end of a reading -/

theorem exists_suffix {front : List Node} (h : e.Reads levels before ts (front ++ ns)) :
    ∃ before' ts', e.Reads levels before' ts' ns ∧ ts' <:+ ts := by
  induction front generalizing before ts with
  | nil => exact ⟨before, ts, h, List.suffix_rfl⟩
  | cons n front ih =>
    cases h with
    | literal nothing next | refused first box next =>
      obtain ⟨before', ts', hreads, hsuffix⟩ := ih next
      exact ⟨before', ts', hreads, hsuffix.trans (List.suffix_cons _ _)⟩
    | leaf split first covers plain next =>
      subst split
      obtain ⟨before', ts', hreads, hsuffix⟩ := ih next
      exact ⟨before', ts', hreads, hsuffix.trans (List.suffix_append _ _)⟩
    | container split first covers nested next =>
      subst split
      obtain ⟨before', ts', hreads, hsuffix⟩ := ih next
      exact ⟨before', ts', hreads, hsuffix.trans (List.suffix_append _ _)⟩

end Engine.Reads

/-! ### Levels of a note -/

/-- Under the default settings every node of a note stands on a level that reads a slice
of its tokens; three constructs make containers, and there are 16 levels. -/
theorem ParsesTo.exists_level {source : String} {nodes : List Node} {n : Node}
    (h : ParsesTo source nodes) (hn : n ∈ preorderAll nodes) : ∃ levels before ts ns,
      standardEngine.Reads levels before ts ns ∧ alive boxes ts ≤ levels ∧
        ts <:+: tokenize source ∧ n ∈ mergeTexts ns := by
  obtain ⟨ns, hreads, rfl⟩ := parsesTo_iff_reads.mp h
  have halive : alive boxes (tokenize source) ≤ boxes.length := List.countP_le_length
  have hlevels : boxes.length ≤ 16 := by decide
  exact hreads.exists_level matchers_standardEngine boxedBy_builtIns (Nat.le_trans halive hlevels) hn

end InlineMarkup
