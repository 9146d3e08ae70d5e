/-
# Parsing notes with built-in matchers

When all entries of the registry in use are built-in ones, a note is parsed by the
engine on tokens (`parseInline_eq`), and what it gives are nodes of the language.
Under the default settings that is the engine with all built-in matchers in their
order, with 16 levels and with texts merged (`parsesTo_iff`).

Key definitions: `standardEngine`, `ParsesTo`. Key theorems: `parseInline_eq`,
`exists_parseInline`, `parsesTo_iff`, `parsesTo_iff_reads`, `exists_parsesTo`.
-/
import InlineMarkup.Proofs.Reading
import InlineMarkup.Settings

namespace InlineMarkup

theorem exists_checked_of_mem {entry : Entry} (h : entry ∈ Entry.builtIns) :
    ∃ m ∈ builtIns, entry.checked = some m := by
  have hmem : entry.checked ∈ Entry.builtIns.map Entry.checked := List.mem_map_of_mem h
  rw [Entry.checked_builtIns] at hmem
  obtain ⟨m, hm, heq⟩ := List.mem_map.mp hmem
  exact ⟨m, hm, heq.symm⟩

theorem exists_matchers : ∀ {entries : List Entry}, entries ⊆ Entry.builtIns →
    ∃ ms, entries.mapM Entry.checked = some ms ∧ ms ⊆ builtIns
  | [], _ => ⟨[], rfl, List.nil_subset _⟩
  | entry :: entries, h => by
    obtain ⟨hentry, hentries⟩ := List.cons_subset.mp h
    obtain ⟨m, hm, hchecked⟩ := exists_checked_of_mem hentry
    obtain ⟨ms, hms, hsub⟩ := exists_matchers hentries
    refine ⟨m :: ms, ?_, List.cons_subset.mpr ⟨hm, hsub⟩⟩
    rw [List.mapM_cons, hchecked, hms]
    rfl

/-- The settings under which a note is parsed are its own, or else those in force. -/
theorem run_parseInline (source : String) (own : Option Settings) (ambient : Settings) :
    ((parseInline source own).run ambient).1 =
      parseWith (Parser.make {} (own.getD ambient)) (tokenize source) := by
  cases own <;> rfl

theorem parseInline_eq_of_checked {own : Option Settings} {ambient : Settings} {ms : List Matcher}
    (h : (own.getD ambient).registryInUse.checked? = some ms) (source : String) :
    ((parseInline source own).run ambient).1 =
      (Engine.parse ⟨ms, (own.getD ambient).maxDepth.levels, (own.getD ambient).coalesce.truthy⟩
        (tokenize source)).map Node.storedAll := by
  rw [run_parseInline]
  simp only [parseWith, Parser.make, Option.getD_none, Parser.ofRegistry, h, Parser.parse]

/-- A registry of built-in entries leads to an engine on tokens, which parses all
notes. -/
theorem parseInline_eq {own : Option Settings} {ambient : Settings}
    (h : (own.getD ambient).registryInUse.entries ⊆ Entry.builtIns) :
    ∃ e : Engine, e.matchers ⊆ builtIns ∧ e.limit = (own.getD ambient).maxDepth.levels ∧
      e.coalesce = (own.getD ambient).coalesce.truthy ∧
      ∀ source, ((parseInline source own).run ambient).1 =
        (e.parse (tokenize source)).map Node.storedAll := by
  obtain ⟨ms, hms, hsub⟩ := exists_matchers h
  exact ⟨⟨ms, (own.getD ambient).maxDepth.levels, (own.getD ambient).coalesce.truthy⟩,
    hsub, rfl, rfl, parseInline_eq_of_checked hms⟩

/-- What holds of the nodes of a note with built-in matchers, in whatever engine, holds of
them under any settings with a registry of built-in entries. -/
theorem exists_parseInline {source : String} {P : List Node → Prop}
    (hP : ∀ e : Engine, e.matchers ⊆ builtIns →
      ∃ nodes, (e.parse (tokenize source)).result = .ok nodes ∧ P nodes)
    {own : Option Settings} {ambient : Settings}
    (h : (own.getD ambient).registryInUse.entries ⊆ Entry.builtIns) :
    ∃ nodes, ((parseInline source own).run ambient).1.result = .ok (Node.storedAll nodes) ∧
      P nodes := by
  obtain ⟨e, he, -, -, hrun⟩ := parseInline_eq h
  obtain ⟨nodes, hparse, hnodes⟩ := hP e he
  refine ⟨nodes, ?_, hnodes⟩
  rw [hrun]
  exact Engine.result_map_of_ok _ hparse

/-! ### The default settings -/

/-- The engine that the default settings lead to. -/
def standardEngine : Engine where
  matchers := builtIns
  limit := 16
  coalesce := true

/-- Under the default settings a note parses to nodes. -/
def ParsesTo (source : String) (nodes : List Node) : Prop :=
  ((parseInline source).run {}).1.result = .ok (Node.storedAll nodes)

theorem storedAll_injective {ns ms : List Node} (h : Node.storedAll ns = Node.storedAll ms) :
    ns = ms := by
  have hn := Value.nodes?_storedAll ns
  rw [h, Value.nodes?_storedAll] at hn
  exact (Option.some.inj hn).symm

theorem parsesTo_iff {source : String} {nodes : List Node} :
    ParsesTo source nodes ↔ (standardEngine.parse (tokenize source)).result = .ok nodes := by
  have hrun : ((parseInline source).run {}).1 =
      (standardEngine.parse (tokenize source)).map Node.storedAll := rfl
  rw [ParsesTo, hrun, Outcome.map]
  cases (standardEngine.parse (tokenize source)).result with
  | error fault => simp [Except.map]
  | ok ns =>
    simp only [Except.map, Except.ok.injEq]
    exact ⟨storedAll_injective, fun h => by rw [h]⟩

theorem matchers_standardEngine : standardEngine.matchers ⊆ builtIns :=
  List.Subset.refl builtIns

theorem parsesTo_iff_reads {source : String} {nodes : List Node} : ParsesTo source nodes ↔
    ∃ ns, standardEngine.Reads 16 none (tokenize source) ns ∧ nodes = mergeTexts ns :=
  parsesTo_iff.trans (Engine.parse_eq_ok_iff matchers_standardEngine)

theorem exists_parsesTo (source : String) : ∃ nodes, ParsesTo source nodes := by
  obtain ⟨ns, hreads, -⟩ := Engine.exists_reads matchers_standardEngine 16 none (tokenize source)
  exact ⟨mergeTexts ns, parsesTo_iff_reads.mpr ⟨ns, hreads, rfl⟩⟩

theorem ParsesTo.unique {source : String} {nodes nodes' : List Node} (h : ParsesTo source nodes)
    (h' : ParsesTo source nodes') : nodes = nodes' :=
  Except.ok.inj ((parsesTo_iff.mp h).symm.trans (parsesTo_iff.mp h'))

end InlineMarkup
