/-
# Structure depends only on kinds

A substitution replaces every character by characters of its type: letters by words,
spaces by spaces, a line break by a line break, and markup by itself. It changes the
lengths of tokens that are no markup, and so the places of all, but neither where a note
is cut nor the kinds of its tokens (`tokenize_substitute`). So it goes through a parse:
the note after the substitution has the nodes of the note, with the substitution made in
all their texts and content tokens (`parse_substitute`).

Key definitions: `Substitution`, `Substitution.apply`, `Substitution.node`.
Key theorems: `Substitution.isCut_map`, `tokenize_substitute`, `exists_parse_substitute`,
`parse_substitute`.
-/
import InlineMarkup.Proofs.Relabelling
import InlineMarkup.Proofs.StandardParse

namespace InlineMarkup

/-! ### Substitutions -/

/-- A replacement of every character by characters of its type. -/
structure Substitution where
  image : Char → List Char
  text : ∀ c, TokenType.ofChar c = .text →
    image c ≠ [] ∧ ∀ d ∈ image c, TokenType.ofChar d = .text
  space : ∀ c, TokenType.ofChar c = .space →
    image c ≠ [] ∧ ∀ d ∈ image c, TokenType.ofChar d = .space
  newline : ∀ c, TokenType.ofChar c = .newline →
    ∃ d, image c = [d] ∧ TokenType.ofChar d = .newline
  markup : ∀ c, (TokenType.ofChar c).isMarkup = true → image c = [c]

theorem TokenType.eq_or_isMarkup (type : TokenType) :
    type = .text ∨ type = .space ∨ type = .newline ∨ type.isMarkup = true := by
  cases type <;> simp [isMarkup, markChar?]

namespace Substitution

variable (σ : Substitution)

theorem image_spec (c : Char) :
    σ.image c ≠ [] ∧ ∀ d ∈ σ.image c, TokenType.ofChar d = TokenType.ofChar c := by
  rcases (TokenType.ofChar c).eq_or_isMarkup with h | h | h | h
  · rw [h]
    exact σ.text c h
  · rw [h]
    exact σ.space c h
  · obtain ⟨d, hd, htype⟩ := σ.newline c h
    simp [hd, htype, h]
  · simp [σ.markup c h]

/-- The characters after the substitution. -/
def chars (cs : List Char) : List Char :=
  cs.flatMap σ.image

/-- A text after the substitution. -/
def apply (s : String) : String :=
  String.ofList (σ.chars s.toList)

theorem toList_apply (s : String) : (σ.apply s).toList = σ.chars s.toList :=
  String.toList_ofList

theorem chars_append (cs ds : List Char) : σ.chars (cs ++ ds) = σ.chars cs ++ σ.chars ds :=
  List.flatMap_append

theorem chars_ne_nil {cs : List Char} (h : cs ≠ []) : σ.chars cs ≠ [] := by
  obtain ⟨c, cs, rfl⟩ := List.exists_cons_of_ne_nil h
  exact fun hnil => (σ.image_spec c).1 (List.append_eq_nil_iff.mp hnil).1

theorem chars_of_markup {cs : List Char}
    (h : ∀ c ∈ cs, (TokenType.ofChar c).isMarkup = true) : σ.chars cs = cs := by
  have himage : ∀ c ∈ cs, σ.image c = [c] := fun c hc => σ.markup c (h c hc)
  rw [chars, List.flatMap_congr himage, List.flatMap_singleton']

/-- The change of a substitution in texts and tokens, with the offsets changed by `move`. -/
def relabelling (move : Int → Int) : Relabelling where
  text := σ.apply
  token t := { t with value := σ.apply t.value, offset := move t.offset }
  text_empty := rfl
  text_append s s' := by rw [apply, String.toList_append, chars_append, String.ofList_append]; rfl
  type_token _ := rfl
  value_token _ := rfl

/-- A node with the substitution made in its texts and content tokens, at every depth.
The tokens keep their offsets. -/
def node : Node → Node :=
  (σ.relabelling id).node

/-! ### Tokens after a substitution -/

section Tokens

variable (move : Int → Int)

theorem wellFormed_token {t : Token} (h : t.WellFormed) :
    ((σ.relabelling move).token t).WellFormed := by
  have hvalue : ((σ.relabelling move).token t).value.toList = σ.chars t.value.toList :=
    σ.toList_apply t.value
  refine ⟨?_, fun d hd => ?_, fun hline => ?_⟩
  · rw [hvalue]
    exact σ.chars_ne_nil h.filled
  · rw [hvalue] at hd
    obtain ⟨c, hc, hd⟩ := List.mem_flatMap.mp hd
    exact ((σ.image_spec c).2 d hd).trans (h.chars c hc)
  · -- the line break is one character, and so is its image
    have hone := h.line hline
    rw [Token.length_eq] at hone
    obtain ⟨c, hc⟩ := List.length_eq_one_iff.mp hone
    have htype : TokenType.ofChar c = .newline := (h.chars c (by simp [hc])).trans hline
    obtain ⟨d, hd, -⟩ := σ.newline c htype
    rw [Token.length_eq, hvalue, hc, chars, List.flatMap_singleton, hd, List.length_singleton]

theorem kind_token {t : Token} (h : t.WellFormed) :
    ((σ.relabelling move).token t).kind = t.kind := by
  have htype := (σ.relabelling move).type_token t
  by_cases hm : t.type.isMarkup = true
  · have hchars : ∀ c ∈ t.value.toList, (TokenType.ofChar c).isMarkup = true := fun c hc => by
      rw [h.chars c hc, hm]
    have hvalue : ((σ.relabelling move).token t).value = t.value := by
      rw [Relabelling.value_token]
      exact (congrArg String.ofList (σ.chars_of_markup hchars)).trans String.ofList_toList
    rw [Token.kind, Token.kind, Token.run, Token.run, Token.length, Token.length, htype, hvalue]
  · rw [Token.kind, Token.kind, Token.run, Token.run, htype, if_neg hm, if_neg hm]

theorem charsOf_map (ts : List Token) :
    charsOf (ts.map (σ.relabelling move).token) = σ.chars (charsOf ts) := by
  induction ts with
  | nil => rfl
  | cons t ts ih =>
    rw [List.map_cons, charsOf_cons, charsOf_cons, chars_append, ih]
    exact congrArg (· ++ _) (σ.toList_apply t.value)

end Tokens

/-- Where a place in a text comes to be. -/
def moved (cs : List Char) (offset : Int) : Int :=
  (σ.chars (cs.take offset.toNat)).length

/-- Tokens stay one behind the other. The induction is on the tokens, with the characters
`front` before them. -/
theorem located_map : ∀ (front : List Char) (ts : List Token), Located front.length ts →
    Located (σ.chars front).length (ts.map (σ.relabelling (σ.moved (front ++ charsOf ts))).token)
  | _, [], _ => trivial
  | front, t :: ts, ⟨hoffset, hrest⟩ => by
    have hmoved : σ.moved (front ++ charsOf (t :: ts)) t.offset = (σ.chars front).length := by
      rw [moved, hoffset, Int.toNat_natCast, List.take_left]
    have hvalue : (σ.apply t.value).length = (σ.chars t.value.toList).length := by
      rw [← String.length_toList, toList_apply]
    have hnext : Located (front ++ t.value.toList).length ts := by
      rw [List.length_append, Int.natCast_add, ← Token.length_eq]
      exact hrest
    have ih := located_map (front ++ t.value.toList) ts hnext
    rw [chars_append, List.length_append, Int.natCast_add, List.append_assoc, ← hvalue] at ih
    exact ⟨hmoved, ih⟩

/-- **The tokens of a text are cut as before.** -/
theorem isCut_map {ts : List Token} (h : IsCut 0 ts) :
    IsCut 0 (ts.map (σ.relabelling (σ.moved (charsOf ts))).token) where
  wellFormed := by
    intro u hu
    obtain ⟨t, ht, rfl⟩ := List.mem_map.mp hu
    exact σ.wellFormed_token _ (h.wellFormed t ht)
  apart := (List.isChain_map _).mpr h.apart
  located := σ.located_map [] ts h.located

end Substitution

/-- **A substitution changes the tokens of a note one by one.** -/
theorem tokenize_substitute (σ : Substitution) (source : String) :
    tokenize (σ.apply source) =
      (tokenize source).map (σ.relabelling (σ.moved source.toList)).token := by
  have hchars : charsOf (tokenize source) = source.toList := charsOf_tokensFrom 0 source.toList
  have hcut := σ.isCut_map (isCut_tokensFrom 0 source.toList)
  rw [charsOf_tokensFrom] at hcut
  refine tokensFrom_eq_iff.mpr ⟨?_, hcut⟩
  rw [σ.charsOf_map, hchars, σ.toList_apply]

/-! ### Nodes after a substitution -/

theorem sameTokens_map {f g : Token → Token} (h : ∀ t, (f t).same (g t) = true) (ts : List Token) :
    sameTokens (ts.map f) (ts.map g) = true := by
  induction ts with
  | nil => rfl
  | cons t ts ih =>
    rw [List.map_cons, List.map_cons, sameTokens, h t, ih]
    rfl

mutual

theorem Node.same_relabel (f : String → String) {g g' : Token → Token}
    (h : ∀ t, (g t).same (g' t) = true) : ∀ n : Node,
    Node.same (n.relabel f g) (n.relabel f g') = true
  | .bare => rfl
  | .text s | .code s | .wikiLink s | .highlight s | .tag s => beq_self_eq_true (f s)
  | .image s s' | .link s s' => by
    simp only [Node.relabel, Node.same, beq_self_eq_true, Bool.and_self]
  | .container kind content children => by
    rw [Node.relabel, Node.relabel, Node.same, beq_self_eq_true, sameTokens_map h,
      Node.sameAll_relabel f h children]
    rfl

theorem Node.sameAll_relabel (f : String → String) {g g' : Token → Token}
    (h : ∀ t, (g t).same (g' t) = true) : ∀ ns : List Node,
    Node.sameAll (Node.relabelAll f g ns) (Node.relabelAll f g' ns) = true
  | [] => rfl
  | n :: ns => by
    rw [Node.relabelAll, Node.relabelAll, Node.sameAll, Node.same_relabel f h n,
      Node.sameAll_relabel f h ns]
    rfl

end

theorem Substitution.sameAll_map (σ : Substitution) (move : Int → Int) (ns : List Node) :
    Node.sameAll (ns.map (σ.relabelling move).node) (ns.map σ.node) = true := by
  have hsame : ∀ t, ((σ.relabelling move).token t).same ((σ.relabelling id).token t) = true := by
    intro t
    simp [relabelling, Token.same]
  have hall := Node.sameAll_relabel σ.apply hsame ns
  rw [Node.relabelAll_eq_map, Node.relabelAll_eq_map] at hall
  exact hall

theorem exists_parse_substitute (σ : Substitution) {e : Engine} (he : e.matchers ⊆ builtIns)
    (source : String) : ∃ nodes nodes', (e.parse (tokenize source)).result = .ok nodes ∧
      (e.parse (tokenize (σ.apply source))).result = .ok nodes' ∧
      Node.sameAll nodes' (nodes.map σ.node) = true := by
  obtain ⟨ns, hreads, hparse⟩ := Engine.exists_reads he e.limit none (tokenize source)
  have hkinds : ∀ t ∈ tokenize source,
      ((σ.relabelling (σ.moved source.toList)).token t).kind = t.kind := fun t ht =>
    σ.kind_token _ ((isCut_tokensFrom 0 source.toList).wellFormed t ht)
  have hreads' := hreads.relabel (σ.relabelling (σ.moved source.toList)) he rfl hkinds
  rw [← tokenize_substitute] at hreads'
  have hparse' := (Engine.parse_eq_ok_iff he).mpr ⟨_, hreads', rfl⟩
  rw [Relabelling.finish_map] at hparse'
  exact ⟨e.finish ns, _, hparse, hparse', σ.sameAll_map _ _⟩

/-- **Structure depends only on kinds.** A note after a substitution parses to the nodes that it
parses to before, with the substitution made in all their texts and content tokens. -/
theorem parse_substitute (σ : Substitution) :
    (∀ e : Engine, e.matchers ⊆ builtIns → ∀ source : String,
      ∃ nodes nodes', (e.parse (tokenize source)).result = .ok nodes ∧
        (e.parse (tokenize (σ.apply source))).result = .ok nodes' ∧
        Node.sameAll nodes' (nodes.map σ.node) = true) ∧
    ∀ (own : Option Settings) (ambient : Settings),
      (own.getD ambient).registryInUse.entries ⊆ Entry.builtIns → ∀ source : String,
      ∃ nodes nodes', ((parseInline source own).run ambient).1.result = .ok (Node.storedAll nodes) ∧
        ((parseInline (σ.apply source) own).run ambient).1.result = .ok (Node.storedAll nodes') ∧
        Node.sameAll nodes' (nodes.map σ.node) = true := by
  refine ⟨fun e he source => exists_parse_substitute σ he source, fun own ambient h source => ?_⟩
  obtain ⟨e, he, -, -, hrun⟩ := parseInline_eq h
  obtain ⟨nodes, nodes', hparse, hparse', hsame⟩ := exists_parse_substitute σ he source
  refine ⟨nodes, nodes', ?_, ?_, hsame⟩
  · rw [hrun]
    exact Engine.result_map_of_ok _ hparse
  · rw [hrun]
    exact Engine.result_map_of_ok _ hparse'

/-- Letters are written twice, spaces as a tab and a blank, and line breaks as `\r`. -/
def doubling : Substitution where
  image c :=
    match TokenType.ofChar c with
    | .text => [c, c]
    | .space => ['\t', ' ']
    | .newline => ['\r']
    | _ => [c]
  text c h := by simp [h]
  space c h := by
    have hspaces : ∀ d ∈ ['\t', ' '], TokenType.ofChar d = .space := by
      simp only [List.forall_mem_cons]
      exact ⟨rfl, rfl, fun _ hd => absurd hd List.not_mem_nil⟩
    rw [h]
    exact ⟨List.cons_ne_nil _ _, hspaces⟩
  newline c h := by
    rw [h]
    exact ⟨'\r', rfl, rfl⟩
  markup c h := by
    cases htype : TokenType.ofChar c with
    | text => simp [htype, TokenType.isMarkup, TokenType.markChar?] at h
    | space => simp [htype, TokenType.isMarkup, TokenType.markChar?] at h
    | newline => simp [htype, TokenType.isMarkup, TokenType.markChar?] at h
    | _ => rfl

/-- A note with letters doubled, with the matchers in reverse order and with the default
settings. -/
theorem parse_substitute_doubling :
    doubling.apply "**a #b**\n" = "**aa\t #bb**\r" ∧
    (∃ nodes nodes',
      (Engine.parse ⟨builtIns.reverse, 1, false⟩ (tokenize "**a #b**\n")).result = .ok nodes ∧
      (Engine.parse ⟨builtIns.reverse, 1, false⟩ (tokenize (doubling.apply "**a #b**\n"))).result =
        .ok nodes' ∧
      Node.sameAll nodes' (nodes.map doubling.node) = true) ∧
    ∃ nodes nodes', ((parseInline "[a b](c)").run {}).1.result = .ok (Node.storedAll nodes) ∧
      ((parseInline (doubling.apply "[a b](c)")).run {}).1.result = .ok (Node.storedAll nodes') ∧
      Node.sameAll nodes' (nodes.map doubling.node) = true := by
  obtain ⟨hengine, hsettings⟩ := parse_substitute doubling
  refine ⟨by decide, ?_, hsettings none {} (List.Subset.refl _) "[a b](c)"⟩
  exact hengine ⟨builtIns.reverse, 1, false⟩ (fun m hm => List.mem_reverse.mp hm) "**a #b**\n"

end InlineMarkup
