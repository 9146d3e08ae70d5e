/-
# Literal text is literal everywhere

A text of a parse stands for tokens at none of which a construct was found, whatever
follows them (`Engine.Silent`). Without what follows, none is found either: a shorter
rest closes nothing that was open, and a tag asks only for a token behind its mark
that goes on with the word (`Construct.recognise_eq_none_of_append`). The tokens of
the text by itself are of the same kinds. So it parses to itself, at the start of a
note and behind a word alike, but for a mark of a tag at its start, which had no word
before it.

Key definitions: `Engine.Silent`. Key theorems: `Engine.Reads.silent`,
`Engine.Silent.cut`, `parsesTo_of_silent`, `parse_literal`.
-/
import InlineMarkup.Proofs.Levels
import InlineMarkup.Proofs.Openers
import InlineMarkup.Proofs.Relabelling
import InlineMarkup.Proofs.Seams
import InlineMarkup.Proofs.StandardParse

namespace InlineMarkup

/-! ### What is found without what follows -/

/-- With more behind it a span is still found, and only that of a tag is longer. Before
it a word may start, unless it does not start with the mark of a tag. -/
theorem Construct.Forms.exists_longer {c : Construct} {before before' : Option Token}
    {span rest : List Token} {node : Node} (h : c.Forms before' span rest node)
    (hbefore : opensWord before' = true → opensWord before = true ∨ ∀ t ∈ span.head?, t.type ≠ .hash)
    (post : List Token) : ∃ span' rest' node', span ++ rest ++ post = span' ++ rest' ∧
      c.Forms before span' rest' node' := by
  cases h with
  | delimited opens filled closes edges =>
    exact ⟨_, rest ++ post, _, List.append_assoc .., .delimited opens filled closes edges⟩
  | link parts filled => exact ⟨span, rest ++ post, _, List.append_assoc .., .link parts filled⟩
  | image opens parts => exact ⟨_, rest ++ post, _, List.append_assoc .., .image opens parts⟩
  | @tag _ _ mark word _ opens starts filled goes stops =>
    have hhash : mark.type = .hash := Token.type_of_isMarker opens
    have hopens : opensWord before = true :=
      (hbefore starts).resolve_right fun hne => hne mark rfl hhash
    -- the word may go on in what follows
    obtain ⟨word', rest', hwords, hgoes, hstops⟩ :=
      exists_word (fun t => decide (t.type ∈ tagStops)) (word ++ rest ++ post)
    have hfilled : word' ≠ [] := by
      rintro rfl
      obtain ⟨t, word, rfl⟩ := List.exists_cons_of_ne_nil filled
      have hhead : t ∈ rest'.head? := by
        rw [← List.nil_append rest', ← hwords]
        rfl
      have hstop : t.type ∈ tagStops := of_decide_eq_true (hstops t hhead)
      exact goes t List.mem_cons_self hstop
    refine ⟨mark :: word', rest', _, congrArg (List.cons mark) hwords, .tag opens hopens hfilled ?_ ?_⟩
    · exact fun t ht => of_decide_eq_false (hgoes t ht)
    · exact fun t ht => of_decide_eq_true (hstops t ht)

/-- Where nothing is found, nothing is found without what follows, unless a tag is
found because a word may start there now. -/
theorem Construct.recognise_eq_none_of_append {c : Construct} {before before' : Option Token}
    {ts post : List Token} (h : c.matcher.recognise before (ts ++ post) = none)
    (hbefore : opensWord before' = true → opensWord before = true ∨ ∀ t ∈ ts.head?, t.type ≠ .hash) :
    c.matcher.recognise before' ts = none := by
  cases hfound : c.matcher.recognise before' ts with
  | none => rfl
  | some found =>
    obtain ⟨span, rest, rfl, hform, -⟩ := c.recognise_eq_some_iff.mp hfound
    obtain ⟨t, tail, rfl⟩ := List.exists_cons_of_ne_nil hform.ne_nil
    obtain ⟨span', rest', node', hsplit, hform'⟩ := hform.exists_longer hbefore post
    rw [hsplit, hform'.recognise] at h
    cases h

namespace Engine

variable {e : Engine}

/-! ### Silent tokens -/

/-- At none of the tokens between `before` and the ones that follow, anything is
found. -/
def Silent (e : Engine) : Option Token → List Token → List Token → Prop
  | _, [], _ => True
  | before, t :: mid, post => e.first? before (t :: (mid ++ post)) = none ∧ Silent e (some t) mid post

/-- Silent tokens are silent by their kinds and without what follows. Before them a
word may start only if it could before, or if they do not start with the mark of a
tag. -/
theorem Silent.cut (he : e.matchers ⊆ builtIns) : ∀ {before before' : Option Token}
    {mid mid' post : List Token}, e.Silent before mid post →
      mid'.map Token.kind = mid.map Token.kind →
      (opensWord before' = true → opensWord before = true ∨ ∀ t ∈ mid.head?, t.type ≠ .hash) →
      e.Silent before' mid' []
  | _, _, _, [], _, _, _, _ => trivial
  | _, _, [], _ :: _, _, _, hkinds, _ => by cases hkinds
  | before, before', t :: mid, t' :: mid', post, hsilent, hkinds, hbefore => by
    obtain ⟨hfirst, hnext⟩ := hsilent
    obtain ⟨hkind, hrest⟩ := List.cons.inj hkinds
    have htype : t'.type = t.type := Token.type_eq_of_kind hkind
    have hopens : opensWord (some t') = true → opensWord (some t) = true := by
      rw [opensWord, opensWord, htype]
      exact id
    refine ⟨?_, hnext.cut he hrest fun h => .inl (hopens h)⟩
    rw [List.append_nil]
    refine first?_eq_none_iff.mpr fun m hm => ?_
    have hnone := first?_eq_none_iff.mp hfirst m hm
    obtain ⟨c, hc, rfl⟩ := List.mem_map.mp (he hm)
    rw [← List.cons_append] at hnone
    have hcut : c.matcher.recognise before' (t :: mid) = none :=
      c.recognise_eq_none_of_append hnone hbefore
    exact c.recognise_eq_none_of_kinds (marked_of_mem hc) rfl hkinds hcut

theorem Silent.reads (levels : Nat) : ∀ {before : Option Token} {ts : List Token},
    e.Silent before ts [] → e.Reads levels before ts ((ts.map Token.value).map Node.text)
  | _, [], _ => .done
  | _, t :: ts, ⟨hfirst, hnext⟩ => by
    rw [List.append_nil] at hfirst
    exact .literal hfirst (hnext.reads levels)

/-! ### Texts of a reading -/

variable {cs : List Construct} {ds : List Delimited}

/-- The texts that a reading starts with stand for silent tokens, if a level is left
for all containers that can be closed. -/
theorem Reads.silent (he : e.matchers ⊆ cs.map Construct.matcher) (hb : BoxedBy cs ds)
    (hleaf : ∀ c ∈ cs, ∀ {before span rest node}, c.Forms before span rest node →
      ∀ s, node ≠ .text s) {levels : Nat} : ∀ {texts : List String} {before : Option Token}
    {ts : List Token} {back : List Node}, e.Reads levels before ts (texts.map Node.text ++ back) →
      alive ds ts ≤ levels →
      ∃ mid post, ts = mid ++ post ∧ mid.map Token.value = texts ∧ e.Silent before mid post
  | [], _, ts, _, _, _ => ⟨[], ts, rfl, rfl, trivial⟩
  | s :: texts, before, ts, back, h, halive => by
    rw [List.map_cons, List.cons_append] at h
    generalize hn : Node.text s = n at h
    cases h with
    | @literal _ _ t ts _ nothing next =>
      obtain rfl := Node.text.inj hn
      have hless : alive ds ts ≤ levels := (alive_le_of_subset (List.subset_cons_self t ts)).trans halive
      obtain ⟨mid, post, rfl, rfl, hsilent⟩ := next.silent he hb hleaf hless
      exact ⟨t :: mid, post, rfl, rfl, nothing, hsilent⟩
    | refused first box next =>
      -- no construct can be closed, so no container was found
      have hplain := plain_of_alive_eq_zero he hb (Nat.le_zero.mp halive) first
      rw [hplain] at box
      cases box
    | leaf split first covers plain next =>
      subst split
      obtain ⟨c, hc, -, hform⟩ := forms_of_first? he first covers
      exact absurd hn.symm (hleaf c hc hform s)
    | container => cases hn

end Engine

theorem ne_text_of_forms {c : Construct} (hc : c ∈ builtInConstructs) {before : Option Token}
    {span rest : List Token} {node : Node} (h : c.Forms before span rest node) (s : String) :
    node ≠ .text s := by
  cases h with
  | delimited =>
    rcases eq_of_delimited_mem hc with rfl | rfl | rfl | rfl | rfl | rfl <;>
      exact Node.noConfusion
  | link => exact Node.noConfusion
  | image => exact Node.noConfusion
  | tag => exact Node.noConfusion

/-! ### Silent notes -/

theorem parsesTo_of_silent {source : String} (hne : tokenize source ≠ [])
    (h : standardEngine.Silent none (tokenize source) []) : ParsesTo source [.text source] := by
  have htexts : (tokenize source).map Token.value ≠ [] := mt List.map_eq_nil_iff.mp hne
  refine parsesTo_iff_reads.mpr ⟨_, h.reads 16, ?_⟩
  have hmerge : mergeTexts (((tokenize source).map Token.value).map Node.text) =
      [.text (joinTokens (tokenize source))] := mergeTexts_texts htexts
  rw [hmerge, joinTokens_tokenize]

/-- The token of a word that only `x` is in. -/
def letterToken : Token where
  type := .text
  value := "x"
  offset := 0

/-- Behind an `x`, the tokens of a text stay as they are, unless it starts with a word,
which then goes on from the `x`. -/
theorem tokenize_behind_letter {s : String} {t : Token} {ts : List Token}
    (h : tokenize s = t :: ts) :
    tokenize ("x" ++ s) = if t.type = .text
      then letterToken.joined (t.shift 1) :: ts.map (Token.shift 1)
      else letterToken :: (t :: ts).map (Token.shift 1) := by
  have hletter : tokenize "x" = [] ++ [letterToken] := rfl
  have hbehind : (tokenize s).map (Token.shift "x".length) = t.shift 1 :: ts.map (Token.shift 1) := by
    rw [h]
    rfl
  split
  · rename_i htext
    refine tokenize_append_of_grown hletter hbehind (Token.not_apart_iff.mpr ⟨htext.symm, ?_⟩)
    decide
  · rename_i hother
    have hapart : MeetApart (tokenize "x") ((tokenize s).map (Token.shift "x".length)) := by
      rw [hletter, hbehind]
      refine .inr (.inr (.inl fun htypes => hother ?_))
      exact (Option.some.inj htypes).symm
    rw [tokenize_append_of_apart hapart, hletter, hbehind]
    rfl

/-! ### Texts by themselves -/

theorem parsesTo_behind_letter {before : Option Token} {mid post : List Token} {offset : Int}
    (hcut : IsCut offset mid) (hne : mid ≠ []) (h : standardEngine.Silent before mid post) :
    ParsesTo ("x" ++ joinTokens mid) [.text ("x" ++ joinTokens mid)] := by
  have he := matchers_standardEngine
  obtain ⟨t, ts, rfl⟩ := List.exists_cons_of_ne_nil hne
  have htokens := tokenize_behind_letter hcut.tokenize_joinTokens
  split at htokens
  · -- the word goes on, and the kinds are the same
    rename_i htext
    have htype : t.type = .text := htext
    have hhead : ∀ u ∈ (t :: ts).head?, u.type ≠ .hash := by
      intro u hu
      rw [← Option.some.inj hu, htype]
      decide
    refine parsesTo_of_silent (htokens ▸ List.cons_ne_nil _ _) ?_
    rw [htokens]
    refine h.cut he ?_ fun _ => .inr hhead
    rw [List.map_cons, List.map_cons, kinds_shift, kinds_shift, List.cons.injEq]
    refine ⟨?_, rfl⟩
    simp [Token.kind, Token.run, Token.joined, letterToken, htype, TokenType.isMarkup,
      TokenType.markChar?]
  · refine parsesTo_of_silent (htokens ▸ List.cons_ne_nil _ _) ?_
    rw [htokens]
    refine ⟨Engine.first?_of_not_markup he rfl none _, h.cut he ?_ fun hopens => ?_⟩
    · rw [kinds_shift, ← List.map_cons, kinds_shift]
    · cases hopens

theorem parsesTo_of_silent_slice {before : Option Token} {mid post : List Token} {offset : Int}
    (hcut : IsCut offset mid) (hne : mid ≠ []) (h : standardEngine.Silent before mid post)
    (hhash : (joinTokens mid).toList.head? ≠ some '#') :
    ParsesTo (joinTokens mid) [.text (joinTokens mid)] := by
  have hhead : ∀ t ∈ mid.head?, t.type ≠ .hash := by
    intro t ht htype
    have htypes := map_head?_charsOf hcut.wellFormed
    rw [ht, Option.map_some, htype] at htypes
    obtain ⟨c, hc, hchar⟩ := Option.map_eq_some_iff.mp htypes
    obtain rfl := (TokenType.ofChar_eq_iff rfl c).mp hchar
    rw [toList_joinTokens] at hhash
    exact hhash hc
  have htokens := hcut.tokenize_joinTokens
  refine parsesTo_of_silent (htokens ▸ mt List.map_eq_nil_iff.mp hne) ?_
  rw [htokens]
  exact h.cut matchers_standardEngine (kinds_shift _ _) fun _ => .inr hhead

theorem exists_silent_of_mem {source t : String} {nodes : List Node} (h : ParsesTo source nodes)
    (ht : .text t ∈ preorderAll nodes) : ∃ before mid post offset, IsCut offset mid ∧ mid ≠ [] ∧
      standardEngine.Silent before mid post ∧ t = joinTokens mid := by
  obtain ⟨levels, before, ts, ns, hlevel, halive, hslice, hmem⟩ := h.exists_level ht
  obtain ⟨front, texts, back, rfl, hne, rfl⟩ := exists_texts_of_mem hmem
  obtain ⟨before', ts', htexts, hsuffix⟩ := hlevel.exists_suffix
  have hless : alive boxes ts' ≤ levels := (alive_le_of_subset hsuffix.subset).trans halive
  obtain ⟨mid, post, rfl, rfl, hsilent⟩ :=
    htexts.silent matchers_standardEngine boxedBy_builtIns
      (fun c hc _ _ _ _ hform => ne_text_of_forms hc hform) hless
  have hmid : mid <:+: tokenize source :=
    ((List.prefix_append _ _).isInfix.trans hsuffix.isInfix).trans hslice
  obtain ⟨offset, hcut⟩ := (isCut_tokensFrom 0 source.toList).of_slice hmid
  exact ⟨before', mid, post, offset, hcut, mt List.map_eq_nil_iff.mpr hne, hsilent, rfl⟩

/-- **No construct is left inside literal text.** A text at any depth of a note, put
behind an `x`, parses to itself; and so it does alone, if it does not start with `#`. -/
theorem parse_literal (source : String) : ∃ nodes, ParsesTo source nodes ∧
    ∀ t, .text t ∈ preorderAll nodes → ParsesTo ("x" ++ t) [.text ("x" ++ t)] ∧
      (t.toList.head? ≠ some '#' → ParsesTo t [.text t]) := by
  obtain ⟨nodes, hparse⟩ := exists_parsesTo source
  refine ⟨nodes, hparse, fun t ht => ?_⟩
  obtain ⟨before, mid, post, offset, hcut, hne, hsilent, rfl⟩ := exists_silent_of_mem hparse ht
  exact ⟨parsesTo_behind_letter hcut hne hsilent, parsesTo_of_silent_slice hcut hne hsilent⟩

/-- The text inside bold text holds the openers of a link and of italic text. -/
theorem parse_literal_in_bold : ParsesTo ("x" ++ "[a*b") [.text ("x" ++ "[a*b")] ∧
    ParsesTo "[a*b" [.text "[a*b"] := by
  have hparse : ParsesTo "**[a*b**](c*" [.container .bold
      [⟨.leftBracket, "[", 2⟩, ⟨.text, "a", 3⟩, ⟨.asterisk, "*", 4⟩, ⟨.text, "b", 5⟩]
      [.text "[a*b"], .text "](c*"] := parsesTo_iff.mpr rfl
  obtain ⟨nodes, hnodes, htexts⟩ := parse_literal "**[a*b**](c*"
  obtain rfl := hnodes.unique hparse
  obtain ⟨hbehind, halone⟩ := htexts "[a*b" (by simp [preorderAll, Node.preorder])
  exact ⟨hbehind, halone (by decide)⟩

end InlineMarkup
