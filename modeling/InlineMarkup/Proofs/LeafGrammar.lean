/-
# The grammar of the leaves

What may stand in the fields of a code span, a highlight, a link of either kind, an
image or a tag is said on characters and can be decided (`Node.WellFormed`). Such a
node occurs in the parse of some note exactly if its fields are of this form, and
exactly if its markup parses to it (`leaf_tfae`). The fields of a node that occurs are
texts of tokens between delimiters (`Construct.Forms.wellFormed`); the other way, the
tokens of the markup are a span of the form of the construct
(`exists_forms_of_wellFormed`), and no other construct is found where it starts.

Key definitions: `IsAddress`, `IsWord`, `Node.WellFormed`, `leafClasses`.
Key theorems: `Construct.Forms.wellFormed`, `exists_forms_of_wellFormed`, `leaf_tfae`.
-/
import Mathlib.Tactic.TFAE
import InlineMarkup.Proofs.Delimiting
import InlineMarkup.Proofs.Levels
import InlineMarkup.Proofs.Openers
import InlineMarkup.Proofs.StandardParse
import InlineMarkup.NodeText

namespace InlineMarkup

/-! ### Fields -/

/-- The address of a link or of an image. -/
def IsAddress (cs : List Char) : Prop :=
  cs ≠ [] ∧ Between '(' ')' 1 cs ∧ NoSpace cs

/-- The word of a tag. -/
def IsWord (cs : List Char) : Prop :=
  cs ≠ [] ∧ OneLine cs ∧ NoSpace cs ∧ '#' ∉ cs

/-- The leaves whose fields can be parsed from their markup. -/
def Node.WellFormed : Node → Prop
  | .code content => content ≠ "" ∧ Between '\x60' '\x60' 1 content.toList
  | .highlight content => content ≠ "" ∧ Between '=' '=' 2 content.toList
  | .wikiLink target => target ≠ "" ∧ Between '[' ']' 2 target.toList
  | .link label url => label ≠ "" ∧ Between '[' ']' 1 label.toList ∧ IsAddress url.toList
  | .image alt url => Between '[' ']' 1 alt.toList ∧ IsAddress url.toList
  | .tag content => IsWord content.toList
  | _ => False

instance (cs : List Char) : Decidable (IsAddress cs) :=
  inferInstanceAs (Decidable (_ ∧ _))

instance (cs : List Char) : Decidable (IsWord cs) :=
  inferInstanceAs (Decidable (_ ∧ _))

instance : DecidablePred Node.WellFormed
  | .code _ => inferInstanceAs (Decidable (_ ∧ _))
  | .highlight _ => inferInstanceAs (Decidable (_ ∧ _))
  | .wikiLink _ => inferInstanceAs (Decidable (_ ∧ _))
  | .link _ _ => inferInstanceAs (Decidable (_ ∧ _))
  | .image _ _ => inferInstanceAs (Decidable (_ ∧ _))
  | .tag content => inferInstanceAs (Decidable (IsWord content.toList))
  | .bare => inferInstanceAs (Decidable False)
  | .text _ => inferInstanceAs (Decidable False)
  | .container _ _ _ => inferInstanceAs (Decidable False)

/-- The classes of the leaves that are no texts. -/
def leafClasses : List NodeClass :=
  [.code, .highlight, .wikiLink, .link, .image, .tag]

theorem charsOf_ne_nil {offset : Int} {ts : List Token} (h : IsCut offset ts) (hne : ts ≠ []) :
    charsOf ts ≠ [] := by
  obtain ⟨t, ts, rfl⟩ := List.exists_cons_of_ne_nil hne
  have hfilled := (h.wellFormed t List.mem_cons_self).filled
  exact fun hnil => hfilled (List.append_eq_nil_iff.mp hnil).1

theorem joinTokens_tokensFrom (offset : Nat) (cs : List Char) :
    joinTokens (tokensFrom offset cs) = String.ofList cs := by
  rw [joinTokens_eq, charsOf_tokensFrom]

theorem tokensFrom_ne_nil (offset : Nat) {cs : List Char} (hne : cs ≠ []) :
    tokensFrom offset cs ≠ [] := by
  intro hnil
  have hchars := charsOf_tokensFrom offset cs
  rw [hnil] at hchars
  exact hne hchars.symm

theorem goes_iff_chars {ts : List Token} (h : ∀ t ∈ ts, t.WellFormed) :
    (∀ t ∈ ts, t.type ∉ tagStops) ↔
      OneLine (charsOf ts) ∧ NoSpace (charsOf ts) ∧ '#' ∉ charsOf ts := by
  have hmark : TokenType.hash.markChar? = some '#' := rfl
  have hhash : '#' ∉ charsOf ts ↔ ∀ t ∈ ts, t.type ≠ .hash := by
    rw [forall_type_ne_iff h]
    simp only [ne_eq, TokenType.ofChar_eq_iff hmark]
    exact ⟨fun hnot c hc hx => hnot (hx ▸ hc), fun hall hmem => hall _ hmem rfl⟩
  rw [oneLine_iff, noSpace_iff, hhash, ← forall_type_ne_iff h, ← forall_type_ne_iff h]
  simp only [tagStops, List.mem_cons, List.not_mem_nil, or_false, not_or]
  constructor
  · intro hall
    exact ⟨fun t ht => (hall t ht).2.1, fun t ht => (hall t ht).1, fun t ht => (hall t ht).2.2⟩
  · rintro ⟨hline, hspace, hno⟩ t ht
    exact ⟨hspace t ht, hline t ht, hno t ht⟩

/-! ### Rules of the built-in constructs -/

theorem isFor_codeSpan : codeSpan.closerRule.IsFor '\x60' 1 :=
  ⟨rfl, rfl, by decide, rfl⟩

theorem isFor_highlight : highlight.closerRule.IsFor '=' 2 :=
  ⟨rfl, rfl, by decide, rfl⟩

theorem isFor_wikiLink : wikiLink.closerRule.IsFor ']' 2 :=
  ⟨rfl, rfl, by decide, rfl⟩

theorem isFor_labelRule : labelRule.IsFor ']' 1 :=
  ⟨rfl, rfl, by decide, rfl⟩

theorem isFor_addressRule : addressRule.IsFor ')' 1 :=
  ⟨rfl, rfl, by decide, rfl⟩

/-! ### From spans to fields -/

theorem field_of_closes {r : CloserRule} {x y : Char} {k : Nat} (hr : r.IsFor y k)
    {type : TokenType} (hx : type.markChar? = some x) {offset : Int} {o cl : Token} {run : Int}
    {content : List Token} (hcut : IsCut offset (o :: (content ++ [cl])))
    (opens : o.isMarker type run = true) (closes : r.Closes content cl) :
    (content ≠ [] → joinTokens content ≠ "") ∧ Between x y k (joinTokens content).toList ∧
      (r.allowSpace = false → NoSpace (joinTokens content).toList) := by
  have htype : o.type.markChar? = some x := by rw [Token.type_of_isMarker opens, hx]
  obtain ⟨hbetween, hspace⟩ := between_of_closes hr hcut htype closes
  rw [toList_joinTokens]
  refine ⟨fun hne hempty => ?_, hbetween, hspace⟩
  have hslice : content <:+: o :: (content ++ [cl]) := ⟨[o], [cl], by simp⟩
  obtain ⟨offset', hcontent⟩ := hcut.of_slice hslice
  have hchars := charsOf_ne_nil hcontent hne
  rw [← toList_joinTokens, hempty] at hchars
  exact hchars rfl

theorem fields_of_bracketed {span label url : List Token} (h : Bracketed span label url)
    {offset : Int} (hcut : IsCut offset span) : (label ≠ [] → joinTokens label ≠ "") ∧
      Between '[' ']' 1 (joinTokens label).toList ∧ IsAddress (joinTokens url).toList := by
  obtain ⟨opens, closes, turns, filled, ends⟩ := h
  rename_i lb rb lp rp
  have hlabel : lb :: (label ++ [rb]) <:+: lb :: (label ++ rb :: lp :: (url ++ [rp])) :=
    ⟨[], lp :: (url ++ [rp]), by simp⟩
  have hurl : lp :: (url ++ [rp]) <:+: lb :: (label ++ rb :: lp :: (url ++ [rp])) :=
    ⟨lb :: (label ++ [rb]), [], by simp⟩
  obtain ⟨_, hlabel⟩ := hcut.of_slice hlabel
  obtain ⟨_, hurl⟩ := hcut.of_slice hurl
  obtain ⟨hne, hbetween, -⟩ := field_of_closes isFor_labelRule rfl hlabel opens closes
  obtain ⟨hne', hbetween', hspace⟩ := field_of_closes isFor_addressRule rfl hurl turns ends
  have haddress : (joinTokens url).toList ≠ [] := mt String.toList_eq_nil_iff.mp (hne' filled)
  exact ⟨hne, hbetween, haddress, hbetween', hspace rfl⟩

/-- **The fields of a leaf that is made of tokens of a note are well formed.** -/
theorem Construct.Forms.wellFormed {c : Construct} (hc : c ∈ builtInConstructs)
    {before : Option Token} {span rest : List Token} {node : Node}
    (h : c.Forms before span rest node) (plain : node.isContainer = false) {offset : Int}
    (hcut : IsCut offset span) : node.WellFormed := by
  simp only [builtInConstructs, List.mem_cons, List.not_mem_nil, or_false] at hc
  rcases hc with rfl | rfl | rfl | rfl | rfl | rfl | rfl | rfl | rfl
  · cases h with
    | delimited opens filled closes =>
      obtain ⟨hne, hbetween, -⟩ := field_of_closes isFor_codeSpan rfl hcut opens closes
      exact ⟨hne filled, hbetween⟩
  · cases h with
    | image opens parts =>
      obtain ⟨-, -, -, hparts⟩ := isCut_cons.mp hcut
      exact (fields_of_bracketed parts hparts).2
  · cases h with
    | delimited opens filled closes =>
      obtain ⟨hne, hbetween, -⟩ := field_of_closes isFor_wikiLink rfl hcut opens closes
      exact ⟨hne filled, hbetween⟩
  · cases h with
    | link parts filled =>
      obtain ⟨hne, hlabel, hurl⟩ := fields_of_bracketed parts hcut
      exact ⟨hne filled, hlabel, hurl⟩
  · cases h with
    | delimited => cases plain
  · cases h with
    | delimited => cases plain
  · cases h with
    | delimited => cases plain
  · cases h with
    | delimited opens filled closes =>
      obtain ⟨hne, hbetween, -⟩ := field_of_closes isFor_highlight rfl hcut opens closes
      exact ⟨hne filled, hbetween⟩
  · cases h with
    | tag opens starts filled goes stops =>
      obtain ⟨-, -, -, hword⟩ := isCut_cons.mp hcut
      have hchars := (goes_iff_chars hword.wellFormed).mp goes
      rw [← toList_joinTokens] at hchars
      exact ⟨toList_joinTokens _ ▸ charsOf_ne_nil hword filled, hchars⟩

/-! ### From fields to spans -/

theorem forms_delimited {d : Delimited} {x y : Char} {k : Nat} (hr : d.closerRule.IsFor y k)
    (hx : d.marker.markChar? = some x) (hspace : d.allowSpace = true) {s : String} (hne : s ≠ "")
    (h : Between x y k s.toList) (hedges : d.EdgesFit (tokensFrom k s.toList)) :
    (Construct.delimited d).Forms none
      (tokenize (String.ofList (List.replicate k x) ++ s ++ String.ofList (List.replicate k y))) []
      (d.build (tokensFrom k s.toList)) := by
  have hchars : s.toList ≠ [] := mt String.toList_eq_nil_iff.mp hne
  have hany : d.closerRule.allowSpace = false → NoSpace s.toList := by
    intro hnot
    have hyes : d.closerRule.allowSpace = true := hspace
    rw [hyes] at hnot
    cases hnot
  obtain ⟨o, cl, offset', htokens, hopen, hclose⟩ :=
    tokensFrom_between hr hx h hany (.inl hchars) [] (by simp) 0
  have hsource : (String.ofList (List.replicate k x) ++ s ++ String.ofList (List.replicate k y)).toList =
      List.replicate k x ++ (s.toList ++ (List.replicate k y ++ [])) := by
    simp
  rw [Nat.zero_add] at htokens hclose
  rw [tokenize, hsource, htokens]
  refine .delimited ?_ (tokensFrom_ne_nil _ hchars) hclose hedges
  have hrun : d.run = k := hr.run
  rwa [hrun]

/-- Where spaces may touch the delimiters, the edges always fit. -/
theorem exists_forms_delimited {d : Delimited} {x y : Char} {k : Nat} (hr : d.closerRule.IsFor y k)
    (hx : d.marker.markChar? = some x) (hspace : d.allowSpace = true)
    (hedge : d.allowEdgeSpace = true) {s : String} (hne : s ≠ "") (h : Between x y k s.toList) :
    ∃ content, joinTokens content = s ∧ (Construct.delimited d).Forms none
      (tokenize (String.ofList (List.replicate k x) ++ s ++ String.ofList (List.replicate k y))) []
        (d.build content) := by
  have hjoin : joinTokens (tokensFrom k s.toList) = s := by
    rw [joinTokens_tokensFrom, String.ofList_toList]
  exact ⟨_, hjoin, forms_delimited hr hx hspace hne h (.inl hedge)⟩

theorem exists_bracketed {label url : String} (hlabel : Between '[' ']' 1 label.toList)
    (hurl : IsAddress url.toList) (offset : Nat) : ∃ lts uts,
      Bracketed (tokensFrom offset ("[" ++ label ++ "](" ++ url ++ ")").toList) lts uts ∧
      joinTokens lts = label ∧ joinTokens uts = url ∧ (label ≠ "" → lts ≠ []) := by
  obtain ⟨hfilled, hbetween, hspace⟩ := hurl
  have hbracket : TokenType.leftBracket.markChar? = some '[' := rfl
  have hparen : TokenType.leftParen.markChar? = some '(' := rfl
  have hback : ('(' :: (url.toList ++ [')'])).head? ≠ some ']' := by simp
  have hnil : ([] : List Char).head? ≠ some ')' := by simp
  have hany : labelRule.allowSpace = false → NoSpace label.toList := fun h => by cases h
  have hdistinct : label.toList ≠ [] ∨ ']' ≠ '[' := .inr (by decide)
  obtain ⟨lb, rb, place, hopen, hlb, hclosed⟩ :=
    tokensFrom_between isFor_labelRule hbracket hlabel hany hdistinct _ hback offset
  obtain ⟨lp, rp, place', hturn, hlp, hended⟩ := tokensFrom_between isFor_addressRule hparen
    hbetween (fun _ => hspace) (.inl hfilled) _ hnil place
  have hsource : ("[" ++ label ++ "](" ++ url ++ ")").toList =
      List.replicate 1 '[' ++ (label.toList ++ (List.replicate 1 ']' ++ ('(' :: (url.toList ++ [')'])))) := by
    simp
  have hspan : tokensFrom offset ("[" ++ label ++ "](" ++ url ++ ")").toList =
      lb :: (tokensFrom (offset + 1) label.toList ++
        rb :: lp :: (tokensFrom (place + 1) url.toList ++ [rp])) := by
    rw [hsource, hopen]
    exact congrArg (fun ts => lb :: (tokensFrom (offset + 1) label.toList ++ rb :: ts)) hturn
  refine ⟨tokensFrom (offset + 1) label.toList, tokensFrom (place + 1) url.toList, ?_, ?_, ?_, ?_⟩
  · rw [hspan]
    exact .intro hlb hclosed hlp (tokensFrom_ne_nil _ hfilled) hended
  · rw [joinTokens_tokensFrom, String.ofList_toList]
  · rw [joinTokens_tokensFrom, String.ofList_toList]
  · intro hne
    exact tokensFrom_ne_nil _ (mt String.toList_eq_nil_iff.mp hne)

theorem exists_forms_image {alt url : String} (halt : Between '[' ']' 1 alt.toList)
    (hurl : IsAddress url.toList) : (Construct.image "image").Forms none
      (tokenize ("![" ++ alt ++ "](" ++ url ++ ")")) [] (.image alt url) := by
  obtain ⟨lts, uts, parts, rfl, rfl, -⟩ := exists_bracketed halt hurl 1
  have hmark : TokenType.exclamation.markChar? = some '!' := rfl
  have hback : ("[" ++ joinTokens lts ++ "](" ++ joinTokens uts ++ ")").toList.head? ≠ some '!' := by
    simp
  have hsource : ("![" ++ joinTokens lts ++ "](" ++ joinTokens uts ++ ")").toList =
      List.replicate 1 '!' ++ ("[" ++ joinTokens lts ++ "](" ++ joinTokens uts ++ ")").toList := by
    simp
  rw [tokenize, hsource, tokensFrom_marker hmark 0 (by decide) hback]
  exact .image rfl parts

theorem exists_forms_tag {word : String} (h : IsWord word.toList) :
    (Construct.tag "tag").Forms none (tokenize ("#" ++ word)) [] (.tag word) := by
  obtain ⟨hfilled, hchars⟩ := h
  have hmark : TokenType.hash.markChar? = some '#' := rfl
  have hback : word.toList.head? ≠ some '#' := fun hhead => hchars.2.2 (List.mem_of_mem_head? hhead)
  have hsource : ("#" ++ word).toList = List.replicate 1 '#' ++ word.toList := by simp
  have hcut := isCut_tokensFrom 1 word.toList
  have hgoes := goes_iff_chars hcut.wellFormed
  rw [charsOf_tokensFrom] at hgoes
  have hform : (Construct.tag "tag").Forms none (⟨.hash, "#", (0 : Nat)⟩ :: tokensFrom 1 word.toList)
      [] (.tag (joinTokens (tokensFrom 1 word.toList))) :=
    .tag rfl rfl (tokensFrom_ne_nil _ hfilled) (hgoes.mpr hchars) (by simp)
  rw [joinTokens_tokensFrom, String.ofList_toList] at hform
  rw [tokenize, hsource, tokensFrom_marker hmark 0 (by decide) hback]
  exact hform

/-- **The markup of a well-formed leaf is a span of the form of its construct.** -/
theorem exists_forms_of_wellFormed {n : Node} (h : n.WellFormed) : ∃ source,
    n.markup = .ok source ∧ ∃ c ∈ builtInConstructs, c.Forms none (tokenize source) [] n := by
  cases n with
  | bare => cases h
  | text content => cases h
  | container kind content children => cases h
  | code content =>
    obtain ⟨ts, rfl, hform⟩ := exists_forms_delimited isFor_codeSpan rfl rfl rfl h.1 h.2
    exact ⟨_, rfl, .delimited codeSpan, by simp [builtInConstructs], hform⟩
  | highlight content =>
    obtain ⟨ts, rfl, hform⟩ := exists_forms_delimited isFor_highlight rfl rfl rfl h.1 h.2
    exact ⟨_, rfl, .delimited highlight, by simp [builtInConstructs], hform⟩
  | wikiLink target =>
    obtain ⟨ts, rfl, hform⟩ := exists_forms_delimited isFor_wikiLink rfl rfl rfl h.1 h.2
    exact ⟨_, rfl, .delimited wikiLink, by simp [builtInConstructs], hform⟩
  | link label url =>
    obtain ⟨hne, hlabel, hurl⟩ := h
    obtain ⟨lts, uts, parts, rfl, rfl, hlts⟩ := exists_bracketed hlabel hurl 0
    exact ⟨_, rfl, .link "link", by simp [builtInConstructs], .link parts (hlts hne)⟩
  | image alt url =>
    exact ⟨_, rfl, .image "image", by simp [builtInConstructs], exists_forms_image h.1 h.2⟩
  | tag content =>
    exact ⟨_, rfl, .tag "tag", by simp [builtInConstructs], exists_forms_tag h⟩

/-! ### The grammar -/

theorem plain_of_wellFormed {n : Node} (h : n.WellFormed) :
    n.isContainer = false ∧ mergeTexts [n] = [n] := by
  cases n with
  | bare => cases h
  | text => cases h
  | container => cases h
  | _ => exact ⟨rfl, rfl⟩

theorem plain_of_mem_leafClasses {n : Node} (h : n.cls ∈ leafClasses) :
    n.isContainer = false ∧ ∀ s, n ≠ .text s := by
  cases n with
  | text content => simp [Node.cls, leafClasses] at h
  | container kind content children =>
    cases kind <;> simp [Node.cls, ContainerKind.cls, leafClasses] at h
  | _ => exact ⟨rfl, fun s => Node.noConfusion⟩

theorem parsesTo_of_wellFormed {n : Node} (h : n.WellFormed) :
    ∃ source, n.markup = .ok source ∧ ParsesTo source [n] := by
  obtain ⟨source, hmarkup, c, hc, hform⟩ := exists_forms_of_wellFormed h
  obtain ⟨plain, hmerge⟩ := plain_of_wellFormed h
  have hm : c.matcher ∈ standardEngine.matchers := List.mem_map_of_mem hc
  have hreads := hform.reads matchers_standardEngine openers_builtIns.1 hc hm plain 16
  exact ⟨source, hmarkup, parsesTo_iff_reads.mpr ⟨[n], hreads, hmerge.symm⟩⟩

theorem wellFormed_of_mem {source : String} {nodes : List Node} {n : Node}
    (hparse : ParsesTo source nodes) (hn : n ∈ preorderAll nodes) (hclass : n.cls ∈ leafClasses) :
    n.WellFormed := by
  obtain ⟨plain, htext⟩ := plain_of_mem_leafClasses hclass
  obtain ⟨levels, before, ts, ns, hlevel, -, hslice, hmem⟩ := hparse.exists_level hn
  obtain ⟨c, hc, before', span, rest, hsuffix, hform⟩ := hlevel.exists_forms_of_mem
    matchers_standardEngine (mem_of_mem_mergeTexts htext hmem) plain htext
  have hspan : span <:+: tokenize source :=
    ((List.prefix_append span rest).isInfix.trans hsuffix.isInfix).trans hslice
  obtain ⟨offset, hcut⟩ := (isCut_tokensFrom 0 source.toList).of_slice hspan
  exact hform.wellFormed hc plain hcut

/-- **The grammar of the leaves.** A code span, highlight, link of either kind, image or
tag occurs at some depth of the parse of some note, if and only if its markup parses to
it and nothing else, if and only if its fields are well formed. -/
theorem leaf_tfae (n : Node) (hn : n.cls ∈ leafClasses) :
    [∃ source nodes, ParsesTo source nodes ∧ n ∈ preorderAll nodes,
      ∃ source, n.markup = .ok source ∧ ParsesTo source [n],
      n.WellFormed].TFAE := by
  tfae_have 1 → 3 := by
    rintro ⟨source, nodes, hparse, hmem⟩
    exact wellFormed_of_mem hparse hmem hn
  tfae_have 3 → 2 := parsesTo_of_wellFormed
  tfae_have 2 → 1 := by
    rintro ⟨source, -, hparse⟩
    exact ⟨source, [n], hparse, by cases n <;> simp [preorderAll, Node.preorder]⟩
  tfae_finish

/-- Two backticks inside a code span do not close it. -/
theorem leaf_tfae_code : (Node.code "a\x60\x60b").WellFormed ∧
    ∃ source nodes, ParsesTo source nodes ∧ .code "a\x60\x60b" ∈ preorderAll nodes := by
  have htfae := leaf_tfae (.code "a\x60\x60b") (by decide)
  have hparse : ∃ source, (Node.code "a\x60\x60b").markup = .ok source ∧
      ParsesTo source [.code "a\x60\x60b"] :=
    ⟨"\x60a\x60\x60b\x60", rfl, parsesTo_iff.mpr rfl⟩
  exact ⟨(htfae.out 1 2).mp hparse, (htfae.out 1 0).mp hparse⟩

example : ¬ (Node.wikiLink "a]]b").WellFormed ∧ (Node.wikiLink "a]b").WellFormed := by decide

end InlineMarkup
