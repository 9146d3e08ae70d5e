/-
# Kinds decide what is recognised

The built-in constructs look at the types of tokens and at the run lengths of the
markup tokens, and at nothing else. So tokens of the same kinds are read alike
(`Construct.Forms.of_kinds`), and a change of texts and tokens that keeps the kinds
goes through a parse: it makes no difference whether it is made before or behind
(`Engine.Reads.relabel`). Moving all tokens to another place is such a change.

Key definitions: `Construct.Marked`, `Node.relabel`, `Relabelling`, `Node.shift`.
Key theorems: `Construct.Forms.of_kinds`, `Engine.first?_relabel`,
`Engine.Reads.relabel`.
-/
import InlineMarkup.Proofs.Merging
import InlineMarkup.Proofs.Nesting
import InlineMarkup.Proofs.Tokenization

namespace InlineMarkup

/-! ### Tokens of the same kind -/

namespace Token

variable {t u : Token}

theorem type_eq_of_kind (h : t.kind = u.kind) : t.type = u.type :=
  (Prod.mk.inj h).1

theorem length_eq_of_kind (h : t.kind = u.kind) (hm : t.type.isMarkup = true) :
    t.length = u.length := by
  have hrun : t.run = u.run := (Prod.mk.inj h).2
  rwa [run, run, ← type_eq_of_kind h, if_pos hm, if_pos hm] at hrun

theorem isMarker_eq_of_kind (h : t.kind = u.kind) {type : TokenType} (hm : type.isMarkup = true)
    (run : Int) : t.isMarker type run = u.isMarker type run := by
  have htype := type_eq_of_kind h
  rw [isMarker, isMarker, htype]
  by_cases hu : u.type = type
  · have hlen := length_eq_of_kind h (by rw [htype, hu, hm])
    rw [hlen]
  · have hother : (u.type == type) = false := beq_eq_false_iff_ne.mpr hu
    rw [hother, Bool.false_and, Bool.false_and]

end Token

namespace CloserRule

variable {r : CloserRule} {t u : Token}

theorem accepts_eq_of_kind (hr : r.closer.isMarkup = true) (h : t.kind = u.kind) :
    r.accepts t = r.accepts u :=
  Token.isMarker_eq_of_kind h hr r.run

theorem passes_eq_of_kind (hr : r.closer.isMarkup = true) (h : t.kind = u.kind) :
    r.passes t = r.passes u := by
  rw [passes, passes, accepts_eq_of_kind hr h, forbids, forbids, Token.type_eq_of_kind h]

theorem Closes.of_kinds (hr : r.closer.isMarkup = true) {content content' : List Token}
    (h : r.Closes content t) (hcontent : content'.map Token.kind = content.map Token.kind)
    (ht : u.kind = t.kind) : r.Closes content' u := by
  refine ⟨fun a ha => ?_, (accepts_eq_of_kind hr ht).trans h.2⟩
  have hmem : a.kind ∈ content.map Token.kind := hcontent ▸ List.mem_map_of_mem ha
  obtain ⟨b, hb, hkind⟩ := List.mem_map.mp hmem
  rw [← passes_eq_of_kind hr hkind]
  exact h.1 b hb

end CloserRule

/-! ### Spans of the same kinds -/

/-- The delimiters of a construct are of markup types. -/
def Construct.Marked : Construct → Prop
  | .delimited d => d.marker.isMarkup = true ∧ d.closerRule.closer.isMarkup = true
  | _ => True

theorem marked_of_mem {c : Construct} (h : c ∈ builtInConstructs) : c.Marked := by
  cases c with
  | delimited d =>
    rcases eq_of_delimited_mem h with rfl | rfl | rfl | rfl | rfl | rfl <;> exact ⟨rfl, rfl⟩
  | image => trivial
  | link => trivial
  | tag => trivial

theorem ne_nil_of_kinds {ts us : List Token} (h : us.map Token.kind = ts.map Token.kind)
    (hne : ts ≠ []) : us ≠ [] := by
  rintro rfl
  exact hne (List.map_eq_nil_iff.mp h.symm)

theorem types_of_kinds {ts us : List Token} (h : us.map Token.kind = ts.map Token.kind) :
    us.map Token.type = ts.map Token.type := by
  have htypes := congrArg (List.map Prod.fst) h
  rwa [List.map_map, List.map_map] at htypes

theorem Delimited.EdgesFit.of_kinds {d : Delimited} {content content' : List Token}
    (h : d.EdgesFit content) (hk : content'.map Token.kind = content.map Token.kind) :
    d.EdgesFit content' := by
  have htypes := types_of_kinds hk
  refine h.imp id fun ⟨hhead, hlast⟩ => ⟨fun t ht hspace => ?_, fun t ht hspace => ?_⟩
  · have hfirst : content.head?.map Token.type = some .space := by
      rw [← List.head?_map, ← htypes, List.head?_map, ht, Option.map_some, hspace]
    obtain ⟨u, hu, hus⟩ := Option.map_eq_some_iff.mp hfirst
    exact hhead u hu hus
  · have hend : content.getLast?.map Token.type = some .space := by
      rw [← List.getLast?_map, ← htypes, List.getLast?_map, ht, Option.map_some, hspace]
    obtain ⟨u, hu, hus⟩ := Option.map_eq_some_iff.mp hend
    exact hlast u hu hus

theorem exists_parts_of_kinds {o c : Token} {content span : List Token}
    (h : span.map Token.kind = (o :: (content ++ [c])).map Token.kind) : ∃ o' content' c',
      span = o' :: (content' ++ [c']) ∧ o'.kind = o.kind ∧
        content'.map Token.kind = content.map Token.kind ∧ c'.kind = c.kind := by
  obtain ⟨o', after, rfl, ho, hafter⟩ := List.map_eq_cons_iff.mp h
  rw [List.map_append] at hafter
  obtain ⟨content', last, rfl, hcontent, hlast⟩ := List.map_eq_append_iff.mp hafter
  obtain ⟨c', rest, rfl, hc, hrest⟩ := List.map_eq_cons_iff.mp hlast
  obtain rfl := List.map_eq_nil_iff.mp hrest
  exact ⟨o', content', c', rfl, ho, hcontent, hc⟩

theorem Bracketed.of_kinds {span span' label url : List Token} (h : Bracketed span label url)
    (hk : span'.map Token.kind = span.map Token.kind) : ∃ label' url', Bracketed span' label' url' ∧
      label'.map Token.kind = label.map Token.kind := by
  obtain ⟨opens, closes, turns, filled, ends⟩ := h
  obtain ⟨lb, after, rfl, hlb, hafter⟩ := List.map_eq_cons_iff.mp hk
  rw [List.map_append] at hafter
  obtain ⟨label', tail, rfl, hlabel, htail⟩ := List.map_eq_append_iff.mp hafter
  obtain ⟨rb, address, rfl, hrb, haddress⟩ := List.map_eq_cons_iff.mp htail
  obtain ⟨lp, url', rp, rfl, hlp, hurl, hrp⟩ := exists_parts_of_kinds haddress
  refine ⟨label', url', .intro ?_ ?_ ?_ ?_ ?_, hlabel⟩
  · rwa [Token.isMarker_eq_of_kind hlb rfl]
  · exact closes.of_kinds rfl hlabel hrb
  · rwa [Token.isMarker_eq_of_kind hlp rfl]
  · exact ne_nil_of_kinds hurl filled
  · exact ends.of_kinds rfl hurl hrp

/-- **A span of the form of a construct is one by the kinds of its tokens.** -/
theorem Construct.Forms.of_kinds {c : Construct} (hc : c.Marked) {before before' : Option Token}
    {span span' rest rest' : List Token} {node : Node} (h : c.Forms before span rest node)
    (hbefore : opensWord before' = opensWord before)
    (hspan : span'.map Token.kind = span.map Token.kind)
    (hrest : rest'.map Token.kind = rest.map Token.kind) :
    ∃ node', c.Forms before' span' rest' node' := by
  cases h with
  | delimited opens filled closes edges =>
    obtain ⟨o', content', c', rfl, ho, hcontent, hcl⟩ := exists_parts_of_kinds hspan
    refine ⟨_, .delimited ?_ ?_ ?_ ?_⟩
    · rwa [Token.isMarker_eq_of_kind ho hc.1]
    · exact ne_nil_of_kinds hcontent filled
    · exact closes.of_kinds hc.2 hcontent hcl
    · exact edges.of_kinds hcontent
  | link parts filled =>
    obtain ⟨label', url', parts', hlabel⟩ := parts.of_kinds hspan
    exact ⟨_, .link parts' (ne_nil_of_kinds hlabel filled)⟩
  | image opens parts =>
    obtain ⟨mark', span', rfl, hmark, hspan⟩ := List.map_eq_cons_iff.mp hspan
    obtain ⟨label', url', parts', -⟩ := parts.of_kinds hspan
    exact ⟨_, .image (by rwa [Token.isMarker_eq_of_kind hmark rfl]) parts'⟩
  | tag opens starts filled goes stops =>
    obtain ⟨mark', word', rfl, hmark, hword⟩ := List.map_eq_cons_iff.mp hspan
    have htypes := types_of_kinds hword
    have hnext : rest'.head?.map Token.type = rest.head?.map Token.type := by
      rw [← List.head?_map, ← List.head?_map, types_of_kinds hrest]
    refine ⟨_, .tag ?_ (hbefore.trans starts) (ne_nil_of_kinds hword filled) ?_ ?_⟩
    · rwa [Token.isMarker_eq_of_kind hmark rfl]
    · intro t ht
      have hmem : t.type ∈ word'.map Token.type := List.mem_map_of_mem ht
      rw [htypes] at hmem
      obtain ⟨u, hu, hut⟩ := List.mem_map.mp hmem
      rw [← hut]
      exact goes u hu
    · intro t ht
      rw [ht, Option.map_some] at hnext
      obtain ⟨u, hu, hut⟩ := Option.map_eq_some_iff.mp hnext.symm
      rw [← hut]
      exact stops u hu

theorem Construct.recognise_eq_none_of_kinds {c : Construct} (hc : c.Marked)
    {before before' : Option Token} {ts us : List Token}
    (hbefore : opensWord before' = opensWord before)
    (hk : us.map Token.kind = ts.map Token.kind) (h : c.matcher.recognise before ts = none) :
    c.matcher.recognise before' us = none := by
  refine Option.eq_none_iff_forall_ne_some.mpr fun found hfound => ?_
  obtain ⟨span, rest, rfl, hform, -⟩ := c.recognise_eq_some_iff.mp hfound
  rw [List.map_append] at hk
  obtain ⟨span', rest', rfl, hspan, hrest⟩ := List.map_eq_append_iff.mp hk.symm
  obtain ⟨node, hform'⟩ := hform.of_kinds hc hbefore.symm hspan hrest
  have hsome := hform'.recognise
  rw [h] at hsome
  cases hsome

/-! ### Changes of texts and tokens -/

mutual

/-- A node with its texts changed by `f` and its content tokens by `g`, at every
depth. -/
def Node.relabel (f : String → String) (g : Token → Token) : Node → Node
  | .bare => .bare
  | .text content => .text (f content)
  | .code content => .code (f content)
  | .image alt url => .image (f alt) (f url)
  | .link label url => .link (f label) (f url)
  | .wikiLink target => .wikiLink (f target)
  | .highlight content => .highlight (f content)
  | .tag content => .tag (f content)
  | .container kind content children =>
    .container kind (content.map g) (Node.relabelAll f g children)

/-- Nodes in a row, each with its texts and content tokens changed. -/
def Node.relabelAll (f : String → String) (g : Token → Token) : List Node → List Node
  | [] => []
  | n :: ns => n.relabel f g :: Node.relabelAll f g ns

end

theorem Node.relabelAll_eq_map (f : String → String) (g : Token → Token) (ns : List Node) :
    Node.relabelAll f g ns = ns.map (Node.relabel f g) := by
  induction ns with
  | nil => rfl
  | cons n ns ih => rw [Node.relabelAll, ih, List.map_cons]

/-- A change of texts that may be made in parts, and the change of tokens that goes
with it: their types are kept. -/
structure Relabelling where
  text : String → String
  token : Token → Token
  text_empty : text "" = ""
  text_append : ∀ s s', text (s ++ s') = text s ++ text s'
  type_token : ∀ t, (token t).type = t.type
  value_token : ∀ t, (token t).value = text t.value

namespace Relabelling

variable (r : Relabelling)

/-- A node after the change. -/
def node : Node → Node :=
  Node.relabel r.text r.token

/-- A match after the change. -/
def found (m : Match) : Match :=
  { m with node := r.node m.node }

theorem node_container (kind : ContainerKind) (content : List Token) (children : List Node) :
    r.node (.container kind content children) =
      .container kind (content.map r.token) (children.map r.node) := by
  rw [node, Node.relabel, Node.relabelAll_eq_map]

theorem node_link (label url : String) :
    r.node (.link label url) = .link (r.text label) (r.text url) :=
  rfl

theorem node_image (alt url : String) :
    r.node (.image alt url) = .image (r.text alt) (r.text url) :=
  rfl

theorem node_tag (content : String) : r.node (.tag content) = .tag (r.text content) :=
  rfl

theorem node_value (t : Token) : r.node (.text t.value) = .text (r.token t).value := by
  rw [r.value_token]
  rfl

theorem isContainer_node (n : Node) : (r.node n).isContainer = n.isContainer := by
  cases n <;> rfl

theorem joinTokens_map : ∀ ts : List Token, joinTokens (ts.map r.token) = r.text (joinTokens ts)
  | [] => r.text_empty.symm
  | t :: ts => by
    rw [List.map_cons, joinTokens_cons, joinTokens_cons, joinTokens_map ts, r.value_token,
      r.text_append]

theorem opensWord_map (before : Option Token) :
    opensWord (before.map r.token) = opensWord before := by
  cases before with
  | none => rfl
  | some t => rw [Option.map_some, opensWord, opensWord, r.type_token]

theorem opensWord_getLast? (span : List Token) :
    opensWord (span.map r.token).getLast? = opensWord span.getLast? := by
  rw [List.getLast?_map]
  exact r.opensWord_map span.getLast?

theorem build_map {d : Delimited} (hd : .delimited d ∈ builtInConstructs) (content : List Token) :
    d.build (content.map r.token) = r.node (d.build content) := by
  have hjoin := r.joinTokens_map content
  rcases eq_of_delimited_mem hd with rfl | rfl | rfl | rfl | rfl | rfl
  · exact congrArg Node.code hjoin
  · exact congrArg Node.wikiLink hjoin
  · rfl
  · rfl
  · rfl
  · exact congrArg Node.highlight hjoin

/-! ### Texts merged behind the change -/

theorem mapsTexts : MapsTexts r.node r.text where
  text _ := rfl
  append := r.text_append
  other n hn a := by
    cases n with
    | text s => exact absurd rfl (hn s)
    | _ => exact Node.noConfusion

theorem mergeTexts_map (ns : List Node) :
    mergeTexts (ns.map r.node) = (mergeTexts ns).map r.node :=
  r.mapsTexts.mergeTexts ns

theorem finish_map (e : Engine) (ns : List Node) :
    e.finish (ns.map r.node) = (e.finish ns).map r.node :=
  r.mapsTexts.finish e ns

end Relabelling

/-! ### Parses behind the change -/

section Changed

variable (r : Relabelling)

theorem kinds_map {ts : List Token} (hk : ∀ t ∈ ts, (r.token t).kind = t.kind) :
    (ts.map r.token).map Token.kind = ts.map Token.kind := by
  rw [List.map_map]
  exact List.map_congr_left hk

theorem Bracketed.relabel {span label url : List Token} (h : Bracketed span label url)
    (hk : ∀ t ∈ span, (r.token t).kind = t.kind) :
    Bracketed (span.map r.token) (label.map r.token) (url.map r.token) := by
  obtain ⟨opens, closes, turns, filled, ends⟩ := h
  rename_i lb rb lp rp
  have hlabel : (label.map r.token).map Token.kind = label.map Token.kind :=
    kinds_map r fun t ht => hk t (by simp [ht])
  have hurl : (url.map r.token).map Token.kind = url.map Token.kind :=
    kinds_map r fun t ht => hk t (by simp [ht])
  simp only [List.map_cons, List.map_append, List.map_nil]
  refine .intro ?_ ?_ ?_ ?_ ?_
  · rwa [Token.isMarker_eq_of_kind (hk lb (by simp)) rfl]
  · exact closes.of_kinds rfl hlabel (hk rb (by simp))
  · rwa [Token.isMarker_eq_of_kind (hk lp (by simp)) rfl]
  · exact ne_nil_of_kinds hurl filled
  · exact ends.of_kinds rfl hurl (hk rp (by simp))

/-- A changed span has the form of the same construct, with the changed node. -/
theorem Construct.Forms.relabel {c : Construct} (hc : c ∈ builtInConstructs)
    {before before' : Option Token} {span rest : List Token} {node : Node}
    (h : c.Forms before span rest node) (hbefore : opensWord before' = opensWord before)
    (hk : ∀ t ∈ span, (r.token t).kind = t.kind) :
    c.Forms before' (span.map r.token) (rest.map r.token) (r.node node) := by
  have hmarked := marked_of_mem hc
  cases h with
  | @delimited d _ o cl content _ opens filled closes edges =>
    have hcontent : (content.map r.token).map Token.kind = content.map Token.kind :=
      kinds_map r fun t ht => hk t (by simp [ht])
    rw [← r.build_map hc]
    simp only [List.map_cons, List.map_append, List.map_nil]
    refine .delimited ?_ ?_ ?_ ?_
    · rwa [Token.isMarker_eq_of_kind (hk o (by simp)) hmarked.1]
    · exact ne_nil_of_kinds hcontent filled
    · exact closes.of_kinds hmarked.2 hcontent (hk cl (by simp))
    · exact edges.of_kinds hcontent
  | link parts filled =>
    rw [r.node_link, ← r.joinTokens_map, ← r.joinTokens_map]
    refine .link (parts.relabel r hk) ?_
    rwa [ne_eq, List.map_eq_nil_iff]
  | @image _ _ mark _ _ _ _ opens parts =>
    rw [r.node_image, ← r.joinTokens_map, ← r.joinTokens_map]
    refine .image ?_ (parts.relabel r fun t ht => hk t (List.mem_cons_of_mem _ ht))
    rwa [Token.isMarker_eq_of_kind (hk mark List.mem_cons_self) rfl]
  | @tag _ _ mark word _ opens starts filled goes stops =>
    rw [r.node_tag, ← r.joinTokens_map]
    refine .tag ?_ (hbefore.trans starts) ?_ ?_ ?_
    · rwa [Token.isMarker_eq_of_kind (hk mark List.mem_cons_self) rfl]
    · rwa [ne_eq, List.map_eq_nil_iff]
    · intro u hu
      obtain ⟨t, ht, rfl⟩ := List.mem_map.mp hu
      rw [r.type_token]
      exact goes t ht
    · intro u hu
      rw [List.head?_map] at hu
      obtain ⟨t, ht, rfl⟩ := Option.map_eq_some_iff.mp hu
      rw [r.type_token]
      exact stops t ht

theorem Construct.recognise_relabel {c : Construct} (hc : c ∈ builtInConstructs)
    {before before' : Option Token} {ts : List Token} (hbefore : opensWord before' = opensWord before)
    (hk : ∀ t ∈ ts, (r.token t).kind = t.kind) :
    c.matcher.recognise before' (ts.map r.token) = (c.matcher.recognise before ts).map r.found := by
  cases h : c.matcher.recognise before ts with
  | none => exact c.recognise_eq_none_of_kinds (marked_of_mem hc) hbefore (kinds_map r hk) h
  | some found =>
    obtain ⟨span, rest, rfl, hform, hlen⟩ := c.recognise_eq_some_iff.mp h
    have hspan : ∀ t ∈ span, (r.token t).kind = t.kind := fun t ht =>
      hk t (List.mem_append_left _ ht)
    refine c.recognise_eq_some_iff.mpr ⟨span.map r.token, rest.map r.token, List.map_append,
      hform.relabel r hc hbefore hspan, ?_⟩
    rw [List.length_map]
    exact hlen

theorem firstMatch?_map {view view' : TokenView} {p p' : Nat} (f : Match → Match) :
    ∀ ms : List Matcher, (∀ m ∈ ms, m.attempt view' p' = (m.attempt view p).map f) →
      firstMatch? ms view' p' = (firstMatch? ms view p).map (Prod.map id f)
  | [], _ => rfl
  | m :: ms, h => by
    have ih := firstMatch?_map f ms fun m' hm' => h m' (List.mem_cons_of_mem _ hm')
    rw [firstMatch?, firstMatch?, h m List.mem_cons_self]
    cases m.attempt view p with
    | none => exact ih
    | some found => rfl

namespace Engine

variable {e : Engine}

theorem first?_relabel (he : e.matchers ⊆ builtIns) {before before' : Option Token}
    {ts : List Token} (hbefore : opensWord before' = opensWord before)
    (hk : ∀ t ∈ ts, (r.token t).kind = t.kind) :
    e.first? before' (ts.map r.token) = (e.first? before ts).map (Prod.map id r.found) := by
  refine firstMatch?_map r.found e.matchers fun m hm => ?_
  obtain ⟨c, hc, rfl⟩ := List.mem_map.mp (he hm)
  exact c.recognise_relabel r hc hbefore hk

/-- **A change that keeps the kinds goes through a reading.** The induction is on the
reading. Of what is before the tokens, only whether a word may start behind it
matters. -/
theorem Reads.relabel (he : e.matchers ⊆ builtIns) {levels : Nat} {before before' : Option Token}
    {ts : List Token} {ns : List Node} (h : e.Reads levels before ts ns)
    (hbefore : opensWord before' = opensWord before)
    (hk : ∀ t ∈ ts, (r.token t).kind = t.kind) :
    e.Reads levels before' (ts.map r.token) (ns.map r.node) := by
  induction h generalizing before' with
  | done => exact .done
  | @literal levels before t ts ns nothing next ih =>
    have hfirst := first?_relabel r he hbefore hk
    have hnext := ih (r.opensWord_map (some t)) (List.forall_mem_cons.mp hk).2
    rw [nothing] at hfirst
    rw [List.map_cons, List.map_cons, r.node_value]
    exact .literal hfirst hnext
  | @refused before t ts ns m found first box next ih =>
    have hfirst := first?_relabel r he hbefore hk
    have hnext := ih (r.opensWord_map (some t)) (List.forall_mem_cons.mp hk).2
    rw [first] at hfirst
    rw [List.map_cons, List.map_cons, r.node_value]
    exact .refused hfirst ((r.isContainer_node _).trans box) hnext
  | @leaf levels before ts span rest ns m found split first covers plain next ih =>
    have hfirst := first?_relabel r he hbefore hk
    subst split
    have hnext := ih (r.opensWord_getLast? span) fun t ht => hk t (List.mem_append_right _ ht)
    rw [first] at hfirst
    have hcovers : (r.found found).consumed = (span.map r.token).length := by
      rw [List.length_map]
      exact covers
    have hplain : (r.found found).node.isContainer = false :=
      (r.isContainer_node found.node).trans plain
    exact .leaf List.map_append hfirst hcovers hplain hnext
  | @container levels before ts span rest content kind inner children ns m consumed split first
      covers nested next ihNested ihNext =>
    have hfirst := first?_relabel r he hbefore hk
    subst split
    have hnext := ihNext (r.opensWord_getLast? span) fun t ht => hk t (List.mem_append_right _ ht)
    obtain ⟨d, -, o, cl, rfl, -⟩ := container_of_first? he boxedBy_builtIns first covers
    have hnested := ihNested hbefore fun t ht => hk t (by simp [ht])
    rw [first, Option.map_some, Prod.map_apply, id, Relabelling.found, r.node_container] at hfirst
    rw [List.map_cons, r.node_container, ← r.finish_map]
    refine .container List.map_append hfirst ?_ hnested hnext
    rw [List.length_map]
    exact covers

end Engine

end Changed

/-! ### Moving to another place -/

/-- All tokens moved `delta` places further on; the texts stay. -/
def Relabelling.shift (delta : Int) : Relabelling where
  text := id
  token := Token.shift delta
  text_empty := rfl
  text_append _ _ := rfl
  type_token _ := rfl
  value_token _ := rfl

theorem kinds_shift (delta : Int) (ts : List Token) :
    (ts.map (Token.shift delta)).map Token.kind = ts.map Token.kind :=
  kinds_map (Relabelling.shift delta) fun _ _ => rfl

/-- The same node with its content tokens, at every depth, `delta` places further on. -/
def Node.shift (delta : Int) : Node → Node :=
  Node.relabel id (Token.shift delta)

/-- The same tokens further on are read as the same nodes further on. -/
theorem Engine.Reads.shift {e : Engine} (he : e.matchers ⊆ builtIns) (delta : Int) {levels : Nat}
    {before before' : Option Token} {ts : List Token} {ns : List Node}
    (h : e.Reads levels before ts ns) (hbefore : opensWord before' = opensWord before) :
    e.Reads levels before' (ts.map (Token.shift delta)) (ns.map (Node.shift delta)) :=
  h.relabel (Relabelling.shift delta) he hbefore fun _ _ => rfl

end InlineMarkup
