/-
# Tags are words of the note

The names of tags are listed once each, and every one of them stands in the note behind a
`#` (`TagAt`): a word without white space, line breaks and `#`, at the start of the note or
behind white space, but for the opening delimiters of containers around it, and up to the
end of the note, white space, another `#`, or the closing delimiter of a container around
it.

A tag is read in the content of a container as it would be in the note, except that the
content starts behind what precedes the container, and that it ends where the container is
closed. What is known of a slice in its place is carried from level to level (`InNote`).

Key definitions: `Encloses`, `OpensWordAt`, `ClosesWordAt`, `TagAt`, `InNote`.
Key theorems: `InNote.behind`, `InNote.within`, `InNote.closesWordAt`, `InNote.tagAt`,
`Engine.Reads.exists_tagAt`, `tags_are_words`.
-/
import InlineMarkup.Proofs.DepthBound
import InlineMarkup.Proofs.LeafGrammar
import InlineMarkup.Proofs.Losslessness
import InlineMarkup.Proofs.MaximalMunch
import InlineMarkup.Loose.Text

namespace InlineMarkup

/-! ### Words of a note -/

/-- White space: a horizontal space or a line break. -/
def IsBlank (c : Char) : Prop :=
  c ∈ horizontalSpaces ∨ c ∈ lineBreaks

/-- A container among the nodes, at any depth, has the content from `start` up to `stop` of
the note, between two of its markers. -/
def Encloses (source : String) (nodes : List Node) (marker : String) (start stop : Nat) : Prop :=
  ∃ kind content children front back, .container kind content children ∈ preorderAll nodes ∧
    kind.marker? = some marker ∧ source = front ++ marker ++ joinTokens content ++ marker ++ back ∧
    start = (front ++ marker).length ∧ stop = start + (joinTokens content).length ∧
    ∀ t ∈ content.head?, t.offset = start

/-- To the left of a position, past opening delimiters of containers around `p` that stand
directly in front of it, there is white space or the start of the note. -/
inductive OpensWordAt (source : String) (nodes : List Node) (p : Nat) : Nat → Prop
  | start : OpensWordAt source nodes p 0
  | blank {q : Nat} {c : Char} (char : source.toList[q]? = some c) (white : IsBlank c) :
      OpensWordAt source nodes p (q + 1)
  | skip {marker : String} {start stop : Nat} (encloses : Encloses source nodes marker start stop)
      (inside : start ≤ p ∧ p < stop) (next : OpensWordAt source nodes p (start - marker.length)) :
      OpensWordAt source nodes p start

/-- A position is the end of the note, or white space or a `#` stands there, or the closing
delimiter of a container around `p`. -/
def ClosesWordAt (source : String) (nodes : List Node) (p q : Nat) : Prop :=
  q = source.length ∨ (∃ c, source.toList[q]? = some c ∧ (IsBlank c ∨ c = '#')) ∨
    ∃ marker start, Encloses source nodes marker start q ∧ start ≤ p ∧ p < q

/-- A tag of a name stands in the note, with its `#` at `p`. -/
structure TagAt (source : String) (nodes : List Node) (name : String) (p : Nat) : Prop where
  mark : source.toList[p]? = some '#'
  word : source.toList.extract (p + 1) (p + 1 + name.length) = name.toList
  letters : IsWord name.toList
  opens : OpensWordAt source nodes p p
  closes : ClosesWordAt source nodes p (p + 1 + name.length)

theorem isBlank_of_opensWord {t : Token} (h : t.WellFormed) (ht : opensWord (some t) = true) :
    ∀ c ∈ t.value.toList, IsBlank c := by
  intro c hc
  rw [IsBlank, TokenType.mem_horizontalSpaces_iff, TokenType.mem_lineBreaks_iff, h.chars c hc]
  simpa [opensWord] using ht

theorem isBlank_or_of_mem_tagStops {c : Char} (h : TokenType.ofChar c ∈ tagStops) :
    IsBlank c ∨ c = '#' := by
  have hmark : TokenType.hash.markChar? = some '#' := rfl
  rw [IsBlank, TokenType.mem_horizontalSpaces_iff, TokenType.mem_lineBreaks_iff,
    ← TokenType.ofChar_eq_iff hmark, or_assoc]
  simpa [tagStops] using h

theorem Construct.Forms.exists_word {c : Construct} (hc : c ∈ builtInConstructs)
    {before : Option Token} {span rest : List Token} {name : String}
    (h : c.Forms before span rest (.tag name)) : ∃ mark word, span = mark :: word ∧
      name = joinTokens word ∧ mark.isMarker .hash 1 = true ∧ opensWord before = true ∧ word ≠ [] ∧
      (∀ t ∈ word, t.type ∉ tagStops) ∧ ∀ t ∈ rest.head?, t.type ∈ tagStops := by
  generalize hnode : Node.tag name = node at h
  cases h with
  | delimited => rcases eq_of_delimited_mem hc with rfl | rfl | rfl | rfl | rfl | rfl <;> cases hnode
  | link => cases hnode
  | image => cases hnode
  | tag opens starts filled goes stops =>
    exact ⟨_, _, rfl, Node.tag.inj hnode, opens, starts, filled, goes, stops⟩

/-! ### Slices in their place -/

/-- The tokens `us` stand in the note behind `front` and in front of `back`. If a word may
start behind `before`, it may where they start, and they end with the note or where a
container around them is closed. -/
structure InNote (source : String) (nodes : List Node) (before : Option Token)
    (front us back : List Token) : Prop where
  split : tokenize source = front ++ us ++ back
  opens : opensWord before = true → ∀ p, (charsOf front).length ≤ p →
    p < (charsOf (front ++ us)).length → OpensWordAt source nodes p (charsOf front).length
  ends : (charsOf (front ++ us)).length = source.length ∨
    ∃ marker start, Encloses source nodes marker start (charsOf (front ++ us)).length ∧
      start ≤ (charsOf front).length

namespace InNote

variable {source : String} {nodes : List Node} {before : Option Token} {front us back : List Token}

theorem top (source : String) (nodes : List Node) : InNote source nodes none [] (tokenize source) [] where
  split := by simp
  opens _ _ _ _ := .start
  ends := by
    left
    rw [List.nil_append, ← toList_joinTokens, joinTokens_tokenize, String.length_toList]

theorem wellFormed (h : InNote source nodes before front us back) : ∀ t ∈ us, t.WellFormed := by
  have hcut := isCut_tokensFrom 0 source.toList
  rw [← tokenize, h.split] at hcut
  exact fun t ht => hcut.wellFormed t (by simp [ht])

/-- What is behind a span is in the note, behind the last token of the span. -/
theorem behind {span rest : List Token} (h : InNote source nodes before front (span ++ rest) back)
    (hne : span ≠ []) : InNote source nodes span.getLast? (front ++ span) rest back where
  split := by rw [h.split, List.append_assoc, List.append_assoc, List.append_assoc, List.append_assoc]
  opens hopens p _ _ := by
    rcases List.eq_nil_or_concat' span with rfl | ⟨init, t, rfl⟩
    · exact absurd rfl hne
    · rw [List.getLast?_concat] at hopens
      have ht := h.wellFormed t (by simp)
      -- the last character of the last token is the one in front of the rest
      rcases List.eq_nil_or_concat' t.value.toList with hnil | ⟨cs, c, hvalue⟩
      · exact absurd hnil ht.filled
      · have hblank := isBlank_of_opensWord ht hopens c (by simp [hvalue])
        have hlength : (charsOf (front ++ (init ++ [t]))).length =
            (charsOf front ++ charsOf init ++ cs).length + 1 := by
          simp [hvalue, Nat.add_assoc]
        rw [hlength]
        refine .blank ?_ hblank
        rw [toList_of_split h.split]
        simp [hvalue]
  ends := by
    have hall : charsOf (front ++ span ++ rest) = charsOf (front ++ (span ++ rest)) := by
      rw [List.append_assoc]
    rw [hall]
    refine h.ends.imp_right fun ⟨marker, start, hencloses, hstart⟩ =>
      ⟨marker, start, hencloses, Nat.le_trans hstart ?_⟩
    rw [charsOf_append, List.length_append]
    exact Nat.le_add_right _ _

theorem behind_token {t : Token} {rest : List Token}
    (h : InNote source nodes before front (t :: rest) back) :
    InNote source nodes (some t) (front ++ [t]) rest back :=
  behind (show InNote source nodes before front ([t] ++ rest) back from h) (List.cons_ne_nil _ _)

/-- The content of a container is in the note, and a word may start there if it may in front
of the container. -/
theorem within {o cl : Token} {content rest : List Token}
    (h : InNote source nodes before front (o :: (content ++ [cl]) ++ rest) back)
    {kind : ContainerKind} {children : List Node}
    (hbox : .container kind content children ∈ preorderAll nodes)
    (hopen : kind.marker? = some o.value) (hclose : kind.marker? = some cl.value) :
    InNote source nodes before (front ++ [o]) content (cl :: (rest ++ back)) := by
  have hsplit : tokenize source = front ++ [o] ++ content ++ (cl :: (rest ++ back)) := by
    rw [h.split]
    simp
  have hfront : (charsOf (front ++ [o])).length = (charsOf front).length + o.value.length := by
    rw [charsOf_append, charsOf_cons, charsOf_nil, List.append_nil, List.length_append,
      String.length_toList]
  have hcontent : (charsOf (front ++ [o] ++ content)).length =
      (charsOf (front ++ [o])).length + (charsOf content).length := by
    rw [charsOf_append, List.length_append]
  have hencloses : Encloses source nodes o.value (charsOf (front ++ [o])).length
      (charsOf (front ++ [o] ++ content)).length := by
    have hsame : cl.value = o.value := Option.some.inj (hclose.symm.trans hopen)
    refine ⟨kind, content, children, joinTokens front, joinTokens (rest ++ back), hbox, hopen,
      ?_, ?_, ?_, ?_⟩
    · rw [← joinTokens_tokenize source, hsplit]
      simp [String.append_assoc, hsame]
    · rw [hfront, String.length_append, ← toList_joinTokens, String.length_toList]
    · rw [hcontent, ← toList_joinTokens content, String.length_toList]
    · intro t ht
      obtain ⟨rest', rfl⟩ := List.head?_eq_some_iff.mp ht
      exact (located_of_split hsplit).1
  refine ⟨hsplit, fun hopens p hstart hstop => ?_, .inr ⟨_, _, hencloses, Nat.le_refl _⟩⟩
  -- the content starts a word if the container does, and the opener is skipped
  refine .skip hencloses ⟨hstart, hstop⟩ ?_
  rw [hfront, Nat.add_sub_cancel]
  refine h.opens hopens p (by omega) (Nat.lt_of_lt_of_le hstop ?_)
  simp only [charsOf_append, charsOf_cons, List.length_append]
  omega

/-- A span closes a word, if what is behind it in the slice does or nothing is. -/
theorem closesWordAt {span rest : List Token}
    (h : InNote source nodes before front (span ++ rest) back)
    (hstops : ∀ t ∈ rest.head?, t.type ∈ tagStops) {p : Nat} (hp : (charsOf front).length ≤ p)
    (hspan : p < (charsOf (front ++ span)).length) :
    ClosesWordAt source nodes p (charsOf (front ++ span)).length := by
  rcases rest with _ | ⟨t, rest⟩
  · -- the word goes on to the end of the slice
    have hends := h.ends
    rw [List.append_nil] at hends
    exact hends.imp_right fun ⟨marker, start, hencloses, hstart⟩ =>
      .inr ⟨marker, start, hencloses, Nat.le_trans hstart hp, hspan⟩
  · have ht := h.wellFormed t (by simp)
    obtain ⟨c, cs, hc⟩ := List.exists_cons_of_ne_nil ht.filled
    have htype := ht.chars c (by simp [hc])
    have hstop := hstops t rfl
    rw [← htype] at hstop
    have hsource : source.toList =
        charsOf (front ++ span) ++ (c :: (cs ++ charsOf rest ++ charsOf back)) := by
      rw [toList_of_split h.split]
      simp [hc]
    refine .inr (.inl ⟨c, ?_, isBlank_or_of_mem_tagStops hstop⟩)
    rw [hsource, List.getElem?_append_right (Nat.le_refl _), Nat.sub_self]
    rfl

theorem tagAt {c : Construct} (hc : c ∈ builtInConstructs) {span rest : List Token} {name : String}
    (h : InNote source nodes before front (span ++ rest) back)
    (hform : c.Forms before span rest (.tag name)) :
    TagAt source nodes name (charsOf front).length := by
  obtain ⟨mark, word, rfl, rfl, hmark, hopens, hfilled, hgoes, hstops⟩ := hform.exists_word hc
  have hvalue : mark.value.toList = ['#'] := by
    rw [(h.wellFormed mark (by simp)).repeats.value_eq 1 hmark rfl, String.toList_ofList]
    rfl
  have hsource : source.toList =
      charsOf front ++ ['#'] ++ charsOf word ++ (charsOf rest ++ charsOf back) := by
    rw [toList_of_split h.split]
    simp [hvalue]
  have hname : (joinTokens word).length = (charsOf word).length := by
    rw [← toList_joinTokens, String.length_toList]
  have hspan : (charsOf (front ++ mark :: word)).length =
      (charsOf front).length + 1 + (joinTokens word).length := by
    simp [hvalue, hname, Nat.add_assoc, Nat.add_comm 1]
  have hslice : word <:+: tokenize source := ⟨front ++ [mark], rest ++ back, by simp [h.split]⟩
  obtain ⟨_, hcut⟩ := (isCut_tokensFrom 0 source.toList).of_slice hslice
  refine ⟨?_, ?_, ?_, ?_, ?_⟩
  · rw [hsource]
    simp
  · have hword := extract_between (charsOf front ++ ['#']) (charsOf word) (charsOf rest ++ charsOf back)
    rw [← hsource, List.length_append, List.length_singleton] at hword
    rw [hname, hword, toList_joinTokens]
  · rw [toList_joinTokens]
    exact ⟨charsOf_ne_nil hcut hfilled, (goes_iff_chars hcut.wellFormed).mp hgoes⟩
  · refine h.opens hopens _ (Nat.le_refl _) ?_
    simp [hvalue]
  · rw [← hspan]
    exact h.closesWordAt hstops (Nat.le_refl _) (by omega)

end InNote

/-! ### Tags of a reading -/

/-- **Every tag of a reading of a slice stands in the note.** The induction is on the reading.
Its nodes have to be among all nodes of the note, which hold the containers around them. -/
theorem Engine.Reads.exists_tagAt {e : Engine} (he : e.matchers ⊆ builtIns) {source : String}
    {nodes : List Node} {levels : Nat} {before : Option Token} {us : List Token} {ns : List Node}
    (h : e.Reads levels before us ns) : ∀ {front back : List Token},
      InNote source nodes before front us back →
      (∀ n ∈ preorderAll ns, (∀ s, n ≠ .text s) → n ∈ preorderAll nodes) →
      ∀ n ∈ preorderAll ns, ∀ name, n = .tag name → ∃ p, TagAt source nodes name p := by
  induction h with
  | done => simp [preorderAll]
  | @literal levels before t us ns nothing next ih =>
    intro front back hnote hnodes
    rw [preorderAll, List.forall_mem_append] at hnodes ⊢
    refine ⟨?_, ih hnote.behind_token hnodes.2⟩
    simp [Node.preorder]
  | @refused before t us ns m found first box next ih =>
    intro front back hnote hnodes
    rw [preorderAll, List.forall_mem_append] at hnodes ⊢
    refine ⟨?_, ih hnote.behind_token hnodes.2⟩
    simp [Node.preorder]
  | @leaf levels before us span rest ns m found split first covers plain next ih =>
    intro front back hnote hnodes
    subst split
    obtain ⟨c, hc, -, hform⟩ := e.forms_of_first? he first covers
    rw [preorderAll, List.forall_mem_append] at hnodes ⊢
    refine ⟨?_, ih (hnote.behind hform.ne_nil) hnodes.2⟩
    rw [Node.preorder_of_plain plain, List.forall_mem_singleton]
    intro name hname
    rw [hname] at hform
    exact ⟨_, hnote.tagAt hc hform⟩
  | @container levels before us span rest content kind inner children ns m consumed split first
      covers nested next ihNested ihNext =>
    intro front back hnote hnodes
    subst split
    obtain ⟨d, hd, o, cl, rfl, ho, hne, closes, hbuild⟩ :=
      container_of_first? he boxedBy_builtIns first covers
    rw [preorderAll, List.forall_mem_append, Node.preorder, List.forall_mem_cons] at hnodes ⊢
    obtain ⟨⟨hself, hbelow⟩, hrest⟩ := hnodes
    refine ⟨⟨fun name h => Node.noConfusion h, ?_⟩, ihNext (hnote.behind (List.cons_ne_nil _ _)) hrest⟩
    have hwell := hnote.wellFormed
    have hinner := hnote.within (hself (by simp))
      (marker_of_box hd hbuild (accepts_of_opens hd ho) (hwell o (by simp)).repeats)
      (marker_of_box hd hbuild closes.2 (hwell cl (by simp)).repeats)
    refine e.forall_preorderAll_finish (fun s name h => Node.noConfusion h) (ihNested hinner ?_)
    exact fun n hn htext => hbelow n (mem_preorderAll_finish e htext hn) htext

theorem exists_parse_tagAt {e : Engine} (he : e.matchers ⊆ builtIns) (source : String) :
    ∃ nodes, (e.parse (tokenize source)).result = .ok nodes ∧ (tagsOf nodes).Nodup ∧
      ∀ name ∈ tagsOf nodes, ∃ p, TagAt source nodes name p := by
  obtain ⟨ns, hreads, hparse⟩ := Engine.exists_reads he e.limit none (tokenize source)
  refine ⟨e.finish ns, hparse, nodup_tagsOf _, fun name hname => ?_⟩
  have htags := hreads.exists_tagAt he (.top source (e.finish ns))
    fun n hn htext => mem_preorderAll_finish e htext hn
  exact e.forall_preorderAll_finish (fun s name h => Node.noConfusion h) htags _
    (mem_tagsOf_iff.mp hname) name rfl

/-- **Tags are words of the note.** No tag is listed twice, and every tag stands in the note
behind a `#`, as a word that opens behind white space or at the start of the note and closes in
front of white space, a `#` or the end; delimiters of containers around it may stand between. -/
theorem tags_are_words :
    (∀ e : Engine, e.matchers ⊆ builtIns → ∀ source : String,
      ∃ nodes, (e.parse (tokenize source)).result = .ok nodes ∧ (tagsOf nodes).Nodup ∧
        ∀ name ∈ tagsOf nodes, ∃ p, TagAt source nodes name p) ∧
    ∀ (source : String) (own : Option Settings) (ambient : Settings),
      (own.getD ambient).registryInUse.entries ⊆ Entry.builtIns →
      ∃ nodes, ((parseInline source own).run ambient).1.result = .ok (Node.storedAll nodes) ∧
        Loose.tags (Node.storedAll nodes) = .ok ((tagsOf nodes).map .text) ∧ (tagsOf nodes).Nodup ∧
        ∀ name ∈ tagsOf nodes, ∃ p, TagAt source nodes name p := by
  refine ⟨fun e he source => exists_parse_tagAt he source, fun source own ambient h => ?_⟩
  obtain ⟨nodes, hparse, htags⟩ := exists_parseInline (fun e he => exists_parse_tagAt he source) h
  refine ⟨nodes, hparse, ?_, htags⟩
  rw [Loose.tags, Value.nodes?_storedAll]

/-- The tags inside containers are words of the note with the matchers in reverse order, and
the tag of a note that is nothing else is one with the default settings. -/
theorem tags_are_words_alone :
    (∃ nodes, (Engine.parse ⟨builtIns.reverse, 2, false⟩ (tokenize "**~~#a~~ #b**")).result = .ok nodes ∧
      (tagsOf nodes).Nodup ∧ ∀ name ∈ tagsOf nodes, ∃ p, TagAt "**~~#a~~ #b**" nodes name p) ∧
    ParsesTo "#a" [.tag "a"] ∧ Loose.tags (Node.storedAll [.tag "a"]) = .ok [.text "a"] ∧
    ∃ p, TagAt "#a" [.tag "a"] "a" p := by
  obtain ⟨hengine, hsettings⟩ := tags_are_words
  refine ⟨hengine ⟨builtIns.reverse, 2, false⟩ (fun m hm => List.mem_reverse.mp hm) _, ?_⟩
  have hletters : (Node.tag "a").WellFormed := by decide
  obtain ⟨source, hmarkup, hword⟩ := parsesTo_of_wellFormed hletters
  obtain rfl : "#a" = source := Except.ok.inj hmarkup
  obtain ⟨nodes, hparse, hlisted, -, htags⟩ := hsettings "#a" none {} (List.Subset.refl _)
  obtain rfl : nodes = [.tag "a"] := ParsesTo.unique hparse hword
  exact ⟨hword, hlisted, htags "a" (mem_tagsOf_iff.mpr (by simp [preorderAll, Node.preorder]))⟩

end InlineMarkup
