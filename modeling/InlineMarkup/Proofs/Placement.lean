/-
# Where containers stand in the note

With built-in matchers a container holds a slice of the tokens of the note, offsets
included. The slice stands between two markers of the container, in one line and without
another such marker, and it is what the children of the container are written as
(`Stands`). Content is sliced from content, level by level, so places in a slice have to be
counted from the start of the note: nodes are laid out between two positions, and those of
a container between its own delimiters (`Laid`).

As no token of a note occurs twice there, a slice has one place. So the spans of two
containers, delimiters included, are apart or one is inside the content of the other, and
that is so exactly when one container is below the other (`ContainersStand`).

Key definitions: `Stands`, `Laid`, `ContainersStand`.
Key theorems: `Engine.Reads.laid`, `Laid.exists_within`, `Laid.inside`, `Laid.leftOf`,
`containers_stand`.
-/
import InlineMarkup.Proofs.DepthBound
import InlineMarkup.Proofs.Lines
import InlineMarkup.Proofs.Losslessness
import InlineMarkup.Proofs.Relabelling

namespace InlineMarkup

/-! ### A container by itself -/

/-- A container holds the tokens from `i` up to `j` of a note. In front of them and behind
them stands its marker, and they are in one line and without such a marker. They are what
its children are written as, and the part of the note from the start of the first to the
end of the last. -/
structure Stands (source : String) (kind : ContainerKind) (content : List Token)
    (children : List Node) (i j : Nat) : Prop where
  slice : content = (tokenize source).extract i j
  filled : i < j
  between : ∃ o cl, 0 < i ∧ (tokenize source)[i - 1]? = some o ∧ (tokenize source)[j]? = some cl ∧
    kind.marker? = some o.value ∧ kind.marker? = some cl.value ∧
    ∀ t ∈ content, t.type ≠ .newline ∧ t.kind ≠ o.kind
  markup : markup children = .ok (joinTokens content)
  text : ∃ first last, content.head? = some first ∧ content.getLast? = some last ∧
    ∃ a b : Nat, first.offset = a ∧ last.stop = b ∧
      (joinTokens content).toList = source.toList.extract a b

theorem Stands.lt_length {source : String} {kind : ContainerKind} {content : List Token}
    {children : List Node} {i j : Nat} (h : Stands source kind content children i j) :
    j < (tokenize source).length := by
  obtain ⟨o, cl, -, -, hcl, -⟩ := h.between
  exact (List.getElem?_eq_some_iff.mp hcl).1

theorem Stands.place_unique {source : String} {kind : ContainerKind} {content : List Token}
    {children : List Node} {i j i' j' : Nat} (h : Stands source kind content children i j)
    (hslice : content = (tokenize source).extract i' j') (hfilled : i' < j')
    (hlength : j' ≤ (tokenize source).length) : i = i' ∧ j = j' :=
  extract_inj (nodup_tokenize source) h.filled (Nat.le_of_lt h.lt_length) hfilled hlength
    (h.slice.symm.trans hslice)

theorem exists_text_of_slice {source : String} {front us back : List Token}
    (h : tokenize source = front ++ us ++ back) (hne : us ≠ []) :
    ∃ first last, us.head? = some first ∧ us.getLast? = some last ∧
      ∃ a b : Nat, first.offset = a ∧ last.stop = b ∧
        (joinTokens us).toList = source.toList.extract a b := by
  obtain ⟨first, last, hfirst, hlast, hstart, hstop⟩ := (located_of_split h).exists_ends hne
  refine ⟨first, last, hfirst, hlast, (charsOf front).length,
    (charsOf front).length + (charsOf us).length, hstart, ?_, ?_⟩
  · rw [hstop, Int.natCast_add]
  · rw [toList_of_split h, extract_between, toList_joinTokens]

/-- What a construct makes of a slice of the tokens stands there, if its children are
written as the content. -/
theorem exists_stands {source : String} {d : Delimited} (hd : d ∈ boxes) {o cl : Token}
    {content : List Token} {kind : ContainerKind} {inner children : List Node}
    (ho : o.isMarker d.marker d.run = true) (hne : content ≠ [])
    (hslice : o :: (content ++ [cl]) <:+: tokenize source) (closes : d.closerRule.Closes content cl)
    (hbuild : d.build content = .container kind content inner)
    (hmarkup : markup children = .ok (joinTokens content)) :
    ∃ i j, Stands source kind content children i j := by
  obtain ⟨front, back, hsplit⟩ := hslice
  have hmem : ∀ t ∈ [o, cl], t ∈ tokenize source := by
    rw [← hsplit]
    simp
  have hopen := accepts_of_opens hd ho
  have hcontent : tokenize source = (front ++ [o]) ++ content ++ (cl :: back) := by
    rw [← hsplit]
    simp
  have hlength : (front ++ [o]).length = front.length + 1 := List.length_append
  have hfilled : 0 < content.length := List.length_pos_iff.mpr hne
  have hcloser : d.closerRule.closer.isMarkup = true := (marked_of_mem (boxes_subset hd)).2
  refine ⟨front.length + 1, front.length + 1 + content.length, ?_, by omega,
    ⟨o, cl, Nat.succ_pos _, ?_, ?_, ?_, ?_, ?_⟩, hmarkup, exists_text_of_slice hcontent hne⟩
  · rw [hcontent, ← hlength, extract_between]
  · rw [← hsplit, Nat.add_sub_cancel, List.append_assoc]
    simp
  · rw [hcontent, ← hlength, ← List.length_append]
    simp
  · exact marker_of_box hd hbuild hopen (repeats_of_mem_tokenize source o (hmem o (by simp)))
  · exact marker_of_box hd hbuild closes.2 (repeats_of_mem_tokenize source cl (hmem cl (by simp)))
  · intro t ht
    refine ⟨closes.one_line (allowNewline_of_mem (boxes_subset hd)) t ht, fun hkind => ?_⟩
    -- a token of the kind of the opener would have closed the container before
    have hpasses := (CloserRule.passes_iff.mp (closes.1 t ht)).1
    rw [CloserRule.accepts_eq_of_kind hcloser hkind, hopen] at hpasses
    cases hpasses

/-- **Every container of a reading of a slice of a note stands in the note.** -/
theorem Engine.Reads.exists_stands {e : Engine} (he : e.matchers ⊆ builtIns) {source : String}
    {levels : Nat} {before : Option Token} {ts : List Token} {ns : List Node}
    (h : e.Reads levels before ts ns) (hts : ts <:+: tokenize source) :
    ∀ n ∈ preorderAll (e.finish ns), ∀ kind content children,
      n = .container kind content children → ∃ i j, Stands source kind content children i j := by
  refine e.forall_preorderAll_finish (fun s _ _ _ h => Node.noConfusion h)
    (h.forall_preorderAll he boxedBy_builtIns ?_ ?_)
  · rintro n hn kind content children rfl
    cases hn
  · rintro d o cl content kind inner levels before children hd ho hne hslice closes hbuild hreads
      kind' content' children' ⟨⟩
    have hslice' := hslice.trans hts
    have hrep : ∀ t ∈ content, t.Repeats := fun t ht =>
      repeats_of_mem_tokenize source t (hslice'.subset (by simp [ht]))
    refine InlineMarkup.exists_stands hd ho hne hslice' closes hbuild ?_
    rw [markup, markup_finish, (hreads.spells he hrep).markupAll]

/-! ### Nodes laid out -/

/-- Nodes are laid out among the tokens `ts` between two positions: the span of each
container, delimiters included, is behind those of the containers before it, and its
children are laid out between its delimiters. -/
inductive Laid (ts : List Token) : Nat → Nat → List Node → Prop
  | nil {lo hi : Nat} (ordered : lo ≤ hi) : Laid ts lo hi []
  | plain {lo hi : Nat} {n : Node} {ns : List Node} (leaf : n.isContainer = false)
      (next : Laid ts lo hi ns) : Laid ts lo hi (n :: ns)
  | container {lo hi i j : Nat} {kind : ContainerKind} {content : List Token}
      {children ns : List Node} (start : lo < i) (filled : i < j)
      (slice : content = ts.extract i j) (nested : Laid ts i j children)
      (next : Laid ts (j + 1) hi ns) : Laid ts lo hi (.container kind content children :: ns)

namespace Laid

variable {ts : List Token} {lo hi : Nat} {ns : List Node}

theorem le (h : Laid ts lo hi ns) : lo ≤ hi := by
  induction h with
  | nil ordered => exact ordered
  | plain leaf next ih => exact ih
  | container start filled slice nested next _ ih => omega

theorem of_le {lo' : Nat} (hlo : lo' ≤ lo) (h : Laid ts lo hi ns) : Laid ts lo' hi ns := by
  induction h with
  | nil ordered => exact .nil (Nat.le_trans hlo ordered)
  | plain leaf next ih => exact .plain leaf (ih hlo)
  | container start filled slice nested next =>
    exact .container (Nat.lt_of_le_of_lt hlo start) filled slice nested next

theorem tail {n : Node} (h : Laid ts lo hi (n :: ns)) : Laid ts lo hi ns := by
  cases h with
  | plain leaf next => exact next
  | container start filled slice nested next => exact next.of_le (by omega)

theorem mergeTexts (h : Laid ts lo hi ns) : Laid ts lo hi (mergeTexts ns) := by
  induction h with
  | nil ordered => exact .nil ordered
  | @plain lo hi n ns leaf next ih =>
    rcases mergeTexts_cons_cases n ns with hkept | ⟨a, b, rest, -, hns, hjoined⟩
    · rw [hkept]
      exact .plain leaf ih
    · rw [hns] at ih
      rw [hjoined]
      exact .plain rfl ih.tail
  | container start filled slice nested next _ ih =>
    rw [mergeTexts_cons (by simp)]
    exact .container start filled slice nested ih

theorem finish (h : Laid ts lo hi ns) (e : Engine) : Laid ts lo hi (e.finish ns) := by
  unfold Engine.finish
  split
  · exact h.mergeTexts
  · exact h

end Laid

/-- **The nodes of a reading of a slice are laid out along the slice.** The induction is on
the reading, for the tokens around the slice as they are. -/
theorem Engine.Reads.laid {e : Engine} {cs : List Construct} {ds : List Delimited}
    (he : e.matchers ⊆ cs.map Construct.matcher) (hb : BoxedBy cs ds) {levels : Nat}
    {before : Option Token} {us : List Token} {ns : List Node} (h : e.Reads levels before us ns) :
    ∀ ts front back : List Token, ts = front ++ us ++ back →
      Laid ts front.length (front.length + us.length) ns := by
  induction h with
  | done => exact fun _ _ _ _ => .nil (Nat.le_refl _)
  | @literal levels before t us ns nothing next ih =>
    intro ts front back hts
    have hnext := ih ts (front ++ [t]) back (by simp [hts])
    rw [List.length_append, List.length_singleton, Nat.add_assoc, Nat.add_comm 1] at hnext
    exact .plain rfl (hnext.of_le (Nat.le_succ _))
  | @refused before t us ns m found first box next ih =>
    intro ts front back hts
    have hnext := ih ts (front ++ [t]) back (by simp [hts])
    rw [List.length_append, List.length_singleton, Nat.add_assoc, Nat.add_comm 1] at hnext
    exact .plain rfl (hnext.of_le (Nat.le_succ _))
  | @leaf levels before us span rest ns m found split first covers plain next ih =>
    intro ts front back hts
    subst split
    have hnext := ih ts (front ++ span) back (by simp [hts])
    rw [List.length_append, Nat.add_assoc] at hnext
    rw [List.length_append]
    exact .plain plain (hnext.of_le (Nat.le_add_right _ _))
  | @container levels before us span rest content kind inner children ns m consumed split first
      covers nested next ihNested ihNext =>
    intro ts front back hts
    subst split
    obtain ⟨d, -, o, cl, rfl, -, hne, -⟩ := container_of_first? he hb first covers
    have hinner : ts = (front ++ [o]) ++ content ++ (cl :: (rest ++ back)) := by simp [hts]
    have hfront : (front ++ [o]).length = front.length + 1 := List.length_append
    have hspan : (o :: (content ++ [cl])).length = content.length + 2 := by simp
    have hfilled : 0 < content.length := List.length_pos_iff.mpr hne
    have hslice := extract_between (front ++ [o]) content (cl :: (rest ++ back))
    have hnested := (ihNested ts (front ++ [o]) _ hinner).finish e
    have hnext := ihNext ts (front ++ (o :: (content ++ [cl]))) back (by simp [hts])
    rw [hfront] at hnested
    rw [← hinner, hfront] at hslice
    rw [List.length_append, hspan, Nat.add_assoc] at hnext
    rw [List.length_append, hspan]
    exact .container (Nat.lt_succ_self _) (by omega) hslice.symm hnested (hnext.of_le (by omega))

/-! ### Places of containers -/

namespace Laid

variable {ts : List Token} {lo hi : Nat} {ns : List Node} {kind kind' : ContainerKind}
  {content content' : List Token} {children children' : List Node}

theorem exists_get (h : Laid ts lo hi ns) {k : Nat}
    (hget : ns[k]? = some (.container kind content children)) :
    ∃ i j, lo < i ∧ i < j ∧ j < hi ∧ content = ts.extract i j ∧ Laid ts i j children := by
  induction h generalizing k with
  | nil ordered => cases hget
  | plain leaf next ih =>
    cases k with
    | zero =>
      obtain rfl := Option.some.inj hget
      cases leaf
    | succ k => exact ih hget
  | container start filled slice nested next _ ih =>
    cases k with
    | zero =>
      obtain ⟨rfl, rfl, rfl⟩ := Node.container.inj (Option.some.inj hget)
      exact ⟨_, _, start, filled, next.le, slice, nested⟩
    | succ k =>
      obtain ⟨i, j, hstart, hrest⟩ := ih hget
      exact ⟨i, j, by omega, hrest⟩

/-- A container at any address is laid out. The induction is on the address. -/
theorem exists_within (h : Laid ts lo hi ns) {path : List Nat}
    (hat : nodeAt? ns path = some (.container kind content children)) :
    ∃ i j, lo < i ∧ i < j ∧ j < hi ∧ content = ts.extract i j ∧ Laid ts i j children := by
  induction path generalizing ns lo hi with
  | nil => cases hat
  | cons k path ih =>
    obtain ⟨n, hn, hat⟩ := Option.bind_eq_some_iff.mp hat
    cases path with
    | nil =>
      obtain rfl := Option.some.inj hat
      exact h.exists_get hn
    | cons k' path =>
      cases n with
      | container =>
        obtain ⟨i, j, hstart, -, hend, -, hinner⟩ := h.exists_get hn
        obtain ⟨i', j', hstart', hfilled', hend', hrest⟩ := ih hinner hat
        exact ⟨i', j', by omega, hfilled', by omega, hrest⟩
      | _ => cases hat

theorem inside (h : Laid ts lo hi ns) {path path' : List Nat} (hbelow : Below path path')
    (hat : nodeAt? ns path = some (.container kind content children))
    (hat' : nodeAt? ns path' = some (.container kind' content' children')) :
    ∃ i j i' j', content = ts.extract i j ∧ content' = ts.extract i' j' ∧ i < i' ∧ i' < j' ∧
      j' < j ∧ j < hi := by
  obtain ⟨k, rest, rfl⟩ := hbelow
  obtain ⟨i, j, -, -, hend, hslice, hinner⟩ := h.exists_within hat
  rw [nodeAt?_append hat] at hat'
  obtain ⟨i', j', hstart', hfilled', hend', hslice', -⟩ := hinner.exists_within hat'
  exact ⟨i, j, i', j', hslice, hslice', hstart', hfilled', hend', hend⟩

/-- Between any two nodes at the top there is a position that parts those before from those
behind. -/
theorem exists_split (h : Laid ts lo hi ns) (k : Nat) :
    ∃ mid, Laid ts lo mid (ns.take k) ∧ Laid ts mid hi (ns.drop k) := by
  induction h generalizing k with
  | nil ordered => exact ⟨_, by simpa using .nil (Nat.le_refl _), by simpa using .nil ordered⟩
  | @plain lo hi n ns leaf next ih =>
    cases k with
    | zero => exact ⟨lo, .nil (Nat.le_refl _), .plain leaf next⟩
    | succ k =>
      obtain ⟨mid, hfront, hback⟩ := ih k
      exact ⟨mid, .plain leaf hfront, hback⟩
  | @container lo hi i j kind content children ns start filled slice nested next _ ih =>
    cases k with
    | zero => exact ⟨lo, .nil (Nat.le_refl _), .container start filled slice nested next⟩
    | succ k =>
      obtain ⟨mid, hfront, hback⟩ := ih k
      exact ⟨mid, .container start filled slice nested hfront, hback⟩

/-- What is in or below a node further to the left ends before what is in or below one
further to the right starts. -/
theorem parted (h : Laid ts lo hi ns) {k k' : Nat} {rest rest' : List Nat} (hk : k < k')
    (hat : nodeAt? ns (k :: rest) = some (.container kind content children))
    (hat' : nodeAt? ns (k' :: rest') = some (.container kind' content' children')) :
    ∃ i j i' j', content = ts.extract i j ∧ content' = ts.extract i' j' ∧ i < j ∧ j + 1 < i' ∧
      i' < j' ∧ j' < hi := by
  obtain ⟨mid, hfront, hback⟩ := h.exists_split k'
  have hleft : nodeAt? (ns.take k') (k :: rest) = some (.container kind content children) := by
    rw [nodeAt?, List.getElem?_take_of_lt hk]
    exact hat
  have hright : nodeAt? (ns.drop k') (0 :: rest') = some (.container kind' content' children') := by
    rw [nodeAt?, List.getElem?_drop, Nat.add_zero]
    exact hat'
  obtain ⟨i, j, -, hfilled, hend, hslice, -⟩ := hfront.exists_within hleft
  obtain ⟨i', j', hstart', hfilled', hend', hslice', -⟩ := hback.exists_within hright
  exact ⟨i, j, i', j', hslice, hslice', hfilled, by omega, hfilled', hend'⟩

/-- What an address to the left leads to ends before what one to the right leads to starts. -/
theorem leftOf (h : Laid ts lo hi ns) {path path' : List Nat} (hleft : LeftOf path path')
    (hat : nodeAt? ns path = some (.container kind content children))
    (hat' : nodeAt? ns path' = some (.container kind' content' children')) :
    ∃ i j i' j', content = ts.extract i j ∧ content' = ts.extract i' j' ∧ i < j ∧ j + 1 < i' ∧
      i' < j' ∧ j' < hi := by
  obtain ⟨trunk, k, rest, k', rest', rfl, rfl, hk⟩ := hleft
  rcases List.eq_nil_or_concat trunk with rfl | ⟨_, _, rfl⟩
  · exact h.parted hk hat hat'
  · -- the addresses part below the node that the trunk leads to
    obtain ⟨n, hn⟩ := exists_nodeAt?_of_append (by simp) hat
    rw [nodeAt?_append hn] at hat hat'
    cases n with
    | container =>
      obtain ⟨i, j, -, -, hend, -, hinner⟩ := h.exists_within hn
      obtain ⟨a, b, a', b', hslice, hslice', hfilled, hparted, hfilled', hend'⟩ :=
        hinner.parted hk hat hat'
      exact ⟨a, b, a', b', hslice, hslice', hfilled, hparted, hfilled', by omega⟩
    | _ => cases hat

end Laid

/-- At an address stands a container, which holds the tokens from `i` up to `j`. Its span is
from `i - 1` to `j`, with the delimiters. -/
def StandsAt (source : String) (nodes : List Node) (path : List Nat) (i j : Nat) : Prop :=
  ∃ kind content children, nodeAt? nodes path = some (.container kind content children) ∧
    Stands source kind content children i j

/-- All containers at all depths stand in the note. The spans of two of them are apart, or
one is inside the content of the other, which is so exactly when one is below the other;
and spans are ordered as the addresses are, those of siblings in particular. -/
structure ContainersStand (source : String) (nodes : List Node) : Prop where
  stands : ∀ {path kind content children}, nodeAt? nodes path = some (.container kind content children) →
    ∃ i j, Stands source kind content children i j
  below_iff : ∀ {path path' i j i' j'}, StandsAt source nodes path i j →
    StandsAt source nodes path' i' j' → (Below path path' ↔ i < i' ∧ j' < j)
  apart_or_inside : ∀ {path path' i j i' j'}, path ≠ path' → StandsAt source nodes path i j →
    StandsAt source nodes path' i' j' →
    (j + 1 < i' ∨ j' + 1 < i) ∨ (i < i' ∧ j' < j) ∨ (i' < i ∧ j < j')
  ordered : ∀ {path path' i j i' j'}, LeftOf path path' → StandsAt source nodes path i j →
    StandsAt source nodes path' i' j' → j + 1 < i'

section Places

variable {source : String} {nodes : List Node}
  (hlaid : Laid (tokenize source) 0 (tokenize source).length nodes) {path path' : List Nat}
  {i j i' j' : Nat} (h : StandsAt source nodes path i j) (h' : StandsAt source nodes path' i' j')

include h h'

include hlaid in
theorem StandsAt.inside (hbelow : Below path path') : i < i' ∧ j' < j := by
  obtain ⟨kind, content, children, hat, hstands⟩ := h
  obtain ⟨kind', content', children', hat', hstands'⟩ := h'
  obtain ⟨a, b, a', b', hslice, hslice', hstart, hfilled, hend, hlength⟩ :=
    hlaid.inside hbelow hat hat'
  obtain ⟨rfl, rfl⟩ := hstands.place_unique hslice (by omega) (by omega)
  obtain ⟨rfl, rfl⟩ := hstands'.place_unique hslice' hfilled (by omega)
  exact ⟨hstart, hend⟩

include hlaid in
theorem StandsAt.leftOf (hleft : LeftOf path path') : j + 1 < i' := by
  obtain ⟨kind, content, children, hat, hstands⟩ := h
  obtain ⟨kind', content', children', hat', hstands'⟩ := h'
  obtain ⟨a, b, a', b', hslice, hslice', hfilled, hparted, hfilled', hlength⟩ :=
    hlaid.leftOf hleft hat hat'
  obtain ⟨rfl, rfl⟩ := hstands.place_unique hslice hfilled (by omega)
  obtain ⟨rfl, rfl⟩ := hstands'.place_unique hslice' hfilled' (by omega)
  exact hparted

theorem StandsAt.eq_of_path (hpath : path = path') : i = i' ∧ j = j' := by
  subst hpath
  obtain ⟨kind, content, children, hat, hstands⟩ := h
  obtain ⟨kind', content', children', hat', hstands'⟩ := h'
  obtain ⟨rfl, rfl, rfl⟩ := Node.container.inj (Option.some.inj (hat.symm.trans hat'))
  exact hstands.place_unique hstands'.slice hstands'.filled (Nat.le_of_lt hstands'.lt_length)

end Places

theorem StandsAt.filled {source : String} {nodes : List Node} {path : List Nat} {i j : Nat}
    (h : StandsAt source nodes path i j) : i < j := by
  obtain ⟨_, _, _, _, hstands⟩ := h
  exact hstands.filled

/-- Containers that stand in the note and are laid out along it stand in it one by one and
with each other. -/
theorem Laid.containersStand {source : String} {nodes : List Node}
    (h : Laid (tokenize source) 0 (tokenize source).length nodes)
    (hstands : ∀ n ∈ preorderAll nodes, ∀ kind content children,
      n = .container kind content children → ∃ i j, Stands source kind content children i j) :
    ContainersStand source nodes where
  stands hat := hstands _ (mem_preorderAll_iff_exists_nodeAt?.mpr ⟨_, hat⟩) _ _ _ rfl
  ordered hleft hat hat' := hat.leftOf h hat' hleft
  apart_or_inside {path path' i j i' j'} hne hat hat' := by
    rcases address_cases path path' with heq | hbelow | hbelow | hleft | hleft
    · exact absurd heq hne
    · exact .inr (.inl (hat.inside h hat' hbelow))
    · exact .inr (.inr (hat'.inside h hat hbelow))
    · exact .inl (.inl (hat.leftOf h hat' hleft))
    · exact .inl (.inr (hat'.leftOf h hat hleft))
  below_iff {path path' i j i' j'} hat hat' := by
    refine ⟨hat.inside h hat', fun hinside => ?_⟩
    have hfilled := hat.filled
    have hfilled' := hat'.filled
    -- all other ways of two addresses put the spans elsewhere
    rcases address_cases path path' with heq | hbelow | hbelow | hleft | hleft
    · have := hat.eq_of_path hat' heq
      omega
    · exact hbelow
    · have := hat'.inside h hat hbelow
      omega
    · have := hat.leftOf h hat' hleft
      omega
    · have := hat'.leftOf h hat hleft
      omega

theorem exists_parse_stands {e : Engine} (he : e.matchers ⊆ builtIns) (source : String) :
    ∃ nodes, (e.parse (tokenize source)).result = .ok nodes ∧ ContainersStand source nodes := by
  obtain ⟨ns, hreads, hparse⟩ := Engine.exists_reads he e.limit none (tokenize source)
  have hlaid := hreads.laid he boxedBy_builtIns (tokenize source) [] [] (by simp)
  rw [List.length_nil, Nat.zero_add] at hlaid
  exact ⟨e.finish ns, hparse, (hlaid.finish e).containersStand
    (hreads.exists_stands he List.infix_rfl)⟩

/-- **Every container stands in the note** between two of its markers, and its children are
written as what stands there. The spans of containers lie inside each other or apart, and in
order, exactly as the containers do. -/
theorem containers_stand :
    (∀ e : Engine, e.matchers ⊆ builtIns → ∀ source : String,
      ∃ nodes, (e.parse (tokenize source)).result = .ok nodes ∧ ContainersStand source nodes) ∧
    ∀ (source : String) (own : Option Settings) (ambient : Settings),
      (own.getD ambient).registryInUse.entries ⊆ Entry.builtIns →
      ∃ nodes, ((parseInline source own).run ambient).1.result = .ok (Node.storedAll nodes) ∧
        ContainersStand source nodes := by
  refine ⟨fun e he source => exists_parse_stands he source, fun source own ambient h => ?_⟩
  exact exists_parseInline (fun e he => exists_parse_stands he source) h

/-- Italic text in bold text stands in the note with the matchers in reverse order, and text
that is struck through does with the default settings. -/
theorem containers_stand_bold :
    (∃ nodes, (Engine.parse ⟨builtIns.reverse, 2, false⟩ (tokenize "**a *b* c**")).result = .ok nodes ∧
      ContainersStand "**a *b* c**" nodes) ∧
    ∃ nodes, ((parseInline "a ~~b~~").run {}).1.result = .ok (Node.storedAll nodes) ∧
      ContainersStand "a ~~b~~" nodes := by
  obtain ⟨hengine, hsettings⟩ := containers_stand
  exact ⟨hengine ⟨builtIns.reverse, 2, false⟩ (fun m hm => List.mem_reverse.mp hm) "**a *b* c**",
    hsettings "a ~~b~~" none {} (List.Subset.refl _)⟩

end InlineMarkup
