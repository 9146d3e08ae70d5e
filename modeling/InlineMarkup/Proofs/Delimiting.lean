/-
# Text between delimiters

Tokens reach from an opener up to a closer exactly when their text is one that may
stand between the two: it is of one line, does not grow into the delimiters, and
holds no run of the closing character that is as long as the closer (`Between`).
One way this is read off the tokens of a note (`between_of_closes`), the other way
the tokens are those of the delimiters and of the text (`tokensFrom_between`).

Key definitions: `OneLine`, `NoSpace`, `Between`, `CloserRule.IsFor`.
Key theorems: `passes_iff_chars`, `between_of_closes`, `tokensFrom_between`.
-/
import InlineMarkup.Proofs.Recognition
import InlineMarkup.Proofs.Tokenization

namespace InlineMarkup

/-! ### Characters of a field -/

/-- A text without line breaks. -/
def OneLine (cs : List Char) : Prop :=
  '\n' ∉ cs ∧ '\r' ∉ cs

/-- A text without blanks, tabs, form feeds and vertical tabs. -/
def NoSpace (cs : List Char) : Prop :=
  ' ' ∉ cs ∧ '\t' ∉ cs ∧ '\x0c' ∉ cs ∧ '\x0b' ∉ cs

/-- A text that may stand between `k` times `x` and `k` times `y`: it is of one line,
adds nothing to either run, and holds no run that is like the closing one. -/
structure Between (x y : Char) (k : Nat) (cs : List Char) : Prop where
  line : OneLine cs
  head : cs.head? ≠ some x
  last : cs.getLast? ≠ some y
  run : ¬ HasRun y k cs

instance (cs : List Char) : Decidable (OneLine cs) :=
  inferInstanceAs (Decidable (_ ∧ _))

instance (cs : List Char) : Decidable (NoSpace cs) :=
  inferInstanceAs (Decidable (_ ∧ _))

theorem hasRun_iff_exists_lt {x : Char} {k : Nat} {cs : List Char} : HasRun x k cs ↔
    ∃ i < cs.length + 1, (cs.drop i).take k = List.replicate k x ∧
      (cs.take i).getLast? ≠ some x ∧ (cs.drop (i + k)).head? ≠ some x := by
  constructor
  · rintro ⟨front, back, rfl, hfront, hback⟩
    have hlen : front.length < (front ++ (List.replicate k x ++ back)).length + 1 := by
      rw [List.length_append]
      omega
    refine ⟨front.length, hlen, ?_, ?_, ?_⟩
    · rw [List.drop_left, List.take_left' List.length_replicate]
    · rwa [List.take_left]
    · rwa [← List.drop_drop, List.drop_left, List.drop_left' List.length_replicate]
  · rintro ⟨i, -, hrun, hfront, hback⟩
    refine ⟨cs.take i, cs.drop (i + k), ?_, hfront, hback⟩
    rw [← hrun, ← List.drop_drop, List.take_append_drop, List.take_append_drop]

instance (x : Char) (k : Nat) (cs : List Char) : Decidable (HasRun x k cs) :=
  decidable_of_iff _ hasRun_iff_exists_lt.symm

instance (x y : Char) (k : Nat) (cs : List Char) : Decidable (Between x y k cs) :=
  decidable_of_iff
    (OneLine cs ∧ cs.head? ≠ some x ∧ cs.getLast? ≠ some y ∧ ¬ HasRun y k cs)
    ⟨fun ⟨hline, hhead, hlast, hrun⟩ => ⟨hline, hhead, hlast, hrun⟩,
      fun ⟨hline, hhead, hlast, hrun⟩ => ⟨hline, hhead, hlast, hrun⟩⟩

theorem mem_charsOf {ts : List Token} {c : Char} :
    c ∈ charsOf ts ↔ ∃ t ∈ ts, c ∈ t.value.toList :=
  List.mem_flatMap

theorem forall_type_ne_iff {ts : List Token} (h : ∀ t ∈ ts, t.WellFormed) {type : TokenType} :
    (∀ t ∈ ts, t.type ≠ type) ↔ ∀ c ∈ charsOf ts, TokenType.ofChar c ≠ type := by
  constructor
  · intro htypes c hc
    obtain ⟨t, ht, hct⟩ := mem_charsOf.mp hc
    rw [(h t ht).chars c hct]
    exact htypes t ht
  · intro hchars t ht
    obtain ⟨c, cs, hv⟩ := List.exists_cons_of_ne_nil (h t ht).filled
    have hc : c ∈ t.value.toList := hv ▸ List.mem_cons_self
    rw [← (h t ht).chars c hc]
    exact hchars c (mem_charsOf.mpr ⟨t, ht, hc⟩)

theorem oneLine_iff {cs : List Char} :
    OneLine cs ↔ ∀ c ∈ cs, TokenType.ofChar c ≠ .newline := by
  simp only [OneLine, ne_eq, TokenType.ofChar_eq_newline_iff]
  constructor
  · rintro ⟨hn, hr⟩ c hc (rfl | rfl)
    · exact hn hc
    · exact hr hc
  · intro h
    exact ⟨fun hn => h _ hn (.inl rfl), fun hr => h _ hr (.inr rfl)⟩

theorem noSpace_iff {cs : List Char} :
    NoSpace cs ↔ ∀ c ∈ cs, TokenType.ofChar c ≠ .space := by
  simp only [NoSpace, ne_eq, TokenType.ofChar_eq_space_iff]
  constructor
  · rintro ⟨h1, h2, h3, h4⟩ c hc (rfl | rfl | rfl | rfl)
    · exact h1 hc
    · exact h2 hc
    · exact h3 hc
    · exact h4 hc
  · intro h
    exact ⟨fun h1 => h _ h1 (.inl rfl), fun h2 => h _ h2 (.inr (.inl rfl)),
      fun h3 => h _ h3 (.inr (.inr (.inl rfl))), fun h4 => h _ h4 (.inr (.inr (.inr rfl)))⟩

/-- A maximal run of a markup character is a token of any cut of the text. -/
theorem IsCut.hasRun_iff {offset : Int} {ts : List Token} (h : IsCut offset ts) {type : TokenType}
    {x : Char} (hx : type.markChar? = some x) {k : Nat} (hk : 0 < k) :
    HasRun x k (charsOf ts) ↔ ∃ t ∈ ts, t.isMarker type k = true := by
  have htokens : tokensFrom 0 (charsOf ts) = ts.map (Token.shift (-offset)) := by
    have htokenize := h.tokenize_joinTokens
    rwa [tokenize, toList_joinTokens] at htokenize
  rw [InlineMarkup.hasRun_iff hx hk 0, htokens]
  constructor
  · rintro ⟨u, hu, hmark⟩
    obtain ⟨t, ht, rfl⟩ := List.mem_map.mp hu
    exact ⟨t, ht, hmark⟩
  · rintro ⟨t, ht, hmark⟩
    exact ⟨t.shift (-offset), List.mem_map_of_mem ht, hmark⟩

/-! ### Rules for one closing run -/

/-- A rule that looks for `k` times `y` on the same line. -/
structure CloserRule.IsFor (r : CloserRule) (y : Char) (k : Nat) : Prop where
  closer : r.closer.markChar? = some y
  run : r.run = k
  pos : 0 < k
  line : r.allowNewline = false

section Rule

variable {r : CloserRule} {x y : Char} {k : Nat} {type : TokenType}

theorem passes_iff_chars (hr : r.IsFor y k) {offset : Int} {ts : List Token} (h : IsCut offset ts) :
    (∀ t ∈ ts, r.passes t = true) ↔ OneLine (charsOf ts) ∧ ¬ HasRun y k (charsOf ts) ∧
      (r.allowSpace = false → NoSpace (charsOf ts)) := by
  rw [oneLine_iff, ← forall_type_ne_iff h.wellFormed, h.hasRun_iff hr.closer hr.pos, noSpace_iff,
    ← forall_type_ne_iff h.wellFormed]
  have haccepts : ∀ t, r.accepts t = t.isMarker r.closer k := fun t => hr.run ▸ rfl
  constructor
  · intro hpass
    refine ⟨fun t ht => ?_, ?_, fun hspace t ht => ?_⟩
    · exact (CloserRule.passes_iff.mp (hpass t ht)).2.1 hr.line
    · rintro ⟨t, ht, hmark⟩
      have hother := (CloserRule.passes_iff.mp (hpass t ht)).1
      rw [haccepts, hmark] at hother
      cases hother
    · exact (CloserRule.passes_iff.mp (hpass t ht)).2.2 hspace
  · rintro ⟨hline, hrun, hspace⟩ t ht
    refine CloserRule.passes_iff.mpr ⟨?_, fun _ => hline t ht, fun hs => hspace hs t ht⟩
    rw [haccepts]
    exact Bool.eq_false_iff.mpr fun hmark => hrun ⟨t, ht, hmark⟩

/-- What stands next to a marker does not begin or end with its character. -/
theorem edges_of_isCut {offset : Int} {o cl : Token} {content : List Token}
    (h : IsCut offset (o :: (content ++ [cl]))) (hx : o.type.markChar? = some x)
    (hy : cl.type.markChar? = some y) :
    (charsOf content).head? ≠ some x ∧ (charsOf content).getLast? ≠ some y := by
  obtain ⟨-, -, hopen, hrest⟩ := isCut_cons.mp h
  obtain ⟨hcontent, -, hclose⟩ := isCut_append.mp hrest
  constructor
  · intro hhead
    have htypes := map_head?_charsOf hcontent.wellFormed
    rw [hhead, Option.map_some, TokenType.ofChar_of_markChar? hx] at htypes
    obtain ⟨t, ht, htype⟩ := Option.map_eq_some_iff.mp htypes.symm
    have hnext : t ∈ (content ++ [cl]).head? := by
      rw [List.head?_append, ht]
      rfl
    exact TokenType.ne_newline_of_markChar? hx (hopen t hnext htype.symm)
  · intro hlast
    have htypes := map_getLast?_charsOf hcontent.wellFormed
    rw [hlast, Option.map_some, TokenType.ofChar_of_markChar? hy] at htypes
    obtain ⟨t, ht, htype⟩ := Option.map_eq_some_iff.mp htypes.symm
    have hnew := hclose t ht cl rfl htype
    exact TokenType.ne_newline_of_markChar? hy (htype ▸ hnew)

/-- **Between an opener and its closer stands a text that may stand there.** -/
theorem between_of_closes (hr : r.IsFor y k) {offset : Int} {o cl : Token} {content : List Token}
    (hcut : IsCut offset (o :: (content ++ [cl]))) (hx : o.type.markChar? = some x)
    (h : r.Closes content cl) : Between x y k (charsOf content) ∧
      (r.allowSpace = false → NoSpace (charsOf content)) := by
  have hslice : content <:+: o :: (content ++ [cl]) := ⟨[o], [cl], by simp⟩
  obtain ⟨offset', hcontent⟩ := hcut.of_slice hslice
  obtain ⟨hline, hrun, hspace⟩ := (passes_iff_chars hr hcontent).mp h.1
  have hcl : cl.type = r.closer := Token.type_of_isMarker h.2
  obtain ⟨hhead, hlast⟩ := edges_of_isCut hcut hx (hcl ▸ hr.closer)
  exact ⟨⟨hline, hhead, hlast, hrun⟩, hspace⟩

/-- **The tokens of a text between delimiters** are the opener, the tokens of the text and
the closer, and then those of what stands behind. -/
theorem tokensFrom_between (hr : r.IsFor y k) (hx : type.markChar? = some x) {cs : List Char}
    (h : Between x y k cs) (hspace : r.allowSpace = false → NoSpace cs) (hne : cs ≠ [] ∨ y ≠ x)
    (back : List Char) (hback : back.head? ≠ some y) (offset : Nat) : ∃ o cl offset',
      tokensFrom offset (List.replicate k x ++ (cs ++ (List.replicate k y ++ back))) =
        o :: (tokensFrom (offset + k) cs ++ cl :: tokensFrom offset' back) ∧
      o.isMarker type k = true ∧ r.Closes (tokensFrom (offset + k) cs) cl := by
  have hmark : ∀ (type : TokenType) (x : Char) (place : Int),
      (Token.mk type (String.ofList (List.replicate k x)) place).isMarker type k = true := by
    intro type x place
    simp [Token.isMarker, Token.length]
  have hbehind : (cs ++ (List.replicate k y ++ back)).head? ≠ some x := by
    cases cs with
    | nil =>
      obtain ⟨n, rfl⟩ := Nat.exists_eq_succ_of_ne_zero (Nat.ne_of_gt hr.pos)
      simpa [List.replicate_succ] using hne
    | cons c cs => exact h.head
  have hopen := tokensFrom_marker hx offset hr.pos hbehind
  have hclose := tokensFrom_around hr.closer (offset + k) hr.pos h.last hback
  have hcut := isCut_tokensFrom (offset + k) cs
  have hpass := passes_iff_chars hr hcut
  rw [charsOf_tokensFrom] at hpass
  refine ⟨_, _, _, hopen.trans (congrArg _ hclose), hmark type x _, ?_, ?_⟩
  · exact hpass.mpr ⟨h.line, h.run, hspace⟩
  · have haccepts := hmark r.closer y ((offset + k + cs.length : Nat) : Int)
    rw [← hr.run] at haccepts
    exact haccepts

end Rule

end InlineMarkup
