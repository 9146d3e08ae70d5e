/-
# What the constructs recognise

A construct is found at a position exactly when the tokens from there on start
with a span of its form (`Construct.attempt_eq_some_iff`). The form says which
tokens delimit the span, what may stand between them and which node is made of
it. Of what surrounds the span, only a tag asks: for the token before it, and for
a stop behind it.

So what a construct finds at a position depends on the token before the position
and on the tokens from it on, and on nothing else (`Construct.attempt_eq_recognise`).

Key definitions: `CloserRule.Closes`, `Bracketed`, `Construct.Forms`,
`Matcher.recognise`. Key theorems: `Construct.attempt_eq_some_iff`,
`Construct.attempt_eq_recognise`.
-/
import InlineMarkup.Proofs.Lookahead
import InlineMarkup.Matcher.Construct

namespace InlineMarkup

/-! ### Forms -/

/-- The content reaches up to the closer `c`: no token of it is a closer or is
forbidden. -/
def CloserRule.Closes (r : CloserRule) (content : List Token) (c : Token) : Prop :=
  (∀ t ∈ content, r.passes t = true) ∧ r.accepts c = true

/-- The rule for the bracket that closes a label. -/
def labelRule : CloserRule where
  closer := .rightBracket

/-- The rule for the parenthesis that closes an address. -/
def addressRule : CloserRule where
  closer := .rightParen
  allowSpace := false

/-- Spaces at the edges of the content are allowed, or there are none. -/
def Delimited.EdgesFit (d : Delimited) (content : List Token) : Prop :=
  d.allowEdgeSpace = true ∨
    (∀ t ∈ content.head?, t.type ≠ .space) ∧ ∀ t ∈ content.getLast?, t.type ≠ .space

/-- Whether a word may start behind a token, or at the start of the note. -/
def opensWord : Option Token → Bool
  | none => true
  | some t => t.type == .space || t.type == .newline

/-- A label in square brackets with an address in round ones directly behind. -/
inductive Bracketed : List Token → List Token → List Token → Prop
  | intro {lb rb lp rp : Token} {label url : List Token}
      (opens : lb.isMarker .leftBracket 1 = true) (closes : labelRule.Closes label rb)
      (turns : lp.isMarker .leftParen 1 = true) (filled : url ≠ [])
      (ends : addressRule.Closes url rp) :
      Bracketed (lb :: (label ++ rb :: lp :: (url ++ [rp]))) label url

/-- A span of the form of a construct, which stands behind `before` and in front
of `rest`, and the node made of it. -/
inductive Construct.Forms : Construct → Option Token → List Token → List Token → Node → Prop
  | delimited {d : Delimited} {before : Option Token} {o c : Token} {content rest : List Token}
      (opens : o.isMarker d.marker d.run = true) (filled : content ≠ [])
      (closes : d.closerRule.Closes content c) (edges : d.EdgesFit content) :
      Forms (.delimited d) before (o :: (content ++ [c])) rest (d.build content)
  | link {name : String} {before : Option Token} {span label url rest : List Token}
      (parts : Bracketed span label url) (filled : label ≠ []) :
      Forms (.link name) before span rest (.link (joinTokens label) (joinTokens url))
  | image {name : String} {before : Option Token} {mark : Token} {span label url rest : List Token}
      (opens : mark.isMarker .exclamation 1 = true) (parts : Bracketed span label url) :
      Forms (.image name) before (mark :: span) rest (.image (joinTokens label) (joinTokens url))
  | tag {name : String} {before : Option Token} {mark : Token} {word rest : List Token}
      (opens : mark.isMarker .hash 1 = true) (starts : opensWord before = true)
      (filled : word ≠ []) (goes : ∀ t ∈ word, t.type ∉ tagStops)
      (stops : ∀ t ∈ rest.head?, t.type ∈ tagStops) :
      Forms (.tag name) before (mark :: word) rest (.tag (joinTokens word))

/-! ### Markers and their types -/

namespace Token

variable {t : Token}

theorem type_of_isMarker {type : TokenType} {run : Int} (h : t.isMarker type run = true) :
    t.type = type :=
  (isMarker_iff.mp h).1

theorem isMarker_inj {a b : TokenType × Int} (ha : t.isMarker a.1 a.2 = true)
    (hb : t.isMarker b.1 b.2 = true) : a = b := by
  obtain ⟨htype, hrun⟩ := isMarker_iff.mp ha
  obtain ⟨htype', hrun'⟩ := isMarker_iff.mp hb
  exact Prod.ext (htype.symm.trans htype') (hrun.symm.trans hrun')

end Token

theorem eq_of_delimited_mem {d : Delimited} (hd : .delimited d ∈ builtInConstructs) :
    d = codeSpan ∨ d = wikiLink ∨ d = bold ∨ d = italic ∨ d = strikethrough ∨ d = highlight := by
  simpa [builtInConstructs] using hd

/-! ### Openers and closers in a view -/

namespace CloserRule

theorem Closes.inj {r : CloserRule} {content content' rest rest' : List Token} {c c' : Token}
    (h : r.Closes content c) (h' : r.Closes content' c')
    (he : content ++ c :: rest = content' ++ c' :: rest') :
    content = content' ∧ c = c' ∧ rest = rest' := by
  have h1 := (r.scan?_eq_some_iff 0 content.length (content ++ c :: rest)).mpr
    ⟨content, c, rest, rfl, h.1, h.2, (Nat.zero_add _).symm⟩
  have h2 := (r.scan?_eq_some_iff 0 content'.length (content ++ c :: rest)).mpr
    ⟨content', c', rest', he, h'.1, h'.2, (Nat.zero_add _).symm⟩
  have hlen : content.length = content'.length := Option.some.inj (h1.symm.trans h2)
  obtain ⟨hcontent, hrest⟩ := List.append_inj he hlen
  obtain ⟨hc, hr⟩ := List.cons.inj hrest
  exact ⟨hcontent, hc, hr⟩

end CloserRule

section Opened

variable {ts : List Token} {p : Nat} {o : Token} {content rest : List Token}

theorem extract_opened (hts : ts.drop p = o :: (content ++ rest)) :
    ts.extract (p + 1) (p + 1 + content.length) = content := by
  rw [List.extract_eq_take_drop, drop_succ_of_drop_eq hts, Nat.add_sub_cancel_left, List.take_left]

theorem ends_opened (hts : ts.drop p = o :: (content ++ rest)) (hne : content ≠ []) :
    ts[p + 1]? = content.head? ∧ ts[p + 1 + content.length - 1]? = content.getLast? := by
  have hafter : ts.drop (p + 1) = content ++ rest := drop_succ_of_drop_eq hts
  have hpos : 0 < content.length := List.length_pos_iff.mpr hne
  have hlast : p + 1 + content.length - 1 = p + 1 + (content.length - 1) := by omega
  constructor
  · rw [← List.head?_drop, hafter, List.head?_append_of_ne_nil content hne]
  · rw [hlast, ← List.getElem?_drop, hafter, List.getElem?_append_left (by omega),
      List.getLast?_eq_getElem?]

end Opened

namespace TokenView

variable {view : TokenView} {before : Option Token} {ts : List Token}

theorem Shows.opened_iff (h : view.Shows before ts) {p j : Nat} {type : TokenType} {run : Int}
    {r : CloserRule} :
    (view.isMarkerAt p type run = true ∧ view.closer? (p + 1) r = some j) ↔
      ∃ o content c rest, ts.drop p = o :: (content ++ c :: rest) ∧ o.isMarker type run = true ∧
        r.Closes content c ∧ j = p + 1 + content.length := by
  rw [h.isMarkerAt, h.closer, r.scan?_eq_some_iff, ← List.tail_drop]
  constructor
  · rintro ⟨ho, content, c, rest, hts, hpass, hacc, rfl⟩
    cases hd : ts.drop p with
    | nil => simp [hd] at hts
    | cons o after =>
      rw [hd] at ho hts
      exact ⟨o, content, c, rest, by rw [← hts, List.tail_cons], by simpa using ho, ⟨hpass, hacc⟩, rfl⟩
  · rintro ⟨o, content, c, rest, hts, ho, ⟨hpass, hacc⟩, rfl⟩
    rw [hts]
    exact ⟨by simpa using ho, content, c, rest, rfl, hpass, hacc, rfl⟩

theorem Shows.slice_opened (h : view.Shows before ts) {p n : Nat} {o : Token}
    {content rest : List Token} (hts : ts.drop p = o :: (content ++ rest))
    (hn : n = p + 1 + content.length) : view.slice (p + 1) n = content := by
  rw [h.slice, hn, ← List.extract_eq_take_drop, extract_opened hts]

theorem Shows.drop_of_isMarkerAt (h : view.Shows before ts) {p : Nat} {type : TokenType} {run : Int}
    {rest : List Token} (hm : view.isMarkerAt p type run = true) (hrest : ts.drop (p + 1) = rest) :
    ∃ o, o.isMarker type run = true ∧ ts.drop p = o :: rest := by
  rw [h.isMarkerAt] at hm
  cases hd : ts.drop p with
  | nil => simp [hd] at hm
  | cons o after =>
    obtain rfl : after = rest := (drop_succ_of_drop_eq hd).symm.trans hrest
    exact ⟨o, by simpa [hd] using hm, rfl⟩

theorem Shows.hasTypeAt (h : view.Shows before ts) (i : Nat) (type : TokenType) :
    view.hasTypeAt i type = (ts.drop i).head?.any fun t => t.type == type := by
  rw [TokenView.hasTypeAt, h.get?, List.head?_drop]

end TokenView

/-! ### Delimited constructs -/

section Delimited

variable {view : TokenView} {before : Option Token} {ts : List Token} {d : Delimited} {p : Nat}

theorem any_type_eq_false_iff {o : Option Token} {type : TokenType} :
    (o.any fun t => t.type == type) = false ↔ ∀ t ∈ o, t.type ≠ type := by
  cases o <;> simp

theorem edges_eq_false_iff (h : view.Shows before ts) {o : Token} {content rest : List Token}
    (hts : ts.drop p = o :: (content ++ rest)) (hne : content ≠ []) :
    (!d.allowEdgeSpace && (view.hasTypeAt (p + 1) .space ||
        view.hasTypeAt (p + 1 + content.length - 1) .space)) = false ↔ d.EdgesFit content := by
  obtain ⟨hfirst, hlast⟩ := ends_opened hts hne
  rw [h.hasTypeAt, h.hasTypeAt, List.head?_drop, List.head?_drop, hfirst, hlast,
    Bool.and_eq_false_iff, Bool.or_eq_false_iff, any_type_eq_false_iff, any_type_eq_false_iff,
    Bool.not_eq_false']
  rfl

/-- A delimited construct is found where its opener stands, its closer follows,
and what lies between is not empty and has no forbidden edge. -/
theorem Delimited.attempt_eq_some_iff (h : view.Shows before ts) {found : Match} :
    d.attempt view p = some found ↔ ∃ o content c rest, ts.drop p = o :: (content ++ c :: rest) ∧
      o.isMarker d.marker d.run = true ∧ content ≠ [] ∧ d.closerRule.Closes content c ∧
      d.EdgesFit content ∧
      found = { node := d.build content, consumed := (content.length + 2 : Nat) } := by
  constructor
  · intro ha
    rw [Delimited.attempt] at ha
    cases hm : view.isMarkerAt p d.marker d.run with
    | false => simp [hm] at ha
    | true =>
      cases hc : view.closer? (p + 1) d.closerRule with
      | none => simp [hm, hc] at ha
      | some close =>
        obtain ⟨o, content, c, rest, hts, ho, hcl, rfl⟩ := h.opened_iff.mp ⟨hm, hc⟩
        have hne : content ≠ [] := by
          rintro rfl
          simp [hm, hc] at ha
        have hclose : ¬ p + 1 + content.length = p + 1 := by
          have := List.length_pos_iff.mpr hne
          omega
        simp only [hm, hc, if_true, if_neg hclose, Option.ite_none_left_eq_some,
          Bool.not_eq_true, edges_eq_false_iff h hts hne] at ha
        obtain ⟨hedge, hfound⟩ := ha
        refine ⟨o, content, c, rest, hts, ho, hne, hcl, hedge, ?_⟩
        rw [← Option.some.inj hfound, h.slice_opened hts rfl]
        simp only [Match.mk.injEq, true_and]
        omega
  · rintro ⟨o, content, c, rest, hts, ho, hne, hcl, hedge, rfl⟩
    obtain ⟨hm, hc⟩ := h.opened_iff.mpr ⟨o, content, c, rest, hts, ho, hcl, rfl⟩
    have hclose : ¬ p + 1 + content.length = p + 1 := by
      have := List.length_pos_iff.mpr hne
      omega
    have he := (edges_eq_false_iff h hts hne).mpr hedge
    rw [Delimited.attempt, if_pos hm, hc]
    simp only [if_neg hclose, he, Bool.false_eq_true, if_false, h.slice_opened hts rfl,
      Option.some.injEq, Match.mk.injEq, true_and]
    omega

end Delimited

/-! ### Links and images -/

section Link

variable {view : TokenView} {before : Option Token} {ts : List Token} {p : Nat}

theorem labelEnd?_eq_some_iff (h : view.Shows before ts) {j : Nat} :
    labelEnd? view p = some j ↔ ∃ o label c rest, ts.drop p = o :: (label ++ c :: rest) ∧
      o.isMarker .leftBracket 1 = true ∧ labelRule.Closes label c ∧ j = p + 1 + label.length := by
  rw [← h.opened_iff, labelEnd?]
  exact Option.ite_none_right_eq_some

theorem address?_eq_some_iff (h : view.Shows before ts) {s : String} {j : Nat} :
    address? view p = some (s, j) ↔ ∃ o url c rest, ts.drop p = o :: (url ++ c :: rest) ∧
      o.isMarker .leftParen 1 = true ∧ url ≠ [] ∧ addressRule.Closes url c ∧
      s = joinTokens url ∧ j = p + url.length + 2 := by
  constructor
  · intro ha
    rw [address?] at ha
    cases hm : view.isMarkerAt p .leftParen 1 with
    | false => simp [hm] at ha
    | true =>
      cases hc : view.closer? (p + 1) addressRule with
      | none =>
        rw [addressRule] at hc
        simp [hm, hc] at ha
      | some close =>
        obtain ⟨o, url, c, rest, hts, ho, hcl, rfl⟩ := h.opened_iff.mp ⟨hm, hc⟩
        rw [addressRule] at hc
        simp only [hm, hc, if_true, Option.ite_none_left_eq_some, Option.some.injEq,
          Prod.mk.injEq, h.slice_opened hts rfl] at ha
        obtain ⟨hne, rfl, rfl⟩ := ha
        refine ⟨o, url, c, rest, hts, ho, ?_, hcl, rfl, by omega⟩
        rintro rfl
        exact hne rfl
  · rintro ⟨o, url, c, rest, hts, ho, hne, hcl, rfl, rfl⟩
    obtain ⟨hm, hc⟩ := h.opened_iff.mpr ⟨o, url, c, rest, hts, ho, hcl, rfl⟩
    have hclose : ¬ p + 1 + url.length = p + 1 := by
      have := List.length_pos_iff.mpr hne
      omega
    rw [addressRule] at hc
    rw [address?, if_pos hm, hc]
    simp only [if_neg hclose, h.slice_opened hts rfl, Option.some.injEq, Prod.mk.injEq, true_and]
    omega

theorem drop_behind {o c : Token} {content rest : List Token}
    (hts : ts.drop p = o :: (content ++ c :: rest)) :
    ts.drop (p + 1 + content.length + 1) = rest := by
  have hi : p + 1 + content.length + 1 = p + (content.length + 1 + 1) := by omega
  rw [hi, ← List.drop_drop, hts, List.drop_succ_cons, ← List.drop_drop, List.drop_left,
    List.drop_succ_cons, List.drop_zero]

theorem bracketed_iff (h : view.Shows before ts) {s : String} {close stop : Nat} :
    (labelEnd? view p = some close ∧ address? view (close + 1) = some (s, stop)) ↔
      ∃ span label url rest, ts.drop p = span ++ rest ∧ Bracketed span label url ∧
        s = joinTokens url ∧ close = p + 1 + label.length ∧ stop = p + span.length := by
  rw [labelEnd?_eq_some_iff h, address?_eq_some_iff h]
  constructor
  · rintro ⟨⟨lb, label, rb, after, hts, hlb, hlabel, rfl⟩, lp, url, rp, rest, hts', hlp, hne, hurl,
      rfl, rfl⟩
    rw [drop_behind hts] at hts'
    refine ⟨_, label, url, rest, ?_, .intro hlb hlabel hlp hne hurl, rfl, rfl, ?_⟩
    · rw [hts, hts']
      simp
    · simp only [List.length_cons, List.length_append, List.length_nil]
      omega
  · rintro ⟨_, label, url, rest, hts, ⟨hlb, hlabel, hlp, hne, hurl⟩, rfl, rfl, rfl⟩
    rename_i lb rb lp rp
    have hts' : ts.drop p = lb :: (label ++ rb :: lp :: (url ++ rp :: rest)) := by
      rw [hts]
      simp
    refine ⟨⟨lb, label, rb, _, hts', hlb, hlabel, rfl⟩,
      lp, url, rp, rest, drop_behind hts', hlp, hne, hurl, rfl, ?_⟩
    simp only [List.length_cons, List.length_append, List.length_nil]
    omega

theorem extract_label {span label url rest : List Token} (hts : ts.drop p = span ++ rest)
    (parts : Bracketed span label url) : ts.extract (p + 1) (p + 1 + label.length) = label := by
  obtain ⟨-, -, -, -, -⟩ := parts
  rw [List.cons_append, List.append_assoc] at hts
  exact extract_opened hts

theorem slice_label (h : view.Shows before ts) {span label url rest : List Token}
    (hts : ts.drop p = span ++ rest) (parts : Bracketed span label url) :
    view.slice (p + 1) (p + 1 + label.length) = label := by
  rw [h.slice, ← List.extract_eq_take_drop, extract_label hts parts]

theorem linkAttempt_eq_some_iff (h : view.Shows before ts) {found : Match} :
    linkAttempt view p = some found ↔ ∃ span label url rest, ts.drop p = span ++ rest ∧
      Bracketed span label url ∧ label ≠ [] ∧
      found = { node := .link (joinTokens label) (joinTokens url), consumed := span.length } := by
  constructor
  · intro ha
    rw [linkAttempt] at ha
    cases hl : labelEnd? view p with
    | none => simp [hl] at ha
    | some close =>
      cases hu : address? view (close + 1) with
      | none => simp [hl, hu] at ha
      | some urlStop =>
        obtain ⟨s, stop⟩ := urlStop
        obtain ⟨span, label, url, rest, hts, parts, rfl, rfl, rfl⟩ :=
          (bracketed_iff h).mp ⟨hl, hu⟩
        simp only [hl, hu, Option.ite_none_left_eq_some, Option.some.injEq,
          slice_label h hts parts] at ha
        obtain ⟨hne, rfl⟩ := ha
        refine ⟨span, label, url, rest, hts, parts, ?_, ?_⟩
        · rintro rfl
          exact hne rfl
        · simp only [Match.mk.injEq, true_and]
          omega
  · rintro ⟨span, label, url, rest, hts, parts, hne, rfl⟩
    obtain ⟨hl, hu⟩ := (bracketed_iff h).mpr ⟨span, label, url, rest, hts, parts, rfl, rfl, rfl⟩
    have hclose : ¬ p + 1 + label.length = p + 1 := by
      have := List.length_pos_iff.mpr hne
      omega
    rw [linkAttempt, hl]
    simp only [hu, if_neg hclose, slice_label h hts parts, Option.some.injEq, Match.mk.injEq,
      true_and]
    omega

theorem imageAttempt_eq_some_iff (h : view.Shows before ts) {found : Match} :
    imageAttempt view p = some found ↔ ∃ mark span label url rest,
      ts.drop p = mark :: (span ++ rest) ∧ mark.isMarker .exclamation 1 = true ∧
      Bracketed span label url ∧
      found = { node := .image (joinTokens label) (joinTokens url), consumed := (span.length + 1 : Nat) } := by
  constructor
  · intro ha
    rw [imageAttempt] at ha
    cases hm : view.isMarkerAt p .exclamation 1 with
    | false => simp [hm] at ha
    | true =>
      cases hl : labelEnd? view (p + 1) with
      | none => simp [hm, hl] at ha
      | some close =>
        cases hu : address? view (close + 1) with
        | none => simp [hm, hl, hu] at ha
        | some urlStop =>
          obtain ⟨s, stop⟩ := urlStop
          obtain ⟨span, label, url, rest, hts, parts, rfl, rfl, rfl⟩ :=
            (bracketed_iff h).mp ⟨hl, hu⟩
          have hslice := slice_label h hts parts
          obtain ⟨mark, hmark, hts⟩ := h.drop_of_isMarkerAt hm hts
          simp only [hm, hl, hu, if_true, Option.some.injEq, hslice] at ha
          refine ⟨mark, span, label, url, rest, hts, hmark, parts, ?_⟩
          rw [← ha, Match.mk.injEq]
          exact ⟨rfl, by omega⟩
  · rintro ⟨mark, span, label, url, rest, hts, hmark, parts, rfl⟩
    have hm : view.isMarkerAt p .exclamation 1 = true := by simp [h.isMarkerAt, hts, hmark]
    have hts' : ts.drop (p + 1) = span ++ rest := drop_succ_of_drop_eq hts
    obtain ⟨hl, hu⟩ := (bracketed_iff h).mpr ⟨span, label, url, rest, hts', parts, rfl, rfl, rfl⟩
    have hslice := slice_label h hts' parts
    rw [imageAttempt, if_pos hm, hl]
    simp only [hu, hslice, Option.some.injEq, Match.mk.injEq, true_and]
    omega

end Link

/-! ### Tags -/

section Tag

variable {view : TokenView} {before : Option Token} {ts : List Token} {p : Nat}

theorem firstFrom_eq (q : Token → Bool) (tokens : Array Token) (i : Nat) :
    firstFrom q tokens i = i + (tokens.toList.drop i).findIdx q := by
  fun_induction firstFrom q tokens i with
  | case1 i h hq =>
    have hd : tokens.toList.drop i = tokens[i] :: tokens.toList.drop (i + 1) := by
      rw [List.drop_eq_getElem_cons (by simpa using h), Array.getElem_toList]
    simp [hd, List.findIdx_cons, hq]
  | case2 i h hq ih =>
    have hd : tokens.toList.drop i = tokens[i] :: tokens.toList.drop (i + 1) := by
      rw [List.drop_eq_getElem_cons (by simpa using h), Array.getElem_toList]
    simp only [hd, List.findIdx_cons, hq, ih, cond_false]
    omega
  | case3 i h =>
    have hd : tokens.toList.drop i = [] := List.drop_eq_nil_of_le (by simpa using h)
    simp [hd]

/-- A list is a word without stops and a rest that starts with a stop, if it is not
empty. -/
theorem exists_word (q : Token → Bool) : ∀ ts : List Token, ∃ word rest, ts = word ++ rest ∧
    (∀ t ∈ word, q t = false) ∧ ∀ t ∈ rest.head?, q t = true
  | [] => ⟨[], [], rfl, by simp, by simp⟩
  | t :: ts => by
    cases ht : q t with
    | true => exact ⟨[], t :: ts, rfl, by simp, by simpa using ht⟩
    | false =>
      obtain ⟨word, rest, rfl, hw, hr⟩ := exists_word q ts
      exact ⟨t :: word, rest, rfl, List.forall_mem_cons.mpr ⟨ht, hw⟩, hr⟩

theorem findIdx_word {q : Token → Bool} {word rest : List Token} (hw : ∀ t ∈ word, q t = false)
    (hr : ∀ t ∈ rest.head?, q t = true) : (word ++ rest).findIdx q = word.length := by
  have hword : word.findIdx q = word.length := List.findIdx_eq_length_of_false hw
  have hrest : rest.findIdx q = 0 := by
    cases rest with
    | nil => rfl
    | cons t rest => simp [List.findIdx_cons, hr t rfl]
  rw [List.findIdx_append, hword, if_neg (Nat.lt_irrefl _), hrest, Nat.zero_add]

theorem startsWord_eq (h : view.Shows before ts) (p : Nat) :
    startsWord view p = opensWord (precedes before ts p) := by
  rw [startsWord, h.tokenBefore?]
  rfl

theorem contains_tagStops_iff {type : TokenType} : tagStops.contains type = true ↔ type ∈ tagStops :=
  List.contains_iff_mem

theorem wordEnd_eq (h : view.Shows before ts) {mark : Token} {word rest : List Token}
    (hts : ts.drop p = mark :: (word ++ rest)) (hw : ∀ t ∈ word, t.type ∉ tagStops)
    (hr : ∀ t ∈ rest.head?, t.type ∈ tagStops) :
    view.wordEnd (p + 1) tagStops = p + 1 + word.length := by
  have hafter : ts.drop (p + 1) = word ++ rest := drop_succ_of_drop_eq hts
  rw [TokenView.wordEnd, firstFrom_eq, h.tokens, hafter, findIdx_word]
  · exact fun t ht => by simpa using mt contains_tagStops_iff.mp (hw t ht)
  · exact fun t ht => contains_tagStops_iff.mpr (hr t ht)

theorem tagAttempt_eq_some_iff (h : view.Shows before ts) {found : Match} :
    tagAttempt view p = some found ↔ ∃ mark word rest, ts.drop p = mark :: (word ++ rest) ∧
      mark.isMarker .hash 1 = true ∧ opensWord (precedes before ts p) = true ∧ word ≠ [] ∧
      (∀ t ∈ word, t.type ∉ tagStops) ∧ (∀ t ∈ rest.head?, t.type ∈ tagStops) ∧
      found = { node := .tag (joinTokens word), consumed := (word.length + 1 : Nat) } := by
  constructor
  · intro ha
    rw [tagAttempt, startsWord_eq h] at ha
    cases hm : view.isMarkerAt p .hash 1 with
    | false => simp [hm] at ha
    | true =>
      obtain ⟨word, rest, hafter, hw, hr⟩ :=
        exists_word (fun t => tagStops.contains t.type) (ts.drop (p + 1))
      obtain ⟨mark, hmark, hts⟩ := h.drop_of_isMarkerAt hm hafter
      have hw' : ∀ t ∈ word, t.type ∉ tagStops := fun t ht hmem =>
        Bool.eq_false_iff.mp (hw t ht) (contains_tagStops_iff.mpr hmem)
      have hr' : ∀ t ∈ rest.head?, t.type ∈ tagStops := fun t ht =>
        contains_tagStops_iff.mp (hr t ht)
      simp only [hm, Bool.true_and, wordEnd_eq h hts hw' hr', h.slice_opened hts rfl,
        Option.ite_none_right_eq_some, Option.ite_none_left_eq_some, Option.some.injEq] at ha
      obtain ⟨hopen, hne, rfl⟩ := ha
      refine ⟨mark, word, rest, hts, hmark, hopen, ?_, hw', hr', ?_⟩
      · rintro rfl
        exact hne rfl
      · rw [Match.mk.injEq]
        exact ⟨rfl, by omega⟩
  · rintro ⟨mark, word, rest, hts, hmark, hopen, hne, hw, hr, rfl⟩
    have hm : view.isMarkerAt p .hash 1 = true := by simp [h.isMarkerAt, hts, hmark]
    have hstop : ¬ p + 1 + word.length = p + 1 := by
      have := List.length_pos_iff.mpr hne
      omega
    rw [tagAttempt, startsWord_eq h, hm, hopen]
    simp only [Bool.true_and, if_true, wordEnd_eq h hts hw hr, if_neg hstop, h.slice_opened hts rfl,
      Option.some.injEq, Match.mk.injEq, true_and]
    omega

end Tag

/-! ### All constructs -/

section All

variable {view : TokenView} {before : Option Token} {ts : List Token} {p : Nat}

/-- **A construct is found exactly where a span of its form starts.** -/
theorem Construct.attempt_eq_some_iff (c : Construct) (h : view.Shows before ts) {found : Match} :
    c.matcher.attempt view p = some found ↔ ∃ span rest, ts.drop p = span ++ rest ∧
      c.Forms (precedes before ts p) span rest found.node ∧ found.consumed = span.length := by
  cases c with
  | delimited d =>
    refine (d.attempt_eq_some_iff h).trans ⟨?_, ?_⟩
    · rintro ⟨o, content, c, rest, hts, ho, hne, hcl, hedge, rfl⟩
      refine ⟨o :: (content ++ [c]), rest, by simp [hts], .delimited ho hne hcl hedge, ?_⟩
      rw [List.length_cons, List.length_append, List.length_singleton]
    · rintro ⟨span, rest, hts, hform, hlen⟩
      obtain ⟨node, consumed⟩ := found
      cases hform with
      | delimited ho hne hcl hedge =>
        refine ⟨_, _, _, rest, by simpa using hts, ho, hne, hcl, hedge, ?_⟩
        rw [List.length_cons, List.length_append, List.length_singleton] at hlen
        exact (Match.mk.injEq ..).mpr ⟨rfl, hlen⟩
  | link name =>
    refine (linkAttempt_eq_some_iff h).trans ⟨?_, ?_⟩
    · rintro ⟨span, label, url, rest, hts, parts, hne, rfl⟩
      exact ⟨span, rest, hts, .link parts hne, rfl⟩
    · rintro ⟨span, rest, hts, hform, hlen⟩
      obtain ⟨node, consumed⟩ := found
      cases hform with
      | link parts hne => exact ⟨span, _, _, rest, hts, parts, hne, by simpa using hlen⟩
  | image name =>
    refine (imageAttempt_eq_some_iff h).trans ⟨?_, ?_⟩
    · rintro ⟨mark, span, label, url, rest, hts, hmark, parts, rfl⟩
      exact ⟨mark :: span, rest, hts, .image hmark parts, rfl⟩
    · rintro ⟨span, rest, hts, hform, hlen⟩
      obtain ⟨node, consumed⟩ := found
      cases hform with
      | image hmark parts => exact ⟨_, _, _, _, rest, hts, hmark, parts, by simpa using hlen⟩
  | tag name =>
    refine (tagAttempt_eq_some_iff h).trans ⟨?_, ?_⟩
    · rintro ⟨mark, word, rest, hts, hmark, hopen, hne, hw, hr, rfl⟩
      exact ⟨mark :: word, rest, hts, .tag hmark hopen hne hw hr, rfl⟩
    · rintro ⟨span, rest, hts, hform, hlen⟩
      obtain ⟨node, consumed⟩ := found
      cases hform with
      | tag hmark hopen hne hw hr =>
        exact ⟨_, _, rest, hts, hmark, hopen, hne, hw, hr, by simpa using hlen⟩

/-- Around a span other tokens may stand: only a tag looks at them, and all it asks is
that a word may start before the span and that the word ends with it. -/
theorem Construct.Forms.of_context {c : Construct} {before before' : Option Token}
    {span rest rest' : List Token} {node : Node} (h : c.Forms before span rest node)
    (hbefore : opensWord before = true → opensWord before' = true)
    (hrest : (∀ t ∈ rest.head?, t.type ∈ tagStops) → ∀ t ∈ rest'.head?, t.type ∈ tagStops) :
    c.Forms before' span rest' node := by
  cases h with
  | delimited opens filled closes edges => exact .delimited opens filled closes edges
  | link parts filled => exact .link parts filled
  | image opens parts => exact .image opens parts
  | tag opens starts filled goes stops =>
    exact .tag opens (hbefore starts) filled goes (hrest stops)

/-- What a matcher finds in front of the tokens `rest` that follow `before`. -/
def Matcher.recognise (m : Matcher) (before : Option Token) (rest : List Token) : Option Match :=
  m.attempt (.indexed (TokenSeq.ofList rest before)) 0

theorem Construct.recognise_eq_some_iff (c : Construct) {before : Option Token} {ts : List Token}
    {found : Match} : c.matcher.recognise before ts = some found ↔ ∃ span rest, ts = span ++ rest ∧
      c.Forms before span rest found.node ∧ found.consumed = span.length :=
  c.attempt_eq_some_iff (TokenView.shows_ofList ts before)

theorem Construct.Forms.recognise {c : Construct} {before : Option Token} {span rest : List Token}
    {node : Node} (h : c.Forms before span rest node) :
    c.matcher.recognise before (span ++ rest) = some ⟨node, span.length⟩ :=
  c.recognise_eq_some_iff.mpr ⟨span, rest, rfl, h, rfl⟩

/-- **A construct looks no further back than one token.** What it finds at a
position is what it finds in front of the tokens from there on. -/
theorem Construct.attempt_eq_recognise (c : Construct) (h : view.Shows before ts) (p : Nat) :
    c.matcher.attempt view p = c.matcher.recognise (precedes before ts p) (ts.drop p) :=
  Option.ext fun _ => (c.attempt_eq_some_iff h).trans c.recognise_eq_some_iff.symm

end All

end InlineMarkup
