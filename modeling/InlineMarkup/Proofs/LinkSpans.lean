/-
# Links and images by their brackets

A link and an image are the same four marks: a bracket opens the label, the first closing bracket
behind it ends the label, a parenthesis opens the address directly behind, and the first closing
parenthesis ends the address (`BracketsAt`). Where the marks stand decides all that is found, text,
address and number of tokens (`links_and_images`).

The two part ways in one point. A link asks for a token between its brackets, an image does not.
So where there is one, an image is found exactly behind an exclamation mark in front of a link.

Key definitions: `BracketsAt`.
Key theorems: `bracketsAt_iff`, `linkAttempt_eq_some_iff_bracketsAt`,
`imageAttempt_eq_some_iff_bracketsAt`, `links_and_images`.
-/
import InlineMarkup.Proofs.FirstClosers

namespace InlineMarkup

/-- A label that opens at index `start` and ends at index `close`, and directly behind it an
address that is not empty and ends at index `stop`. No line break stands in either, and no space in
the address. -/
structure BracketsAt (ts : List Token) (start close stop : Nat) : Prop where
  opens : MarkAt ts start .leftBracket 1
  closes : FirstMark ts (start + 1) close .rightBracket 1
  line : FreeOf ts (start + 1) close .newline
  turns : MarkAt ts (close + 1) .leftParen 1
  ends : FirstMark ts (close + 2) stop .rightParen 1
  filled : close + 2 < stop
  unbroken : FreeOf ts (close + 2) stop .newline
  unspaced : FreeOf ts (close + 2) stop .space

instance (ts : List Token) (start close stop : Nat) : Decidable (BracketsAt ts start close stop) :=
  decidable_of_iff (MarkAt ts start .leftBracket 1 ∧
      FirstMark ts (start + 1) close .rightBracket 1 ∧ FreeOf ts (start + 1) close .newline ∧
      MarkAt ts (close + 1) .leftParen 1 ∧ FirstMark ts (close + 2) stop .rightParen 1 ∧
      close + 2 < stop ∧ FreeOf ts (close + 2) stop .newline ∧ FreeOf ts (close + 2) stop .space)
    ⟨fun ⟨hopens, hcloses, hline, hturns, hends, hfilled, hunbroken, hunspaced⟩ =>
      ⟨hopens, hcloses, hline, hturns, hends, hfilled, hunbroken, hunspaced⟩,
      fun ⟨hopens, hcloses, hline, hturns, hends, hfilled, hunbroken, hunspaced⟩ =>
      ⟨hopens, hcloses, hline, hturns, hends, hfilled, hunbroken, hunspaced⟩⟩

section Brackets

variable {view : TokenView} {before : Option Token} {ts : List Token} {p start close stop : Nat}

theorem labelEnd?_eq_some_iff_closesAt (h : view.Shows before ts) :
    labelEnd? view p = some close ↔
      MarkAt ts p .leftBracket 1 ∧ labelRule.ClosesAt ts (p + 1) close := by
  rw [labelEnd?_eq_some_iff h, opened_at_iff]

theorem address?_eq_some_iff_closesAt (h : view.Shows before ts) {s : String} :
    address? view p = some (s, stop + 1) ↔
      (MarkAt ts p .leftParen 1 ∧ addressRule.ClosesAt ts (p + 1) stop) ∧ p + 1 < stop ∧
        s = joinTokens (ts.extract (p + 1) stop) := by
  rw [address?_eq_some_iff h, opened_at_iff]
  constructor
  · rintro ⟨o, url, c, rest, hts, ho, hne, hcl, rfl, hstop⟩
    have hpos : 0 < url.length := List.length_pos_iff.mpr hne
    obtain rfl : stop = p + 1 + url.length := by omega
    refine ⟨⟨o, url, c, rest, hts, ho, hcl, rfl⟩, by omega, ?_⟩
    rw [extract_opened hts]
  · rintro ⟨⟨o, url, c, rest, hts, ho, hcl, rfl⟩, hfilled, rfl⟩
    have hne : url ≠ [] := by
      apply List.length_pos_iff.mp
      omega
    refine ⟨o, url, c, rest, hts, ho, hne, hcl, ?_, by omega⟩
    rw [extract_opened hts]

/-- Where the marks stand, as a span of tokens with its two parts. -/
theorem bracketsAt_iff {s : String} :
    (BracketsAt ts p close stop ∧ s = joinTokens (ts.extract (close + 2) stop)) ↔
      ∃ span label url rest, ts.drop p = span ++ rest ∧ Bracketed span label url ∧
        s = joinTokens url ∧ close = p + 1 + label.length ∧ stop + 1 = p + span.length := by
  have hshows := TokenView.shows_plain ts
  rw [← bracketed_iff hshows, labelEnd?_eq_some_iff_closesAt hshows,
    address?_eq_some_iff_closesAt hshows]
  constructor
  · rintro ⟨⟨hopens, hcloses, hline, hturns, hends, hfilled, hunbroken, hunspaced⟩, hs⟩
    exact ⟨⟨hopens, hcloses, fun _ => hline, fun hspace => Bool.noConfusion hspace⟩,
      ⟨hturns, hends, fun _ => hunbroken, fun _ => hunspaced⟩, hfilled, hs⟩
  · rintro ⟨⟨hopens, hcloses, hline, -⟩, ⟨hturns, hends, hunbroken, hunspaced⟩, hfilled, hs⟩
    exact ⟨⟨hopens, hcloses, hline rfl, hturns, hends, hfilled, hunbroken rfl, hunspaced rfl⟩, hs⟩

theorem Bracketed.exists_stop {span label url : List Token} (parts : Bracketed span label url)
    (p : Nat) : ∃ stop, stop + 1 = p + span.length := by
  obtain ⟨-, -, -, -, -⟩ := parts
  exact ⟨_, Nat.add_assoc p _ 1⟩

theorem linkAttempt_eq_some_iff_bracketsAt (h : view.Shows before ts) (start : Nat)
    (found : Match) :
    linkAttempt view start = some found ↔ ∃ close stop, BracketsAt ts start close stop ∧
      start + 1 < close ∧
      found = { node := .link (joinTokens (ts.extract (start + 1) close))
                          (joinTokens (ts.extract (close + 2) stop))
                consumed := (stop : Int) - start + 1 } := by
  rw [linkAttempt_eq_some_iff h]
  constructor
  · rintro ⟨span, label, url, rest, hts, parts, hne, rfl⟩
    have hpos : 0 < label.length := List.length_pos_iff.mpr hne
    obtain ⟨stop, hstop⟩ := parts.exists_stop start
    obtain ⟨hbrackets, hurl⟩ :=
      bracketsAt_iff.mpr ⟨span, label, url, rest, hts, parts, rfl, rfl, hstop⟩
    refine ⟨_, stop, hbrackets, by omega, ?_⟩
    rw [extract_label hts parts, ← hurl, Match.mk.injEq]
    exact ⟨rfl, by omega⟩
  · rintro ⟨close, stop, hbrackets, hfilled, rfl⟩
    obtain ⟨span, label, url, rest, hts, parts, hurl, rfl, hstop⟩ :=
      bracketsAt_iff.mp ⟨hbrackets, rfl⟩
    refine ⟨span, label, url, rest, hts, parts, ?_, ?_⟩
    · apply List.length_pos_iff.mp
      omega
    · rw [extract_label hts parts, hurl, Match.mk.injEq]
      exact ⟨rfl, by omega⟩

theorem imageAttempt_eq_some_iff_bracketsAt (h : view.Shows before ts) (start : Nat)
    (found : Match) :
    imageAttempt view start = some found ↔ MarkAt ts start .exclamation 1 ∧
      ∃ close stop, BracketsAt ts (start + 1) close stop ∧
        found = { node := .image (joinTokens (ts.extract (start + 2) close))
                            (joinTokens (ts.extract (close + 2) stop))
                  consumed := (stop : Int) - start + 1 } := by
  rw [imageAttempt_eq_some_iff h, markAt_iff]
  constructor
  · rintro ⟨mark, span, label, url, rest, hts, hmark, parts, rfl⟩
    have hspan : ts.drop (start + 1) = span ++ rest := drop_succ_of_drop_eq hts
    obtain ⟨stop, hstop⟩ := parts.exists_stop (start + 1)
    obtain ⟨hbrackets, hurl⟩ :=
      bracketsAt_iff.mpr ⟨span, label, url, rest, hspan, parts, rfl, rfl, hstop⟩
    refine ⟨⟨mark, by rw [hts, hspan], hmark⟩, _, stop, hbrackets, ?_⟩
    rw [extract_label hspan parts, ← hurl, Match.mk.injEq]
    exact ⟨rfl, by omega⟩
  · rintro ⟨⟨mark, hts, hmark⟩, close, stop, hbrackets, rfl⟩
    obtain ⟨span, label, url, rest, hspan, parts, hurl, rfl, hstop⟩ :=
      bracketsAt_iff.mp ⟨hbrackets, rfl⟩
    refine ⟨mark, span, label, url, rest, by rw [hts, hspan], hmark, parts, ?_⟩
    rw [extract_label hspan parts, hurl, Match.mk.injEq]
    exact ⟨rfl, by omega⟩

/-- **Links and images, by where their brackets stand.** An image is an exclamation mark with
brackets behind it; they may hold no label, which those of a link have to. So where a label
stands, an image is found exactly when a link with the same text and address is found behind the
mark. -/
theorem links_and_images {ts : List Token} {view : TokenView} (hview : view.IsOf ts)
    (start : Nat) :
    (∀ found, linkAttempt view start = some found ↔ ∃ close stop,
      BracketsAt ts start close stop ∧ start + 1 < close ∧
        found = { node := .link (joinTokens (ts.extract (start + 1) close))
                            (joinTokens (ts.extract (close + 2) stop))
                  consumed := (stop : Int) - start + 1 }) ∧
    (∀ found, imageAttempt view start = some found ↔ MarkAt ts start .exclamation 1 ∧
      ∃ close stop, BracketsAt ts (start + 1) close stop ∧
        found = { node := .image (joinTokens (ts.extract (start + 2) close))
                            (joinTokens (ts.extract (close + 2) stop))
                  consumed := (stop : Int) - start + 1 }) ∧
    (∀ found, linkAttempt view start = some found ∨ imageAttempt view start = some found →
      start + found.consumed ≤ ts.length) ∧
    (¬ MarkAt ts (start + 2) .rightBracket 1 → ∀ text url k,
      imageAttempt view start = some { node := .image text url, consumed := k } ↔
        MarkAt ts start .exclamation 1 ∧
          linkAttempt view (start + 1) = some { node := .link text url, consumed := k - 1 }) := by
  obtain ⟨before, hshows⟩ := hview.exists_shows
  have hlink := linkAttempt_eq_some_iff_bracketsAt hshows
  have himage := imageAttempt_eq_some_iff_bracketsAt hshows start
  refine ⟨hlink start, himage, fun found hfound => ?_, fun hlabel text url k => ?_⟩
  · have hstop : ∃ stop < ts.length, found.consumed = (stop : Int) - start + 1 := by
      rcases hfound with hfound | hfound
      · obtain ⟨close, stop, hbrackets, -, rfl⟩ := (hlink start found).mp hfound
        exact ⟨stop, hbrackets.ends.mark.lt_length, rfl⟩
      · obtain ⟨-, close, stop, hbrackets, rfl⟩ := (himage found).mp hfound
        exact ⟨stop, hbrackets.ends.mark.lt_length, rfl⟩
    obtain ⟨stop, hlt, hconsumed⟩ := hstop
    omega
  · rw [himage, hlink]
    refine and_congr_right fun _ => exists_congr fun close => exists_congr fun stop => ?_
    refine and_congr_right fun hbrackets => ?_
    have hfilled : start + 1 + 1 < close := by
      apply Nat.lt_of_le_of_ne hbrackets.closes.le
      rintro rfl
      exact hlabel hbrackets.closes.mark
    rw [and_iff_right hfilled, Match.mk.injEq, Match.mk.injEq, Node.link.injEq, Node.image.injEq]
    refine and_congr_right fun _ => ?_
    omega

/-- An image behind a link's exclamation mark, and one without a label, where no link stands. -/
theorem links_and_images_no_label :
    (TokenView.plain (tokenize "![a](u)").toArray).IsOf (tokenize "![a](u)") ∧
    ¬ MarkAt (tokenize "![a](u)") 2 .rightBracket 1 ∧
    linkAttempt (.plain (tokenize "![a](u)").toArray) 1 =
      some { node := .link "a" "u", consumed := 6 } ∧
    imageAttempt (.plain (tokenize "![a](u)").toArray) 0 =
      some { node := .image "a" "u", consumed := 7 } ∧
    imageAttempt (.indexed (TokenSeq.ofList (tokenize "![](u)"))) 0 =
      some { node := .image "" "u", consumed := 6 } ∧
    ∀ found, linkAttempt (.indexed (TokenSeq.ofList (tokenize "![](u)"))) 1 ≠ some found := by
  have hplain : (TokenView.plain (tokenize "![a](u)").toArray).IsOf (tokenize "![a](u)") := .plain
  have hindexed : (TokenView.indexed (TokenSeq.ofList (tokenize "![](u)"))).IsOf
    (tokenize "![](u)") := .indexed none []
  have hlabel : ¬ MarkAt (tokenize "![a](u)") 2 .rightBracket 1 := by decide
  have hlink : linkAttempt (.plain (tokenize "![a](u)").toArray) 1 =
      some { node := .link "a" "u", consumed := 6 } :=
    ((links_and_images hplain 1).1 _).mpr ⟨3, 6, by decide, by decide, rfl⟩
  refine ⟨hplain, hlabel, hlink, ?_, ?_, fun found hfound => ?_⟩
  · exact ((links_and_images hplain 0).2.2.2 hlabel "a" "u" 7).mpr ⟨by decide, hlink⟩
  · exact ((links_and_images hindexed 0).2.1 _).mpr ⟨by decide, 2, 5, by decide, rfl⟩
  · obtain ⟨close, stop, hbrackets, hfilled, -⟩ := ((links_and_images hindexed 1).1 found).mp hfound
    have hfirst : FirstMark (tokenize "![](u)") 2 2 .rightBracket 1 := by decide
    have hclose : close = 2 := hfirst.unique hbrackets.closes
    omega

end Brackets

end InlineMarkup
