/-
# What was asked before makes no difference

A sequence answers each question from its tables and fills tables on the way. Every
table that was ever filled is right (`TokenQuery.tabulates_behind`), so behind any
questions a sequence still shows its tokens and what precedes them
(`TokenQuery.shows_behindAll`). A bare array shows the same and is scanned afresh
each time: all that can be seen through the two views is the same
(`indexed_eq_plain`).

Key theorems: `TokenQuery.tabulates_behind`, `TokenQuery.tabulates_behindAll`,
`TokenQuery.shows_behindAll`, `indexed_eq_plain`.
-/
import InlineMarkup.Proofs.Recognition
import InlineMarkup.TokenQuery

namespace InlineMarkup

namespace TokenQuery

variable {seq : TokenSeq} {before : Option Token} {ts : List Token}

/-- Behind one question a sequence is the same sequence, and all its filled tables are
right. -/
theorem tabulates_behind (h : seq.Tabulates before ts) (q : TokenQuery) :
    ∃ seq' : TokenSeq, q.behind (.indexed seq) = .indexed seq' ∧ seq'.Tabulates before ts := by
  cases q with
  | next start kind => exact ⟨_, rfl, h.ask start kind⟩
  | closer start rule => exact ⟨_, rfl, (h.search rule start).2⟩
  | _ => exact ⟨seq, rfl, h⟩

theorem tabulates_behindAll (h : seq.Tabulates before ts) : ∀ qs : List TokenQuery,
    ∃ seq' : TokenSeq, behindAll qs (.indexed seq) = .indexed seq' ∧ seq'.Tabulates before ts := by
  intro qs
  induction qs generalizing seq with
  | nil => exact ⟨seq, rfl, h⟩
  | cons q qs ih =>
    obtain ⟨seq', hbehind, h'⟩ := tabulates_behind h q
    obtain ⟨seq'', hall, h''⟩ := ih h'
    refine ⟨seq'', ?_, h''⟩
    rw [behindAll, List.foldl_cons, hbehind]
    exact hall

theorem shows_behindAll (ts : List Token) (before : Option Token) (qs : List TokenQuery) :
    (behindAll qs (.indexed (TokenSeq.ofList ts before))).Shows before ts := by
  obtain ⟨seq, hbehind, h⟩ := tabulates_behindAll (TokenSeq.tabulates_ofList ts before) qs
  rw [hbehind]
  exact TokenView.shows_of_tabulates h

end TokenQuery

open TokenQuery in
/-- **A sequence with tables is as good as a bare array**, whatever precedes the sequence and
whatever it was asked before: every search for a closer ends alike on both, and with nothing
before the sequence every construct finds the same. -/
theorem indexed_eq_plain :
    (∀ (ts : List Token) (before : Option Token) (qs : List TokenQuery) (r : CloserRule)
      (start : Nat), (behindAll qs (.indexed (TokenSeq.ofList ts before))).closer? start r =
        (TokenView.plain ts.toArray).closer? start r) ∧
    ∀ (ts : List Token) (qs : List TokenQuery) (c : Construct) (start : Nat),
      c.matcher.attempt (behindAll qs (.indexed (TokenSeq.ofList ts))) start =
        c.matcher.attempt (.plain ts.toArray) start := by
  constructor
  · intro ts before qs r start
    rw [(shows_behindAll ts before qs).closer, (TokenView.shows_plain ts).closer]
  · intro ts qs c start
    rw [c.attempt_eq_recognise (shows_behindAll ts none qs),
      c.attempt_eq_recognise (TokenView.shows_plain ts)]

/-- A line break may itself be the closer, also where line breaks are not allowed, and a
forbidden space before it ends the search; so it is with the tables filled, too. -/
example : ([0, 1, 2].map fun start =>
    (TokenQuery.behindAll [.next 0 { type := .newline }, .closer 1 { closer := .hash }]
      (.indexed (TokenSeq.ofList [⟨.text, "", 0⟩, ⟨.space, "\t ", 7⟩, ⟨.newline, "", -1⟩]))).closer?
        start { closer := .newline, run := 0, allowSpace := false }) = [none, none, some 2] := by
  decide

end InlineMarkup
