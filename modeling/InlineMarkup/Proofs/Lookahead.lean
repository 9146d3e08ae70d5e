/-
# Looking ahead finds the first token of a kind

A sequence answers from its tables, a bare array is scanned, and both answers are
the same: the next token of a kind is the first one in the tokens from the start
on (`TokenSeq.Tabulates.nextIndex`), and the closer is the one that the scan finds
(`TokenSeq.Tabulates.search`). Tables are filled by questions, and every table that
was filled is right, so the questions put before make no difference
(`TokenSeq.Tabulates.ask`). A matcher cannot tell the two apart. All that it learns
from a view is fixed by the tokens and by the token before them (`TokenView.Shows`).

A closer found in a list cuts the list in three: what it closes, the closer, and
the rest (`CloserRule.scan?_eq_some_iff`).

Key definitions: `TokenSeq.Tabulates`, `TokenView.Shows`, `CloserRule.passes`,
`precedes`. Key theorems: `TokenSeq.Tabulates.nextIndex`,
`TokenSeq.Tabulates.search`, `TokenView.shows_ofList`,
`CloserRule.scan?_eq_some_iff`.
-/
import InlineMarkup.Proofs.Lists
import InlineMarkup.TokenView

namespace InlineMarkup

/-! ### Tables -/

theorem length_nextTable (p : Token → Bool) (size : Nat) : ∀ (i : Nat) (ts : List Token),
    (nextTable p size i ts).length = ts.length
  | _, [] => rfl
  | i, _ :: ts => by simp [nextTable, length_nextTable p size (i + 1) ts]

theorem headD_nextTable (p : Token → Bool) (size : Nat) : ∀ (i : Nat) (ts : List Token),
    i + ts.length = size → (nextTable p size i ts).headD size = i + ts.findIdx p
  | _, [], h => by simpa [nextTable] using h.symm
  | i, t :: ts, h => by
    have ih := headD_nextTable p size (i + 1) ts (by simp only [List.length_cons] at h; omega)
    by_cases ht : p t
    · simp [nextTable, List.findIdx_cons, ht]
    · simp only [nextTable, ht, List.headD_cons, Bool.false_eq_true, if_false, ih,
        List.findIdx_cons, cond_false]
      omega

theorem getElem?_nextTable (p : Token → Bool) (size : Nat) : ∀ (i j : Nat) (ts : List Token),
    i + ts.length = size → j < ts.length →
    (nextTable p size i ts)[j]? = some (i + j + (ts.drop j).findIdx p)
  | _, _, [], _, hj => by simp at hj
  | i, 0, t :: ts, h, _ => by
    have hd := headD_nextTable p size i (t :: ts) h
    simp only [nextTable, List.headD_cons] at hd
    simp only [nextTable, List.getElem?_cons_zero, hd, List.drop_zero, Nat.add_zero]
  | i, j + 1, t :: ts, h, hj => by
    simp only [List.length_cons] at h hj
    have ih := getElem?_nextTable p size (i + 1) j ts (by omega) (by omega)
    simp only [nextTable, List.getElem?_cons_succ, ih, List.drop_succ_cons, Option.some.injEq]
    omega

theorem mem_patterns_iff {t : Token} {k : KindPattern} : k ∈ t.patterns ↔ k.accepts t = true := by
  obtain ⟨type, run⟩ := k
  cases run with
  | none =>
    simp only [Token.patterns, List.mem_cons, KindPattern.mk.injEq, and_true, reduceCtorEq,
      and_false, List.not_mem_nil, or_false, KindPattern.accepts, beq_iff_eq]
    exact eq_comm
  | some run =>
    simp only [Token.patterns, List.mem_cons, KindPattern.mk.injEq, reduceCtorEq, and_false,
      Option.some.injEq, List.not_mem_nil, or_false, false_or, KindPattern.accepts,
      Token.isMarker_iff]
    exact and_congr eq_comm eq_comm

theorem mem_patternsOf_iff {ts : List Token} {k : KindPattern} :
    k ∈ patternsOf ts ↔ ∃ t ∈ ts, k.accepts t = true := by
  simp only [patternsOf, List.mem_eraseDups, List.mem_flatMap, mem_patterns_iff]

theorem nextTable_eq_replicate {p : Token → Bool} (size : Nat) : ∀ (i : Nat) {ts : List Token},
    (∀ t ∈ ts, p t = false) → nextTable p size i ts = List.replicate ts.length size
  | _, [], _ => rfl
  | i, t :: ts, h => by
    obtain ⟨ht, hts⟩ := List.forall_mem_cons.mp h
    rw [nextTable, nextTable_eq_replicate size (i + 1) hts, ht, List.length_cons, List.replicate_succ]
    cases ts with
    | nil => rfl
    | cons u ts => rfl

namespace TokenSeq

/-- A sequence of the tokens `ts` behind `before` with any right tables filled: each kind
that occurs is given its table, and so is each kind whose table is filled. -/
structure Tabulates (seq : TokenSeq) (before : Option Token) (ts : List Token) : Prop where
  tokens : seq.tokens = ts.toArray
  preceded : seq.before = before
  tables : seq.tables = (ofList ts before).tables
  filled : ∀ k table, (k, table) ∈ seq.filled →
    table.get = (nextTable k.accepts ts.length 0 ts).toArray

theorem tabulates_ofList (ts : List Token) (before : Option Token) :
    (ofList ts before).Tabulates before ts where
  tokens := rfl
  preceded := rfl
  tables := rfl
  filled _ _ h := absurd h List.not_mem_nil

namespace Tabulates

variable {seq : TokenSeq} {before : Option Token} {ts : List Token}

theorem size (h : seq.Tabulates before ts) : seq.size = ts.length := by
  rw [TokenSeq.size, h.tokens, List.size_toArray]

theorem lookup_tables (h : seq.Tabulates before ts) {k : KindPattern} (hk : k ∈ patternsOf ts) :
    ∃ table, seq.tables.lookup k = some table ∧
      table.get = (nextTable k.accepts ts.length 0 ts).toArray := by
  refine ⟨Thunk.mk fun _ => (nextTable k.accepts ts.length 0 ts).toArray, ?_, rfl⟩
  rw [h.tables]
  exact List.lookup_graph (fun k : KindPattern =>
    Thunk.mk fun _ => (nextTable k.accepts ts.length 0 ts).toArray) hk

/-- The table that a question is answered from is the right one, and where there is none
no token is of the kind. -/
theorem table? (h : seq.Tabulates before ts) (k : KindPattern) :
    match seq.table? k with
    | some table => table.get = (nextTable k.accepts ts.length 0 ts).toArray
    | none => ∀ t ∈ ts, k.accepts t = false := by
  rw [TokenSeq.table?]
  cases hfilled : seq.filled.lookup k with
  | some table => exact h.filled k table (mem_of_lookup hfilled)
  | none =>
    by_cases hk : k ∈ patternsOf ts
    · obtain ⟨table, hlookup, hget⟩ := h.lookup_tables hk
      simpa only [hlookup] using hget
    · have hnone : seq.tables.lookup k = none := by
        rw [h.tables, List.lookup_eq_none_iff]
        refine List.forall_mem_map.mpr fun k' hk' => bne_iff_ne.mpr ?_
        rintro rfl
        exact hk hk'
      simp only [hnone]
      exact fun t ht => Bool.eq_false_iff.mpr fun hacc => hk (mem_patternsOf_iff.mpr ⟨t, ht, hacc⟩)

/-- **The next token of a kind.** Whether the kind has a table or not, and whichever tables
are filled, the answer is the first index from `start` on whose token is of the kind. -/
theorem nextIndex (h : seq.Tabulates before ts) (start : Nat) (k : KindPattern) :
    seq.nextIndex start k =
      if start < ts.length then start + (ts.drop start).findIdx k.accepts else ts.length := by
  by_cases hs : start < ts.length
  · rw [TokenSeq.nextIndex, h.size, if_neg (by omega), if_pos hs]
    have htable := h.table? k
    cases hk : seq.table? k with
    | some table =>
      have he := getElem?_nextTable k.accepts ts.length 0 start ts (Nat.zero_add _) hs
      simp only [hk] at htable ⊢
      rw [htable, Array.getD_eq_getD_getElem?, List.getElem?_toArray, he, Option.getD_some,
        Nat.zero_add]
    | none =>
      -- no token is of the kind, so the search in the list runs to the end
      simp only [hk] at htable ⊢
      have hnone : ∀ t ∈ ts.drop start, k.accepts t = false := fun t ht =>
        htable t (List.mem_of_mem_drop ht)
      rw [List.findIdx_eq_length_of_false hnone, List.length_drop]
      omega
  · rw [TokenSeq.nextIndex, h.size, if_pos (by omega), if_neg hs]

theorem fill (h : seq.Tabulates before ts) (k : KindPattern) : (seq.fill k).Tabulates before ts := by
  rw [TokenSeq.fill]
  split
  · exact h
  · refine ⟨h.tokens, h.preceded, h.tables, fun k' table hmem => ?_⟩
    rcases List.mem_cons.mp hmem with heq | hmem
    · obtain ⟨rfl, rfl⟩ := Prod.mk.inj heq
      have htable := h.table? k'
      cases hk : seq.table? k' with
      | some table => simpa only [hk, Option.getD_some] using htable
      | none =>
        simp only [hk] at htable
        rw [Option.getD_none, nextTable_eq_replicate ts.length 0 htable, ← h.size,
          List.toArray_replicate]
        rfl
    · exact h.filled k' table hmem

theorem ask (h : seq.Tabulates before ts) (start : Nat) (k : KindPattern) :
    (seq.ask start k).2.Tabulates before ts := by
  rw [TokenSeq.ask]
  split
  · exact h
  · exact h.fill k

end Tabulates

end TokenSeq

/-! ### Closers -/

namespace CloserRule

/-- Whether a search goes on behind a token: it is neither accepted nor
forbidden. -/
def passes (r : CloserRule) (t : Token) : Bool :=
  !r.accepts t && !r.forbids t

theorem passes_iff {r : CloserRule} {t : Token} : r.passes t = true ↔ r.accepts t = false ∧
    (r.allowNewline = false → t.type ≠ .newline) ∧ (r.allowSpace = false → t.type ≠ .space) := by
  simp only [passes, forbids, Bool.and_eq_true, Bool.not_eq_true', Bool.or_eq_false_iff,
    Bool.and_eq_false_iff, beq_eq_false_iff_ne, Bool.not_eq_false', ne_eq]
  cases r.allowNewline <;> cases r.allowSpace <;> simp

/-- A scan stops at the first token that is accepted or forbidden, and finds it if
it is accepted. -/
theorem scan?_eq_some_iff (r : CloserRule) : ∀ (i j : Nat) (ts : List Token),
    r.scan? i ts = some j ↔ ∃ content c rest, ts = content ++ c :: rest ∧
      (∀ t ∈ content, r.passes t = true) ∧ r.accepts c = true ∧ j = i + content.length
  | i, j, [] => by simp [scan?]
  | i, j, t :: ts => by
    by_cases ha : r.accepts t
    · -- the closer is the first token: a content that is not empty would start with it
      have hp : r.passes t = false := by simp [passes, ha]
      simp only [scan?, ha, if_true, Option.some.injEq]
      constructor
      · rintro rfl
        exact ⟨[], t, ts, rfl, by simp, ha, rfl⟩
      · rintro ⟨_ | ⟨u, content⟩, c, rest, he, hc, -, rfl⟩
        · rfl
        · obtain ⟨rfl, -⟩ := List.cons.inj he
          rw [hc t List.mem_cons_self] at hp
          cases hp
    · by_cases hf : r.forbids t
      · have hp : r.passes t = false := by simp [passes, hf]
        simp only [scan?, ha, hf, if_true, Bool.false_eq_true, if_false, reduceCtorEq, false_iff]
        rintro ⟨_ | ⟨u, content⟩, c, rest, he, hc, hac, -⟩
        · obtain ⟨rfl, -⟩ := List.cons.inj he
          exact ha hac
        · obtain ⟨rfl, -⟩ := List.cons.inj he
          rw [hc t List.mem_cons_self] at hp
          cases hp
      · have hp : r.passes t = true := by simp [passes, ha, hf]
        simp only [scan?, ha, hf, Bool.false_eq_true, if_false, scan?_eq_some_iff r (i + 1) j ts]
        constructor
        · rintro ⟨content, c, rest, rfl, hc, hac, rfl⟩
          refine ⟨t :: content, c, rest, rfl, ?_, hac, ?_⟩
          · simpa [hp] using hc
          · simp only [List.length_cons]
            omega
        · rintro ⟨_ | ⟨u, content⟩, c, rest, he, hc, hac, rfl⟩
          · obtain ⟨rfl, -⟩ := List.cons.inj he
            exact absurd hac ha
          · obtain ⟨rfl, rfl⟩ := List.cons.inj he
            refine ⟨content, c, rest, rfl, fun u hu => hc u (List.mem_cons_of_mem _ hu), hac, ?_⟩
            simp only [List.length_cons]
            omega

theorem scan?_eq_findIdx (r : CloserRule) : ∀ (i : Nat) (ts : List Token),
    r.scan? i ts = if ts.findIdx r.accepts < ts.length ∧ ts.findIdx r.accepts ≤ ts.findIdx r.forbids
      then some (i + ts.findIdx r.accepts) else none
  | i, [] => by simp [scan?]
  | i, t :: ts => by
    simp only [scan?, List.findIdx_cons, scan?_eq_findIdx r (i + 1) ts, List.length_cons]
    cases ha : r.accepts t <;> cases hf : r.forbids t <;> simp [Nat.add_assoc, Nat.add_comm 1]

theorem findIdx_or (p q : Token → Bool) : ∀ ts : List Token,
    (ts.findIdx fun t => p t || q t) = min (ts.findIdx p) (ts.findIdx q)
  | [] => rfl
  | t :: ts => by
    simp only [List.findIdx_cons, findIdx_or p q ts]
    cases p t <;> cases q t <;> simp

/-- The first forbidden token is the first line break or the first space, as far as
they are forbidden. -/
theorem findIdx_forbids (r : CloserRule) (ts : List Token) :
    ts.findIdx r.forbids =
      min (if r.allowNewline then ts.length else ts.findIdx fun t => t.type == .newline)
        (if r.allowSpace then ts.length else ts.findIdx fun t => t.type == .space) := by
  have hnone : (ts.findIdx fun _ => false) = ts.length := List.findIdx_eq_length_of_false fun _ _ => rfl
  have hor := findIdx_or (fun t => t.type == .newline && !r.allowNewline)
    (fun t => t.type == .space && !r.allowSpace) ts
  rw [show r.forbids = fun t => _ || _ from rfl, hor]
  cases r.allowNewline <;> cases r.allowSpace <;> simp [hnone]

end CloserRule

namespace TokenSeq.Tabulates

variable {seq : TokenSeq} {before : Option Token} {ts : List Token}

theorem blocked (h : seq.Tabulates before ts) (allowed : Bool) (type : TokenType)
    (close : Nat) {start : Nat} (hs : start < ts.length) :
    (CloserRule.blocked allowed type seq start close).1 = (!allowed &&
        decide (start + (ts.drop start).findIdx (fun t => t.type == type) < close)) ∧
      (CloserRule.blocked allowed type seq start close).2.Tabulates before ts := by
  cases allowed with
  | true => exact ⟨rfl, h⟩
  | false =>
    refine ⟨?_, h.ask start _⟩
    have hnext := h.nextIndex start { type }
    rw [if_pos hs] at hnext
    simp only [CloserRule.blocked, TokenSeq.ask, hnext, Bool.false_eq_true, if_false, Bool.not_false,
      Bool.true_and]
    rfl

/-- **A search finds what a scan finds**: the closer counts when it comes before, or is
itself, the first forbidden token. All filled tables are still right behind the search. -/
theorem search (h : seq.Tabulates before ts) (r : CloserRule) (start : Nat) :
    (r.search seq start).1 = r.scan? start (ts.drop start) ∧
      (r.search seq start).2.Tabulates before ts := by
  have hclose := h.nextIndex start { type := r.closer, run := some r.run }
  have hseq := h.ask start { type := r.closer, run := some r.run }
  change (seq.ask start _).1 = if start < ts.length then
    start + (ts.drop start).findIdx r.accepts else ts.length at hclose
  rw [r.scan?_eq_findIdx, r.findIdx_forbids, List.length_drop]
  simp only [CloserRule.search]
  -- the sequence behind each question takes the place of the one before
  generalize seq.ask start { type := r.closer, run := some r.run } = asked at hclose hseq ⊢
  obtain ⟨close, seq⟩ := asked
  simp only at hclose hseq ⊢
  rw [hseq.size]
  by_cases hs : start < ts.length
  · rw [if_pos hs] at hclose
    obtain ⟨hline, hseq'⟩ := hseq.blocked r.allowNewline .newline close hs
    generalize CloserRule.blocked r.allowNewline .newline seq start close = asked at hline hseq' ⊢
    obtain ⟨broken, seq'⟩ := asked
    obtain ⟨hspace, hseq''⟩ := hseq'.blocked r.allowSpace .space close hs
    generalize CloserRule.blocked r.allowSpace .space seq' start close = asked at hspace hseq'' ⊢
    obtain ⟨spaced, seq''⟩ := asked
    simp only at hline hseq' hspace hseq'' ⊢
    constructor
    · -- what is left compares the first closer with the first line break and the first space
      subst hline hspace hclose
      clear h hseq hseq' hseq''
      have hlen : (ts.drop start).findIdx r.accepts ≤ ts.length - start := by
        rw [← List.length_drop]
        exact List.findIdx_le_length
      generalize (ts.drop start).findIdx r.accepts = a at hlen ⊢
      generalize (ts.drop start).findIdx (fun t => t.type == .newline) = n
      generalize (ts.drop start).findIdx (fun t => t.type == .space) = m
      cases r.allowNewline <;> cases r.allowSpace <;>
        simp only [Bool.not_false, Bool.not_true, Bool.true_and, Bool.false_and, decide_eq_true_eq,
          Bool.false_eq_true, if_true, if_false, apply_ite Prod.fst] <;> grind
    · split
      · exact hseq
      · split
        · exact hseq'
        · exact hseq''
  · have hle : ts.length ≤ start := by omega
    rw [if_neg hs] at hclose
    simp [hclose, hseq, hle]

end TokenSeq.Tabulates

/-! ### Views -/

/-- The token before index `i` of tokens that follow `before`. -/
def precedes (before : Option Token) (ts : List Token) : Nat → Option Token
  | 0 => before
  | i + 1 => ts[i]?

/-- A view shows the tokens `ts` behind `before`: it holds these tokens, and its
closers are those that a scan finds. -/
structure TokenView.Shows (view : TokenView) (before : Option Token) (ts : List Token) : Prop where
  tokens : view.tokens.toList = ts
  before : view.tokenBefore? 0 = before
  closer : ∀ start r, view.closer? start r = r.scan? start (ts.drop start)

namespace TokenView

theorem shows_of_tabulates {seq : TokenSeq} {before : Option Token} {ts : List Token}
    (h : seq.Tabulates before ts) : (indexed seq).Shows before ts where
  tokens := by rw [tokens, h.tokens]
  before := h.preceded
  closer start r := (h.search r start).1

theorem shows_ofList (ts : List Token) (before : Option Token) :
    (indexed (TokenSeq.ofList ts before)).Shows before ts :=
  shows_of_tabulates (TokenSeq.tabulates_ofList ts before)

theorem shows_plain (ts : List Token) : (plain ts.toArray).Shows none ts where
  tokens := rfl
  before := rfl
  closer _ _ := rfl

variable {view : TokenView} {before : Option Token} {ts : List Token}

theorem Shows.get? (h : view.Shows before ts) (i : Nat) : view.get? i = ts[i]? := by
  rw [TokenView.get?, ← h.tokens, Array.getElem?_toList]

theorem Shows.tokenBefore? (h : view.Shows before ts) (i : Nat) :
    view.tokenBefore? i = precedes before ts i := by
  cases i with
  | zero => exact h.before
  | succ i => rw [TokenView.tokenBefore?, h.get?, precedes]

theorem Shows.slice (h : view.Shows before ts) (a b : Nat) :
    view.slice a b = (ts.drop a).take (b - a) := by
  rw [TokenView.slice, Array.toList_extract, h.tokens, List.extract_eq_take_drop]

theorem Shows.isMarkerAt (h : view.Shows before ts) (i : Nat) (type : TokenType) (run : Int) :
    view.isMarkerAt i type run = (ts.drop i).head?.any fun t => t.isMarker type run := by
  rw [TokenView.isMarkerAt, h.get?, List.head?_drop]

end TokenView

end InlineMarkup
