/-
# The next token of a kind

A question for the next token of a kind has one right answer, the first index from the start on at
which such a token stands, or the number of tokens where none does (`NextAt`, `NextAt.unique`). A
sequence gives that answer whatever it was asked before, and every table that it has filled by then
has that answer for each of its tokens (`next_kind_tables`).

A table is filled when a question for its kind is put from within the sequence, and stays
(`TokenQuery.kinds_behindAll_next`).

Key definitions: `KindPattern.Describes`, `NextAt`, `TokenSeq.kinds`.
Key theorems: `NextAt.unique`, `nextAt_findIdx`, `TokenSeq.Tabulates.nextAt_nextIndex`,
`TokenSeq.Tabulates.nextAt_filled`, `next_kind_tables`.
-/
import Mathlib.Order.Bounds.Basic
import InlineMarkup.Proofs.Histories
import InlineMarkup.Tokenizer

namespace InlineMarkup

/-! ### First indices -/

/-- A pattern describes the tokens of its type and, where it gives a run, of that length. -/
def KindPattern.Describes (k : KindPattern) (t : Token) : Prop :=
  t.type = k.type ∧ ∀ run ∈ k.run, (t.length : Int) = run

theorem KindPattern.accepts_iff {k : KindPattern} {t : Token} :
    k.accepts t = true ↔ k.Describes t := by
  obtain ⟨type, run⟩ := k
  cases run with
  | none => simp [accepts, Describes]
  | some run => simp [accepts, Describes, Token.isMarker_iff]

/-- From index `start` on, the first token with the property stands at index `n`; where there is
none, `n` is the number of tokens. -/
def NextAt (P : Token → Prop) (ts : List Token) (start n : Nat) : Prop :=
  IsLeast {i | start ≤ i ∧ ∃ t ∈ ts[i]?, P t} n ∨
    (∀ i, start ≤ i → ¬ ∃ t ∈ ts[i]?, P t) ∧ n = ts.length

section First

variable {P Q : Token → Prop} {p : Token → Bool} {ts : List Token} {start n n' : Nat}

theorem NextAt.unique (h : NextAt P ts start n) (h' : NextAt P ts start n') : n = n' := by
  rcases h with hleast | ⟨hnone, rfl⟩ <;> rcases h' with hleast' | ⟨hnone', rfl⟩
  · exact hleast.unique hleast'
  · exact absurd hleast.1.2 (hnone' n hleast.1.1)
  · exact absurd hleast'.1.2 (hnone n' hleast'.1.1)
  · rfl

theorem nextAt_congr (h : ∀ t ∈ ts, P t ↔ Q t) : NextAt P ts start n ↔ NextAt Q ts start n := by
  have hat : ∀ i, (∃ t ∈ ts[i]?, P t) ↔ ∃ t ∈ ts[i]?, Q t := fun i =>
    exists_congr fun t => and_congr_right fun ht => h t (List.mem_of_getElem? ht)
  simp only [NextAt, hat]

theorem le_of_findIdx {i : Nat} (hle : start ≤ i) (hi : ∃ t ∈ ts[i]?, p t = true) :
    start + (ts.drop start).findIdx p ≤ i := by
  obtain ⟨m, rfl⟩ := Nat.exists_eq_add_of_le hle
  obtain ⟨t, ht, hp⟩ := hi
  rw [← List.getElem?_drop] at ht
  obtain ⟨hm, rfl⟩ := List.getElem?_eq_some_iff.mp ht
  by_contra hlt
  have hnot : p (ts.drop start)[m] = false := List.not_of_lt_findIdx (by omega)
  rw [hnot] at hp
  cases hp

theorem nextAt_findIdx (p : Token → Bool) (hstart : start ≤ ts.length) :
    NextAt (p · = true) ts start (start + (ts.drop start).findIdx p) := by
  by_cases hfound : (ts.drop start).findIdx p < (ts.drop start).length
  · left
    refine ⟨⟨Nat.le_add_right _ _, (ts.drop start)[(ts.drop start).findIdx p], ?_, ?_⟩, ?_⟩
    · rw [← List.getElem?_drop]
      exact List.getElem?_eq_getElem hfound
    · exact List.findIdx_getElem
    · rintro i ⟨hle, hi⟩
      exact le_of_findIdx hle hi
  · right
    have hlength : (ts.drop start).findIdx p = ts.length - start := by
      rw [← List.length_drop]
      exact Nat.le_antisymm List.findIdx_le_length (Nat.le_of_not_lt hfound)
    refine ⟨fun i hle hi => ?_, by omega⟩
    have hbehind := le_of_findIdx hle hi
    obtain ⟨t, ht, -⟩ := hi
    obtain ⟨hlt, -⟩ := List.getElem?_eq_some_iff.mp ht
    omega

theorem nextAt_behind (P : Token → Prop) (hstart : ts.length ≤ start) :
    NextAt P ts start ts.length := by
  right
  refine ⟨?_, rfl⟩
  rintro i hle ⟨t, ht, -⟩
  obtain ⟨hi, -⟩ := List.getElem?_eq_some_iff.mp ht
  omega

end First

/-! ### Tables and their answers -/

namespace TokenSeq

/-- The kinds whose tables a sequence has filled. -/
def kinds (seq : TokenSeq) : List KindPattern :=
  seq.filled.map Prod.fst

/-- To fill the table of a kind leaves the others, and fills no table twice. -/
theorem kinds_fill (seq : TokenSeq) (k : KindPattern) :
    (seq.fill k).kinds = if k ∈ seq.kinds then seq.kinds else k :: seq.kinds := by
  unfold fill
  cases hlookup : seq.filled.lookup k with
  | some table =>
    have hmem : k ∈ seq.kinds := List.mem_map_of_mem (mem_of_lookup hlookup)
    exact (if_pos hmem).symm
  | none =>
    refine (if_neg fun hmem => ?_).symm
    obtain ⟨entry, hentry, rfl⟩ := List.mem_map.mp hmem
    exact bne_iff_ne.mp (List.lookup_eq_none_iff.mp hlookup entry hentry) rfl

namespace Tabulates

variable {seq : TokenSeq} {before : Option Token} {ts : List Token}

theorem nextAt_nextIndex (h : seq.Tabulates before ts) (start : Nat) (k : KindPattern) :
    NextAt k.Describes ts start (seq.nextIndex start k) := by
  rw [h.nextIndex, ← nextAt_congr fun t _ => k.accepts_iff]
  split
  · next hstart => exact nextAt_findIdx k.accepts (Nat.le_of_lt hstart)
  · next hstart => exact nextAt_behind _ (Nat.le_of_not_lt hstart)

theorem nextAt_filled (h : seq.Tabulates before ts) {k : KindPattern} {table : Thunk (Array Nat)}
    (hmem : (k, table) ∈ seq.filled) : table.get.size = ts.length ∧
      ∀ i, ∀ n ∈ table.get[i]?, NextAt k.Describes ts i n := by
  rw [h.filled k table hmem, List.size_toArray, length_nextTable]
  refine ⟨rfl, fun i n hn => ?_⟩
  rw [List.getElem?_toArray] at hn
  have hi : i < ts.length := by
    rw [← length_nextTable k.accepts ts.length 0 ts]
    exact (List.getElem?_eq_some_iff.mp hn).1
  rw [getElem?_nextTable k.accepts ts.length 0 i ts (Nat.zero_add _) hi, Nat.zero_add] at hn
  obtain rfl := Option.some.inj hn
  exact (nextAt_congr fun t _ => k.accepts_iff).mp (nextAt_findIdx k.accepts (Nat.le_of_lt hi))

end Tabulates

end TokenSeq

namespace TokenQuery

variable {seq : TokenSeq} {before : Option Token} {ts : List Token}

/-- Each question for the next token of a kind is answered rightly, by induction on the questions:
behind each of them the filled tables are right. -/
theorem nextAt_runAll (h : seq.Tabulates before ts) (qs : List TokenQuery) :
    List.Forall₂ (fun q answer => ∀ start k, q = .next start k →
        ∃ n, answer = .ok (.number n) ∧ NextAt k.Describes ts start n)
      qs (runAll (.indexed seq) qs) := by
  induction qs generalizing seq with
  | nil => exact .nil
  | cons q qs ih =>
    obtain ⟨seq', hbehind, h'⟩ := tabulates_behind h q
    rw [runAll, hbehind]
    refine .cons ?_ (ih h')
    rintro start k rfl
    exact ⟨_, rfl, h.nextAt_nextIndex start k⟩

/-- **Questions for next tokens fill the tables of their kinds**, when they are put from within the
sequence, each once. -/
theorem kinds_behindAll_next (h : seq.Tabulates before ts) (hnodup : seq.kinds.Nodup)
    (qs : List (Nat × KindPattern)) : ∃ seq' : TokenSeq,
      behindAll (qs.map fun q => .next q.1 q.2) (.indexed seq) = .indexed seq' ∧
      seq'.kinds.Nodup ∧ ∀ k, k ∈ seq'.kinds ↔
        k ∈ seq.kinds ∨ ∃ start < ts.length, (start, k) ∈ qs := by
  induction qs generalizing seq with
  | nil => exact ⟨seq, rfl, hnodup, by simp⟩
  | cons q qs ih =>
    have hstep : (seq.ask q.1 q.2).2.kinds.Nodup ∧ ∀ k, k ∈ (seq.ask q.1 q.2).2.kinds ↔
        k ∈ seq.kinds ∨ k = q.2 ∧ q.1 < ts.length := by
      rw [TokenSeq.ask, h.size]
      split
      · exact ⟨hnodup, fun k => by simp; omega⟩
      · rw [TokenSeq.kinds_fill]
        split <;> grind
    obtain ⟨seq', hbehind, hnodup', hkinds⟩ := ih (h.ask q.1 q.2) hstep.1
    refine ⟨seq', hbehind, hnodup', fun k => ?_⟩
    rw [hkinds, hstep.2]
    grind

end TokenQuery

open TokenQuery in
/-- **Next-kind tables are always right.** Whatever a sequence is asked, and in any order, each
question is answered by the first index at which a token of the kind stands, and so is each entry
of a filled table. The tables that are filled are those of the kinds that were asked for from
within the sequence. -/
theorem next_kind_tables (ts : List Token) (before : Option Token) :
    (∀ qs : List TokenQuery,
      List.Forall₂ (fun q answer => ∀ start k, q = .next start k →
          ∃ n, answer = .ok (.number n) ∧ NextAt k.Describes ts start n)
        qs (runAll (.indexed (TokenSeq.ofList ts before)) qs) ∧
      ∃ seq : TokenSeq, behindAll qs (.indexed (TokenSeq.ofList ts before)) = .indexed seq ∧
        ∀ k table, (k, table) ∈ seq.filled → table.get.size = ts.length ∧
          ∀ i, ∀ n ∈ table.get[i]?, NextAt k.Describes ts i n) ∧
    (∀ qs : List (Nat × KindPattern), ∃ seq : TokenSeq,
      behindAll (qs.map fun q => .next q.1 q.2) (.indexed (TokenSeq.ofList ts before)) =
        .indexed seq ∧
      seq.kinds.Nodup ∧ ∀ k, k ∈ seq.kinds ↔ ∃ start < ts.length, (start, k) ∈ qs) ∧
    ∀ (k : KindPattern) (start n n' : Nat),
      NextAt k.Describes ts start n → NextAt k.Describes ts start n' → n = n' := by
  have h := TokenSeq.tabulates_ofList ts before
  refine ⟨fun qs => ⟨nextAt_runAll h qs, ?_⟩, fun qs => ?_, fun k start n n' => NextAt.unique⟩
  · obtain ⟨seq, hbehind, hseq⟩ := tabulates_behindAll h qs
    exact ⟨seq, hbehind, fun k table => hseq.nextAt_filled⟩
  · simpa [TokenSeq.kinds, TokenSeq.ofList] using kinds_behindAll_next h .nil qs

open TokenQuery in
/-- The single star in a note is found in front of it and not behind it, where a double one is of
another kind. A question from behind the note fills no table. -/
theorem next_kind_tables_stars :
    NextAt (KindPattern.Describes { type := .asterisk, run := some 1 }) (tokenize "**a*b") 0 2 ∧
    NextAt (KindPattern.Describes { type := .asterisk, run := some 1 }) (tokenize "**a*b") 3 4 ∧
    ∃ seq : TokenSeq,
      behindAll [.next 0 { type := .asterisk, run := some 1 }, .next 4 { type := .space }]
        (.indexed (TokenSeq.ofList (tokenize "**a*b"))) = .indexed seq ∧
      { type := .asterisk, run := some 1 } ∈ seq.kinds ∧ { type := .space } ∉ seq.kinds := by
  obtain ⟨hhistory, hkinds, -⟩ := next_kind_tables (tokenize "**a*b") none
  have hanswers := (hhistory [.next 0 { type := .asterisk, run := some 1 },
    .next 3 { type := .asterisk, run := some 1 }]).1
  cases hanswers with
  | cons hfirst hanswers =>
    cases hanswers with
    | cons hsecond =>
      obtain ⟨n, hn, hnext⟩ := hfirst _ _ rfl
      obtain ⟨m, hm, hnext'⟩ := hsecond _ _ rfl
      cases hn
      cases hm
      obtain ⟨seq, hbehind, -, hseq⟩ :=
        hkinds [(0, { type := .asterisk, run := some 1 }), (4, { type := .space })]
      exact ⟨hnext, hnext', seq, hbehind, (hseq _).mpr ⟨0, by decide, by decide⟩,
        fun h => absurd ((hseq _).mp h) (by decide)⟩

end InlineMarkup
