/-
# Streams that share a cursor read the note one by one

Each token stream moves the shared cursor, and it may move it back behind the cursor of
another. What a stream has still to hand out is settled all the same when it is first
resumed: the tokens from the one at the cursor on (`StreamPool.remaining`). From then on no
other stream changes it, and the stream answers as if it read the list of these tokens
alone (`StreamPool.Begun.readsAlone`). The cursor itself stays where a token
starts or the note ends, since a stream remembers such a place only
(`StreamPool.Placed`).

Key definitions: `StartsAt`, `StreamPool.remaining`, `readAlone`, `StreamPool.ReadsAlone`,
`StreamPool.Placed`.
Key theorems: `firstToken?_eq_head?`, `StreamPool.resume_spec`, `StreamPool.drain_spec`,
`StreamPool.Begun.readsAlone`, `StreamPool.placed_run`, `shared_streams`.
-/
import InlineMarkup.TokenStream
import InlineMarkup.Proofs.Tokenization

namespace InlineMarkup

/-! ### The first token of a text -/

theorem ofChar_of_mem_takeWhile {c d : Char} {cs : List Char}
    (h : d ∈ c :: cs.takeWhile (sameRun c)) : TokenType.ofChar d = TokenType.ofChar c := by
  rcases List.mem_cons.mp h with rfl | h
  · rfl
  · have hsame : sameRun c d = true := List.all_eq_true.mp List.all_takeWhile d h
    simp only [sameRun, Bool.and_eq_true, beq_iff_eq] at hsame
    exact hsame.1.symm

theorem firstToken?_eq_head? (offset : Nat) (cs : List Char) :
    firstToken? offset cs = (tokensFrom offset cs).head? := by
  cases cs with
  | nil => rfl
  | cons c cs =>
    have hsplit : c :: cs = (c :: cs.takeWhile (sameRun c)) ++ cs.dropWhile (sameRun c) := by
      rw [List.cons_append, List.takeWhile_append_dropWhile]
    have hrun : (c :: cs.takeWhile (sameRun c)).IsChain fun a b => sameRun a b = true := by
      refine isChain_sameRun_iff.mpr ⟨?_, ?_⟩
      · exact fun d hd => ofChar_of_mem_takeWhile (List.mem_cons_of_mem c hd)
      · intro hbreak
        cases cs with
        | nil => rfl
        | cons d ds => simp [sameRun, hbreak]
    have hends : ∀ a ∈ (c :: cs.takeWhile (sameRun c)).getLast?,
        ∀ b ∈ (cs.dropWhile (sameRun c)).head?, sameRun a b = false := by
      intro a ha b hb
      have htype := ofChar_of_mem_takeWhile (List.mem_of_getLast? ha)
      have hstop : sameRun c b = false := by
        have hnot := List.head?_dropWhile_not (sameRun c) cs
        rw [Option.mem_def.mp hb] at hnot
        simpa using hnot
      rw [sameRun, htype]
      exact hstop
    rw [hsplit, tokensFrom_append hends, tokensFrom_run offset (List.cons_ne_nil _ _) hrun, ← hsplit]
    rfl

theorem tokensFrom_of_cons {offset : Nat} {cs : List Char} {t : Token} {ts : List Token}
    (h : tokensFrom offset cs = t :: ts) :
    tokensFrom (offset + t.length) (cs.drop t.length) = ts := by
  obtain ⟨hchars, hcut⟩ := tokensFrom_eq_iff.mp h
  obtain ⟨-, -, -, hcut⟩ := isCut_cons.mp hcut
  refine tokensFrom_eq_iff.mpr ⟨?_, by exact_mod_cast hcut⟩
  rw [← hchars, charsOf_cons, t.length_eq, List.drop_left]

theorem length_le_charsOf {ts : List Token} (h : ∀ t ∈ ts, t.WellFormed) :
    ts.length ≤ (charsOf ts).length := by
  induction ts with
  | nil => exact Nat.le_refl 0
  | cons t ts ih =>
    obtain ⟨ht, hts⟩ := List.forall_mem_cons.mp h
    have hpos : 0 < t.value.toList.length := List.length_pos_iff.mpr ht.filled
    have hrest := ih hts
    rw [List.length_cons, charsOf_cons, List.length_append]
    omega

theorem length_tokensFrom_le (offset : Nat) (cs : List Char) :
    (tokensFrom offset cs).length ≤ cs.length := by
  calc (tokensFrom offset cs).length
      ≤ (charsOf (tokensFrom offset cs)).length :=
        length_le_charsOf (isCut_tokensFrom offset cs).wellFormed
    _ = cs.length := by rw [charsOf_tokensFrom]

/-! ### Where tokens start -/

/-- Token number `a` of a note starts at `n`, or the note has `a` tokens and ends at `n`. -/
def StartsAt (source : String) (a n : Nat) : Prop :=
  (∃ t, (tokenize source)[a]? = some t ∧ t.offset = n) ∨
    (a = (tokenize source).length ∧ n = source.length)

variable {source : String} {a n : Nat}

theorem startsAt_iff : StartsAt source a n ↔
    a ≤ (tokenize source).length ∧ n = (charsOf ((tokenize source).take a)).length := by
  have hsplit : tokenize source = (tokenize source).take a ++ (tokenize source).drop a ++ [] := by
    rw [List.append_nil, List.take_append_drop]
  have hplace := located_of_split hsplit
  by_cases ha : a < (tokenize source).length
  · rw [List.drop_eq_getElem_cons ha] at hplace
    have hoffset := hplace.1
    constructor
    · rintro (⟨t, ht, hn⟩ | ⟨hend, -⟩)
      · rw [List.getElem?_eq_getElem ha] at ht
        obtain rfl := Option.some.inj ht
        exact ⟨Nat.le_of_lt ha, by omega⟩
      · omega
    · rintro ⟨-, hn⟩
      exact .inl ⟨_, List.getElem?_eq_getElem ha, by omega⟩
  · have hall : (charsOf (tokenize source)).length = source.length := by
      rw [tokenize, charsOf_tokensFrom, String.length_toList]
    have htake : (tokenize source).take a = tokenize source := List.take_of_length_le (by omega)
    rw [htake, hall]
    constructor
    · rintro (⟨t, ht, -⟩ | ⟨hend, hn⟩)
      · rw [List.getElem?_eq_none (by omega)] at ht
        cases ht
      · exact ⟨by omega, hn⟩
    · rintro ⟨hle, hn⟩
      exact .inr ⟨by omega, hn⟩

theorem startsAt_zero (source : String) : StartsAt source 0 0 :=
  startsAt_iff.mpr ⟨Nat.zero_le _, rfl⟩

theorem StartsAt.tokensFrom_eq (h : StartsAt source a n) :
    tokensFrom n (source.toList.drop n) = (tokenize source).drop a := by
  obtain ⟨-, rfl⟩ := startsAt_iff.mp h
  have hsplit : (tokenize source).take a ++ (tokenize source).drop a = tokenize source :=
    List.take_append_drop a _
  have hcut := isCut_tokensFrom 0 source.toList
  rw [← tokenize, ← hsplit] at hcut
  refine tokensFrom_eq_iff.mpr ⟨?_, by simpa using (isCut_append.mp hcut).2.1⟩
  have hchars : charsOf ((tokenize source).take a) ++ charsOf ((tokenize source).drop a) =
      source.toList := by
    rw [← charsOf_append, hsplit, tokenize, charsOf_tokensFrom]
  rw [← hchars, List.drop_left]

theorem StartsAt.next (h : StartsAt source a n) {t : Token}
    (ht : (tokenize source)[a]? = some t) : StartsAt source (a + 1) (n + t.length) := by
  obtain ⟨-, rfl⟩ := startsAt_iff.mp h
  obtain ⟨ha, rfl⟩ := List.getElem?_eq_some_iff.mp ht
  refine startsAt_iff.mpr ⟨ha, ?_⟩
  rw [List.take_add_one, ht, charsOf_append, List.length_append, Token.length_eq]
  simp

namespace StreamPool

variable {p : StreamPool} {i j : Nat}

/-- The tokens from a place of the note on. -/
def tokensAt (p : StreamPool) (n : Nat) : List Token :=
  tokensFrom n (p.source.drop n)

theorem tokenAtCursor?_eq (p : StreamPool) : p.tokenAtCursor? = (p.tokensAt p.cursor).head? :=
  firstToken?_eq_head? p.cursor (p.source.drop p.cursor)

theorem tokensAt_of_cons {t : Token} {ts : List Token} (h : p.tokensAt n = t :: ts) :
    p.tokensAt (n + t.length) = ts := by
  have htail := tokensFrom_of_cons h
  rwa [List.drop_drop] at htail

/-! ### What a stream has still to hand out -/

/-- The tokens that stream `i` hands out from now on when no other stream is resumed. -/
def remaining (p : StreamPool) (i : Nat) : List Token :=
  match p.streams[i]? with
  | none => []
  | some .fresh => p.tokensAt p.cursor
  | some (.paused stop) => p.tokensAt stop
  | some .ended => []

/-- Stream `i` has been resumed. -/
def Begun (p : StreamPool) (i : Nat) : Prop :=
  ∃ stream, p.streams[i]? = some stream ∧ stream ≠ .fresh

/-- A stream that has been resumed goes by its own place in the note only. -/
theorem remaining_congr {q : StreamPool} (hbegun : p.Begun i) (hsource : q.source = p.source)
    (hstream : q.streams[i]? = p.streams[i]?) : q.Begun i ∧ q.remaining i = p.remaining i := by
  obtain ⟨stream, hi, hfresh⟩ := hbegun
  refine ⟨⟨stream, hstream.trans hi, hfresh⟩, ?_⟩
  unfold remaining tokensAt
  rw [hstream, hi, hsource]
  cases stream with
  | fresh => exact absurd rfl hfresh
  | paused stop => rfl
  | ended => rfl

theorem remaining_of_fresh (h : p.streams[i]? = some .fresh) :
    p.remaining i = p.tokensAt p.cursor := by
  unfold remaining
  rw [h]

theorem remaining_of_ended (h : p.streams[i]? = some .ended) : p.remaining i = [] := by
  unfold remaining
  rw [h]

theorem remaining_of_paused {stop : Nat} (h : p.streams[i]? = some (.paused stop)) :
    p.remaining i = p.tokensAt stop := by
  unfold remaining
  rw [h]

/-- A stream that goes on from the cursor hands out the token there and has the others
still to hand out. -/
theorem advance_spec (hi : i < p.streams.length) :
    (p.advance i).1 = (p.tokensAt p.cursor).head? ∧
      (p.advance i).2.remaining i = (p.tokensAt p.cursor).tail ∧ (p.advance i).2.Begun i := by
  unfold advance
  rw [p.tokenAtCursor?_eq]
  cases htokens : p.tokensAt p.cursor with
  | nil =>
    have hended : (p.streams.set i .ended)[i]? = some .ended := List.getElem?_set_self hi
    exact ⟨rfl, remaining_of_ended hended, .ended, hended, by decide⟩
  | cons t ts =>
    have hpaused : (p.streams.set i (.paused (p.cursor + t.length)))[i]? =
        some (.paused (p.cursor + t.length)) := List.getElem?_set_self hi
    refine ⟨rfl, ?_, .paused (p.cursor + t.length), hpaused, by simp⟩
    exact (remaining_of_paused hpaused).trans (tokensAt_of_cons htokens)

/-- A stream hands out the first of its remaining tokens and keeps the others. -/
theorem resume_spec (hi : i < p.streams.length) : (p.resume i).1 = (p.remaining i).head? ∧
    (p.resume i).2.remaining i = (p.remaining i).tail ∧ (p.resume i).2.Begun i := by
  have hstream : p.streams[i]? = some p.streams[i] := List.getElem?_eq_getElem hi
  unfold resume
  rw [hstream]
  cases hs : p.streams[i] with
  | fresh =>
    rw [remaining_of_fresh (hstream.trans (congrArg some hs))]
    exact advance_spec hi
  | paused stop =>
    rw [remaining_of_paused (hstream.trans (congrArg some hs))]
    exact advance_spec hi
  | ended =>
    have hended : p.streams[i]? = some .ended := hstream.trans (congrArg some hs)
    rw [remaining_of_ended hended]
    exact ⟨rfl, rfl, .ended, hended, by decide⟩

theorem advance_frame (p : StreamPool) (i : Nat) : (p.advance i).2.source = p.source ∧
    (p.advance i).2.streams.length = p.streams.length ∧
      ∀ j ≠ i, (p.advance i).2.streams[j]? = p.streams[j]? := by
  unfold advance
  cases p.tokenAtCursor? with
  | none => exact ⟨rfl, List.length_set, fun j hj => List.getElem?_set_ne hj.symm⟩
  | some t => exact ⟨rfl, List.length_set, fun j hj => List.getElem?_set_ne hj.symm⟩

theorem resume_frame (p : StreamPool) (i : Nat) : (p.resume i).2.source = p.source ∧
    (p.resume i).2.streams.length = p.streams.length ∧
      ∀ j ≠ i, (p.resume i).2.streams[j]? = p.streams[j]? := by
  unfold resume
  rcases p.streams[i]? with _ | _ | stop | _
  · exact ⟨rfl, rfl, fun _ _ => rfl⟩
  · exact p.advance_frame i
  · exact advance_frame { p with cursor := stop } i
  · exact ⟨rfl, rfl, fun _ _ => rfl⟩

/-- What each resumption of a stream keeps, taking its remaining tokens keeps. -/
theorem drainUpTo_induction {P : StreamPool → Prop} (hstep : ∀ p, P p → P (p.resume i).2)
    (fuel : Nat) : ∀ p, P p → P (drainUpTo fuel p i).2 := by
  induction fuel with
  | zero => exact fun _ h => h
  | succ fuel ih =>
    intro p h
    have hnext := hstep p h
    unfold drainUpTo
    rcases hresume : p.resume i with ⟨_ | t, q⟩
    · rw [hresume] at hnext
      exact hnext
    · rw [hresume] at hnext
      exact ih q hnext

theorem drainUpTo_spec (fuel : Nat) : ∀ {p : StreamPool}, i < p.streams.length →
    (p.remaining i).length < fuel → (drainUpTo fuel p i).1 = p.remaining i ∧
      (drainUpTo fuel p i).2.remaining i = [] ∧ (drainUpTo fuel p i).2.Begun i := by
  induction fuel with
  | zero => exact fun _ h => absurd h (Nat.not_lt_zero _)
  | succ fuel ih =>
    intro p hi hfuel
    obtain ⟨hgiven, hleft, hbegun⟩ := resume_spec hi
    obtain ⟨-, hlength, -⟩ := p.resume_frame i
    unfold drainUpTo
    rcases hresume : p.resume i with ⟨_ | t, q⟩
    · rw [hresume] at hgiven hleft hbegun
      have hnil : p.remaining i = [] := List.head?_eq_none_iff.mp hgiven.symm
      rw [hnil] at hleft ⊢
      exact ⟨rfl, hleft, hbegun⟩
    · rw [hresume] at hgiven hleft hlength
      obtain ⟨ts, hcons⟩ := List.head?_eq_some_iff.mp hgiven.symm
      rw [hcons] at hleft hfuel
      obtain ⟨hrest, hspec⟩ := ih (hlength ▸ hi) (by
        rw [hleft]
        exact Nat.lt_of_succ_lt_succ hfuel)
      refine ⟨?_, hspec⟩
      show t :: (drainUpTo fuel q i).1 = p.remaining i
      rw [hrest, hleft, hcons]
      rfl

theorem length_remaining_le (p : StreamPool) (i : Nat) :
    (p.remaining i).length ≤ p.source.length := by
  have htokens : ∀ n, (p.tokensAt n).length ≤ p.source.length := fun n =>
    (length_tokensFrom_le n (p.source.drop n)).trans (List.length_drop ▸ Nat.sub_le _ _)
  unfold remaining
  rcases p.streams[i]? with _ | _ | stop | _
  · exact Nat.zero_le _
  · exact htokens p.cursor
  · exact htokens stop
  · exact Nat.zero_le _

/-- **A stream that is read to its end hands out all its remaining tokens.** -/
theorem drain_spec (hi : i < p.streams.length) : (p.drain i).1 = p.remaining i ∧
    (p.drain i).2.remaining i = [] ∧ (p.drain i).2.Begun i :=
  drainUpTo_spec (p.source.length + 1) hi (Nat.lt_succ_of_le (p.length_remaining_le i))

theorem drain_frame (p : StreamPool) (i : Nat) : (p.drain i).2.source = p.source ∧
    (p.drain i).2.streams.length = p.streams.length ∧
      ∀ j ≠ i, (p.drain i).2.streams[j]? = p.streams[j]? := by
  refine drainUpTo_induction (P := fun q => q.source = p.source ∧
    q.streams.length = p.streams.length ∧ ∀ j ≠ i, q.streams[j]? = p.streams[j]?) ?_ _ p
      ⟨rfl, rfl, fun _ _ => rfl⟩
  rintro q ⟨hsource, hlength, hstreams⟩
  obtain ⟨hsource', hlength', hstreams'⟩ := q.resume_frame i
  exact ⟨hsource'.trans hsource, hlength'.trans hlength,
    fun j hj => (hstreams' j hj).trans (hstreams j hj)⟩

end StreamPool

/-! ### Calls -/

/-- A call asks stream `i` for tokens. -/
def StreamCall.resumes (i : Nat) : StreamCall → Bool
  | .create => false
  | .next j => j == i
  | .rest j => j == i

/-- The tokens that an answer hands out. -/
def StreamReply.given : StreamReply → List Token
  | .created _ => []
  | .token t => t.toList
  | .tokens ts => ts

/-- The answers of a stream that has some tokens to hand out and has them for itself. -/
def readAlone : List Token → List StreamCall → List StreamReply
  | _, [] => []
  | ts, .create :: calls => readAlone ts calls
  | ts, .next _ :: calls => .token ts.head? :: readAlone ts.tail calls
  | ts, .rest _ :: calls => .tokens ts :: readAlone [] calls

namespace StreamPool

variable {p : StreamPool} {i : Nat}

/-- The answers to the calls that ask stream `i` for tokens. -/
def repliesTo (p : StreamPool) (i : Nat) (calls : List StreamCall) : List StreamReply :=
  ((calls.zip (p.run calls).1).filter fun x => x.1.resumes i).map Prod.snd

theorem run_cons (p : StreamPool) (c : StreamCall) (calls : List StreamCall) :
    p.run (c :: calls) = ((p.call c).1 :: ((p.call c).2.run calls).1, ((p.call c).2.run calls).2) :=
  rfl

theorem repliesTo_cons (p : StreamPool) (i : Nat) (c : StreamCall) (calls : List StreamCall) :
    p.repliesTo i (c :: calls) = (if c.resumes i then [(p.call c).1] else []) ++
      (p.call c).2.repliesTo i calls := by
  unfold repliesTo
  rw [run_cons, List.zip_cons_cons, List.filter_cons]
  by_cases hc : c.resumes i = true
  · rw [if_pos hc, if_pos hc]
    rfl
  · rw [if_neg hc, if_neg hc]
    rfl

/-- A call that asks a stream for tokens is answered with the first of its remaining tokens or
with all of them, and leaves the others. -/
theorem call_resumes {c : StreamCall} (hc : c.resumes i = true) (hi : i < p.streams.length)
    (calls : List StreamCall) : (p.call c).2.Begun i ∧
      (p.call c).1.given ++ (p.call c).2.remaining i = p.remaining i ∧
      (p.call c).1 :: readAlone ((p.call c).2.remaining i) calls =
        readAlone (p.remaining i) (c :: calls) := by
  cases c with
  | create => cases hc
  | next j =>
    obtain rfl : j = i := beq_iff_eq.mp hc
    obtain ⟨hgiven, hleft, hbegun⟩ := resume_spec hi
    refine ⟨hbegun, ?_, ?_⟩
    · show (p.resume j).1.toList ++ (p.resume j).2.remaining j = p.remaining j
      rw [hgiven, hleft]
      cases p.remaining j <;> rfl
    · show StreamReply.token (p.resume j).1 :: readAlone ((p.resume j).2.remaining j) calls = _
      rw [hgiven, hleft]
      rfl
  | rest j =>
    obtain rfl : j = i := beq_iff_eq.mp hc
    obtain ⟨hgiven, hleft, hbegun⟩ := drain_spec hi
    refine ⟨hbegun, ?_, ?_⟩
    · show (p.drain j).1 ++ (p.drain j).2.remaining j = p.remaining j
      rw [hgiven, hleft, List.append_nil]
    · show StreamReply.tokens (p.drain j).1 :: readAlone ((p.drain j).2.remaining j) calls = _
      rw [hgiven, hleft]
      rfl

theorem call_frame {c : StreamCall} (hc : c.resumes i = false) (hi : i < p.streams.length) :
    (p.call c).2.source = p.source ∧ (p.call c).2.streams[i]? = p.streams[i]? := by
  cases c with
  | create => exact ⟨rfl, List.getElem?_append_left hi⟩
  | next j =>
    obtain ⟨hsource, -, hstreams⟩ := p.resume_frame j
    exact ⟨hsource, hstreams i (Ne.symm (beq_eq_false_iff_ne.mp hc))⟩
  | rest j =>
    obtain ⟨hsource, -, hstreams⟩ := p.drain_frame j
    exact ⟨hsource, hstreams i (Ne.symm (beq_eq_false_iff_ne.mp hc))⟩

theorem Begun.lt_length (h : p.Begun i) : i < p.streams.length := by
  obtain ⟨stream, hi, -⟩ := h
  exact (List.getElem?_eq_some_iff.mp hi).1

/-- Stream `i` answers some calls as if it had its remaining tokens for itself, and has left
behind them what it has not handed out. -/
structure ReadsAlone (p : StreamPool) (i : Nat) (calls : List StreamCall) : Prop where
  replies : p.repliesTo i calls =
    readAlone (p.remaining i) (calls.filter (StreamCall.resumes i))
  shares : (p.repliesTo i calls).flatMap StreamReply.given ++ (p.run calls).2.remaining i =
    p.remaining i

theorem ReadsAlone.nil (p : StreamPool) (i : Nat) : p.ReadsAlone i [] :=
  ⟨rfl, rfl⟩

theorem ReadsAlone.cons {c : StreamCall} {calls : List StreamCall} (hc : c.resumes i = true)
    (hi : i < p.streams.length) (h : (p.call c).2.Begun i → (p.call c).2.ReadsAlone i calls) :
    p.ReadsAlone i (c :: calls) := by
  obtain ⟨hbegun, hshare, hreply⟩ := call_resumes hc hi (calls.filter (StreamCall.resumes i))
  obtain ⟨hreplies, hshares⟩ := h hbegun
  refine ⟨?_, ?_⟩
  · rw [repliesTo_cons, List.filter_cons, if_pos hc, if_pos hc, ← hreply, ← hreplies]
    rfl
  · rw [repliesTo_cons, run_cons, if_pos hc, ← hshare, ← hshares, List.singleton_append,
      List.flatMap_cons, List.append_assoc]

/-- **A stream that has been resumed reads its remaining tokens alone**, whatever is asked of
the other streams in between. -/
theorem Begun.readsAlone (calls : List StreamCall) : ∀ {p : StreamPool}, p.Begun i →
    p.ReadsAlone i calls := by
  induction calls with
  | nil => exact fun _ => .nil _ i
  | cons c calls ih =>
    intro p hbegun
    by_cases hc : c.resumes i = true
    · exact .cons hc hbegun.lt_length ih
    · obtain ⟨hsource, hstream⟩ := call_frame (Bool.not_eq_true _ ▸ hc) hbegun.lt_length
      obtain ⟨hbegun', hremaining⟩ := remaining_congr hbegun hsource hstream
      obtain ⟨hreplies, hshares⟩ := ih hbegun'
      rw [hremaining] at hreplies hshares
      refine ⟨?_, ?_⟩
      · rw [repliesTo_cons, List.filter_cons, if_neg hc, if_neg hc, List.nil_append, hreplies]
      · rw [repliesTo_cons, run_cons, if_neg hc, List.nil_append, hshares]

theorem readsAlone_of_first {calls : List StreamCall} (hi : i < p.streams.length)
    (hfirst : ∀ c ∈ calls.head?, c.resumes i = true) : p.ReadsAlone i calls := by
  cases calls with
  | nil => exact .nil p i
  | cons c calls => exact .cons (hfirst c rfl) hi (Begun.readsAlone calls)

/-! ### Streams that have not been resumed -/

theorem length_call (p : StreamPool) (c : StreamCall) :
    (p.call c).2.streams.length = p.streams.length + [c].count .create := by
  cases c with
  | create => exact List.length_append
  | next j => exact (p.resume_frame j).2.1
  | rest j => exact (p.drain_frame j).2.1

theorem length_run (calls : List StreamCall) : ∀ p : StreamPool,
    (p.run calls).2.streams.length = p.streams.length + calls.count .create := by
  induction calls with
  | nil => exact fun _ => rfl
  | cons c calls ih =>
    intro p
    rw [run_cons, ih, length_call, Nat.add_assoc, ← List.count_append]
    rfl

theorem fresh_call {c : StreamCall} (hc : c.resumes i = false)
    (hfresh : ∀ stream, p.streams[i]? = some stream → stream = .fresh) :
    ∀ stream, (p.call c).2.streams[i]? = some stream → stream = .fresh := by
  intro stream hstream
  by_cases hi : i < p.streams.length
  · rw [(call_frame hc hi).2] at hstream
    exact hfresh stream hstream
  · have hcreated := (List.getElem?_eq_some_iff.mp hstream).1
    rw [length_call] at hcreated
    cases c with
    | create =>
      change (p.streams ++ [.fresh])[i]? = some stream at hstream
      rw [List.getElem?_append_right (Nat.le_of_not_lt hi)] at hstream
      exact List.mem_singleton.mp (List.mem_of_getElem? hstream)
    | next j => exact absurd hcreated hi
    | rest j => exact absurd hcreated hi

theorem fresh_run (calls : List StreamCall) : ∀ {p : StreamPool},
    (∀ c ∈ calls, c.resumes i = false) →
    (∀ stream, p.streams[i]? = some stream → stream = .fresh) →
    ∀ stream, (p.run calls).2.streams[i]? = some stream → stream = .fresh := by
  induction calls with
  | nil => exact fun _ h => h
  | cons c calls ih =>
    intro p hcalls hfresh
    obtain ⟨hc, hcalls⟩ := List.forall_mem_cons.mp hcalls
    exact ih hcalls (fresh_call hc hfresh)

theorem repliesTo_append (i : Nat) (back : List StreamCall) : ∀ (p : StreamPool)
    (front : List StreamCall), (∀ c ∈ front, c.resumes i = false) →
    p.repliesTo i (front ++ back) = (p.run front).2.repliesTo i back
  | _, [], _ => rfl
  | p, c :: front, hfront => by
    obtain ⟨hc, hfront⟩ := List.forall_mem_cons.mp hfront
    rw [List.cons_append, repliesTo_cons, hc, repliesTo_append i back _ front hfront]
    rfl

theorem run_append (back : List StreamCall) : ∀ (p : StreamPool) (front : List StreamCall),
    (p.run (front ++ back)).2 = ((p.run front).2.run back).2
  | _, [] => rfl
  | p, c :: front => run_append back (p.call c).2 front

/-! ### The cursor -/

/-- The shared cursor and the places at which streams will go on are places where a token of
the note starts or the note ends. -/
structure Placed (source : String) (p : StreamPool) : Prop where
  whole : p.source = source.toList
  cursor : ∃ a, StartsAt source a p.cursor
  stops : ∀ stop, .paused stop ∈ p.streams → ∃ a, StartsAt source a stop

variable {source : String}

theorem Placed.tokensAt_eq (h : Placed source p) {a n : Nat} (hn : StartsAt source a n) :
    p.tokensAt n = (tokenize source).drop a := by
  unfold tokensAt
  rw [h.whole, hn.tokensFrom_eq]

theorem placed_advance (h : Placed source p) (i : Nat) : Placed source (p.advance i).2 := by
  obtain ⟨a, ha⟩ := h.cursor
  unfold advance
  rw [p.tokenAtCursor?_eq, h.tokensAt_eq ha, List.head?_drop]
  cases ht : (tokenize source)[a]? with
  | none =>
    refine ⟨h.whole, h.cursor, fun stop hstop => ?_⟩
    rcases List.mem_or_eq_of_mem_set hstop with hstop | hstop
    · exact h.stops stop hstop
    · cases hstop
  | some t =>
    refine ⟨h.whole, h.cursor, fun stop hstop => ?_⟩
    rcases List.mem_or_eq_of_mem_set hstop with hstop | hstop
    · exact h.stops stop hstop
    · obtain rfl := TokenStream.paused.inj hstop
      exact ⟨a + 1, ha.next ht⟩

/-- A stream that is resumed puts the cursor on a place that it has remembered. -/
theorem placed_resume (i : Nat) (p : StreamPool) (h : Placed source p) :
    Placed source (p.resume i).2 := by
  unfold resume
  rcases hi : p.streams[i]? with _ | _ | stop | _
  · exact h
  · exact placed_advance h i
  · have hstop := h.stops stop (List.mem_of_getElem? hi)
    have hmoved : Placed source { p with cursor := stop } := ⟨h.whole, hstop, h.stops⟩
    exact placed_advance hmoved i
  · exact h

theorem placed_call (h : Placed source p) (c : StreamCall) : Placed source (p.call c).2 := by
  cases c with
  | create =>
    refine ⟨h.whole, h.cursor, fun stop hstop => ?_⟩
    rcases List.mem_append.mp hstop with hstop | hstop
    · exact h.stops stop hstop
    · cases List.mem_singleton.mp hstop
  | next i => exact placed_resume i p h
  | rest i =>
    show Placed source (p.drain i).2
    exact drainUpTo_induction (placed_resume i) _ p h

/-- **The cursor stays where a token starts or the note ends.** -/
theorem placed_run (calls : List StreamCall) : ∀ {p : StreamPool}, Placed source p →
    Placed source (p.run calls).2 := by
  induction calls with
  | nil => exact fun h => h
  | cons c calls ih => exact fun h => ih (placed_call h c)

theorem placed_ofSource (source : String) : Placed source (ofSource source) :=
  ⟨rfl, ⟨0, startsAt_zero source⟩, fun _ h => absurd h List.not_mem_nil⟩

end StreamPool

open StreamPool

/-- **Streams that share a cursor do not disturb each other.** The cursor is always where a token
starts or the note ends, though it may move back. A stream that is first resumed where token
number `a` starts gives the answers that it would give if it had the tokens from `a` on for
itself. -/
theorem shared_streams :
    (∀ (source : String) (calls : List StreamCall),
      ∃ a, StartsAt source a ((ofSource source).run calls).2.cursor) ∧
    (∃ (source : String) (calls : List StreamCall) (c : StreamCall),
      ((ofSource source).run (calls ++ [c])).2.cursor < ((ofSource source).run calls).2.cursor) ∧
    ∀ (source : String) (front back : List StreamCall) (i a : Nat),
      i < front.count .create → (∀ c ∈ front, c.resumes i = false) →
      (∀ c ∈ back.head?, c.resumes i = true) →
      StartsAt source a ((ofSource source).run front).2.cursor →
      (ofSource source).repliesTo i (front ++ back) =
        readAlone ((tokenize source).drop a) (back.filter (StreamCall.resumes i)) ∧
      ∃ k, a + k ≤ (tokenize source).length ∧
        ((ofSource source).repliesTo i (front ++ back)).flatMap StreamReply.given =
          (tokenize source).extract a (a + k) ∧
        ((((ofSource source).run (front ++ back)).2.resume i).1 = none ↔
          a + k = (tokenize source).length) := by
  refine ⟨?_, ?_, ?_⟩
  · exact fun source calls => (placed_run calls (placed_ofSource source)).cursor
  · exact ⟨"a*b", [.create, .create, .next 0, .next 1, .next 1, .next 1], .next 0, by decide⟩
  · intro source front back i a hcount hfront hback ha
    rw [repliesTo_append i back _ front hfront, run_append]
    have hplaced := placed_run front (placed_ofSource source)
    have hi : i < ((ofSource source).run front).2.streams.length := by
      rw [length_run]
      exact Nat.lt_of_lt_of_eq hcount (Nat.zero_add _).symm
    have hfresh : ((ofSource source).run front).2.streams[i]? = some .fresh := by
      have hsome := List.getElem?_eq_getElem hi
      rw [hsome, fresh_run front hfront (fun _ h => by cases h) _ hsome]
    generalize ((ofSource source).run front).2 = p at *
    have hremaining : p.remaining i = (tokenize source).drop a :=
      (remaining_of_fresh hfresh).trans (hplaced.tokensAt_eq ha)
    obtain ⟨hreplies, hshares⟩ := readsAlone_of_first hi hback
    rw [hremaining] at hreplies hshares
    have hnext := (resume_spec (p := (p.run back).2) (i := i) (by rw [length_run]; omega)).1
    have hle := (startsAt_iff.mp ha).1
    have hlength := congrArg List.length hshares
    rw [List.length_append, List.length_drop] at hlength
    generalize (p.run back).2.remaining i = rest at hshares hnext hlength
    generalize (p.repliesTo i back).flatMap StreamReply.given = given at hshares hlength
    refine ⟨hreplies, given.length, by omega, ?_, ?_⟩
    · rw [List.extract_eq_take_drop, ← hshares, Nat.add_sub_cancel_left, List.take_left]
    · rw [hnext, List.head?_eq_none_iff, ← List.length_eq_zero_iff]
      omega

/-- A stream that begins behind the first token of another one, which goes back behind that
token later, hands out the second token all the same. -/
theorem shared_streams_rewound :
    (ofSource "a*b").repliesTo 0 [.create, .create, .next 1, .next 1, .next 0, .next 1, .rest 0] =
        [.token (some ⟨.asterisk, "*", 1⟩), .tokens [⟨.text, "b", 2⟩]] ∧
      ∃ k, ((ofSource "a*b").repliesTo 0
          [.create, .create, .next 1, .next 1, .next 0, .next 1, .rest 0]).flatMap StreamReply.given =
        (tokenize "a*b").extract 1 (1 + k) ∧ 1 + k ≤ 3 := by
  obtain ⟨hreplies, k, hk, hgiven, -⟩ := shared_streams.2.2 "a*b" [.create, .create, .next 1, .next 1]
    [.next 0, .next 1, .rest 0] 0 1 (by decide) (by decide) (by decide)
    (.inl ⟨⟨.asterisk, "*", 1⟩, by decide, by decide⟩)
  exact ⟨hreplies, k, hgiven, hk⟩

end InlineMarkup
