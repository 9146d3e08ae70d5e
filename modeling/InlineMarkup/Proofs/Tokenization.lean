/-
# Tokenization is the one cut of a text

The tokens of a text are the only cut of it into well-formed tokens that stand one
behind the other and of which no two neighbours could be one
(`tokensFrom_eq_iff`). So a part of the tokens of a text is, but for its place, the
tokens of the part of the text it covers, and tokens of two texts are put together
wherever the texts do not grow into each other (`tokensFrom_append`).

A maximal run of a markup character is a token, and every markup token is one
(`hasRun_iff`).

Key definitions: `Token.WellFormed`, `Token.Apart`, `Located`, `IsCut`, `HasRun`.
Key theorems: `tokensFrom_eq_iff`, `tokensFrom_append`, `tokensFrom_add`,
`hasRun_iff`.
-/
import Mathlib.Data.List.SplitBy
import InlineMarkup.Tokenizer

namespace InlineMarkup

/-! ### Characters and their types -/

namespace TokenType

theorem eq_of_markChar? {c x : Char} (h : (ofChar c).markChar? = some x) : c = x := by
  unfold ofChar at h
  split at h <;> first | exact Option.some.inj h | cases h

theorem ofChar_of_markChar? {type : TokenType} {x : Char} (h : type.markChar? = some x) :
    ofChar x = type := by
  cases type <;> simp only [markChar?, Option.some.injEq, reduceCtorEq] at h <;> subst h <;> rfl

theorem ofChar_eq_iff {type : TokenType} {x : Char} (h : type.markChar? = some x) (c : Char) :
    ofChar c = type ↔ c = x := by
  constructor
  · rintro rfl
    exact eq_of_markChar? h
  · rintro rfl
    exact ofChar_of_markChar? h

theorem ofChar_eq_newline_iff (c : Char) : ofChar c = newline ↔ c = '\n' ∨ c = '\r' := by
  constructor
  · intro h
    unfold ofChar at h
    split at h <;> simp_all
  · rintro (rfl | rfl) <;> rfl

theorem ofChar_eq_space_iff (c : Char) :
    ofChar c = space ↔ c = ' ' ∨ c = '\t' ∨ c = '\x0c' ∨ c = '\x0b' := by
  constructor
  · intro h
    unfold ofChar at h
    split at h <;> simp_all
  · rintro (rfl | rfl | rfl | rfl) <;> rfl

end TokenType

/-! ### The text of tokens -/

/-- The characters of tokens in a row. -/
def charsOf (ts : List Token) : List Char :=
  ts.flatMap fun t => t.value.toList

@[simp]
theorem charsOf_nil : charsOf [] = [] := rfl

@[simp]
theorem charsOf_cons (t : Token) (ts : List Token) : charsOf (t :: ts) = t.value.toList ++ charsOf ts :=
  rfl

@[simp]
theorem charsOf_append (ts us : List Token) : charsOf (ts ++ us) = charsOf ts ++ charsOf us :=
  List.flatMap_append

theorem toList_joinTokens (ts : List Token) : (joinTokens ts).toList = charsOf ts := by
  rw [joinTokens, String.toList_join, charsOf, List.flatMap_map]

theorem joinTokens_eq (ts : List Token) : joinTokens ts = String.ofList (charsOf ts) := by
  rw [← toList_joinTokens, String.ofList_toList]

@[simp]
theorem joinTokens_nil : joinTokens [] = "" :=
  String.join_nil

@[simp]
theorem joinTokens_cons (t : Token) (ts : List Token) : joinTokens (t :: ts) = t.value ++ joinTokens ts :=
  String.join_cons

@[simp]
theorem joinTokens_append (ts us : List Token) : joinTokens (ts ++ us) = joinTokens ts ++ joinTokens us := by
  rw [joinTokens_eq, charsOf_append, String.ofList_append, ← joinTokens_eq, ← joinTokens_eq]

theorem Token.length_eq (t : Token) : t.length = t.value.toList.length :=
  String.length_toList.symm

/-! ### Cuts -/

/-- A token of a note: some characters of one type, and one only if they are line
breaks. -/
structure Token.WellFormed (t : Token) : Prop where
  filled : t.value.toList ≠ []
  chars : ∀ c ∈ t.value.toList, TokenType.ofChar c = t.type
  line : t.type = .newline → t.length = 1

/-- Two neighbours that are not one token: they have different types or are line
breaks. -/
def Token.Apart (t u : Token) : Prop :=
  t.type = u.type → t.type = .newline

/-- Tokens of which the first starts at `offset` and each other one where the one
before it stops. -/
def Located : Int → List Token → Prop
  | _, [] => True
  | offset, t :: ts => t.offset = offset ∧ Located (offset + t.length) ts

/-- Well-formed tokens, apart from each other, one behind the other from `offset`
on. -/
structure IsCut (offset : Int) (ts : List Token) : Prop where
  wellFormed : ∀ t ∈ ts, t.WellFormed
  apart : ts.IsChain Token.Apart
  located : Located offset ts

/-- A run: characters of one type, and one only if they are line breaks. -/
theorem isChain_sameRun_iff {c : Char} : ∀ {cs : List Char},
    (c :: cs).IsChain (fun a b => sameRun a b = true) ↔
      (∀ d ∈ cs, TokenType.ofChar d = TokenType.ofChar c) ∧ (TokenType.ofChar c = .newline → cs = [])
  | [] => by simp
  | d :: cs => by
    rw [List.isChain_cons_cons, isChain_sameRun_iff]
    simp only [sameRun, Bool.and_eq_true, beq_iff_eq, bne_iff_ne, ne_eq, List.forall_mem_cons,
      reduceCtorEq, imp_false]
    constructor
    · rintro ⟨⟨hcd, hn⟩, hall, -⟩
      exact ⟨⟨hcd.symm, fun a ha => (hall a ha).trans hcd.symm⟩, hn⟩
    · rintro ⟨⟨hdc, hall⟩, hn⟩
      exact ⟨⟨hdc.symm, hn⟩, fun a ha => (hall a ha).trans hdc.symm, fun h => absurd (hdc ▸ h) hn⟩

theorem locate_values_eq_iff : ∀ (offset : Nat) (ts : List Token),
    locate offset (ts.map fun t => t.value.toList) = ts ↔
      (∀ t ∈ ts, runType t.value.toList = t.type) ∧ Located offset ts
  | _, [] => by simp [locate, Located]
  | offset, ⟨type, value, off⟩ :: ts => by
    have hlen : ((offset + value.toList.length : Nat) : Int) =
        (offset : Int) + (Token.mk type value off).length := by
      rw [Token.length_eq]
      rfl
    rw [List.map_cons, locate, List.cons.injEq, locate_values_eq_iff, Located, hlen,
      List.forall_mem_cons, tokenOfRun]
    simp only [String.ofList_toList, Token.mk.injEq, true_and]
    constructor
    · rintro ⟨⟨htype, hoff⟩, hall, hloc⟩
      exact ⟨⟨htype, hall⟩, hoff.symm, hloc⟩
    · rintro ⟨⟨htype, hall⟩, hoff, hloc⟩
      exact ⟨⟨htype, hoff.symm⟩, hall, hloc⟩

theorem values_locate : ∀ (offset : Nat) (rs : List (List Char)),
    (locate offset rs).map (fun t => t.value.toList) = rs
  | _, [] => rfl
  | offset, r :: rs => by
    rw [locate, List.map_cons, values_locate, tokenOfRun, String.toList_ofList]

theorem Token.wellFormed_iff (t : Token) : t.WellFormed ↔ t.value.toList ≠ [] ∧
    runType t.value.toList = t.type ∧ t.value.toList.IsChain fun a b => sameRun a b = true := by
  constructor
  · rintro ⟨hne, hchars, hline⟩
    rw [Token.length_eq] at hline
    cases hv : t.value.toList with
    | nil => exact absurd hv hne
    | cons c cs =>
      rw [hv, List.forall_mem_cons] at hchars
      rw [hv] at hline
      refine ⟨List.cons_ne_nil _ _, hchars.1, isChain_sameRun_iff.mpr ⟨?_, ?_⟩⟩
      · exact fun d hd => (hchars.2 d hd).trans hchars.1.symm
      · exact fun h => by simpa using hline (hchars.1 ▸ h)
  · rintro ⟨hne, htype, hchain⟩
    cases hv : t.value.toList with
    | nil => exact absurd hv hne
    | cons c cs =>
      rw [hv] at htype hchain
      obtain ⟨hall, hline⟩ := isChain_sameRun_iff.mp hchain
      rw [runType] at htype
      refine ⟨by simp [hv], ?_, fun h => ?_⟩
      · rw [hv, List.forall_mem_cons]
        exact ⟨htype, fun d hd => (hall d hd).trans htype⟩
      · rw [Token.length_eq, hv, hline (htype.trans h), List.length_singleton]

/-- Two tokens are apart when the characters where they meet are. -/
theorem Token.apart_iff {t u : Token} (ht : t.WellFormed) (hu : u.WellFormed) : t.Apart u ↔
    ∃ hc hd, sameRun (t.value.toList.getLast hc) (u.value.toList.head hd) = false := by
  have hlast := ht.chars _ (List.getLast_mem ht.filled)
  have hhead := hu.chars _ (List.head_mem hu.filled)
  have hsame : sameRun (t.value.toList.getLast ht.filled) (u.value.toList.head hu.filled) = false ↔
      t.Apart u := by
    rw [sameRun, hlast, hhead, Token.Apart]
    by_cases h : t.type = u.type <;> simp [h]
  exact ⟨fun h => ⟨ht.filled, hu.filled, hsame.mpr h⟩, fun ⟨_, _, h⟩ => hsame.mp h⟩

/-- **The tokens of a text are its only cut.** -/
theorem tokensFrom_eq_iff {offset : Nat} {cs : List Char} {ts : List Token} :
    tokensFrom offset cs = ts ↔ charsOf ts = cs ∧ IsCut offset ts := by
  -- the values of the tokens are the runs
  have hruns : tokensFrom offset cs = ts ↔
      cs.splitBy sameRun = (ts.map fun t => t.value.toList) ∧
        locate offset (ts.map fun t => t.value.toList) = ts := by
    constructor
    · rintro rfl
      rw [tokensFrom, values_locate]
      exact ⟨rfl, rfl⟩
    · rintro ⟨h1, h2⟩
      rw [tokensFrom, runs, h1, h2]
  have hflat : (ts.map fun t => t.value.toList).flatten = charsOf ts := List.flatMap_def.symm
  rw [hruns, List.splitBy_eq_iff, locate_values_eq_iff, hflat, List.isChain_map]
  simp only [List.mem_map, not_exists, not_and, forall_exists_index, and_imp,
    forall_apply_eq_imp_iff₂]
  constructor
  · rintro ⟨⟨rfl, hne, hchain, hapart⟩, htype, hloc⟩
    have hwf : ∀ t ∈ ts, t.WellFormed := fun t ht =>
      t.wellFormed_iff.mpr ⟨hne t ht, htype t ht, hchain t ht⟩
    exact ⟨rfl, hwf, hapart.imp_of_mem_imp fun t u ht hu h => (Token.apart_iff (hwf t ht)
      (hwf u hu)).mpr h, hloc⟩
  · rintro ⟨rfl, hwf, hapart, hloc⟩
    have hrun := fun t ht => (Token.wellFormed_iff t).mp (hwf t ht)
    exact ⟨⟨rfl, fun t ht => (hrun t ht).1, fun t ht => (hrun t ht).2.2,
      hapart.imp_of_mem_imp fun t u ht hu h => (Token.apart_iff (hwf t ht) (hwf u hu)).mp h⟩,
      fun t ht => (hrun t ht).2.1, hloc⟩

theorem charsOf_tokensFrom (offset : Nat) (cs : List Char) : charsOf (tokensFrom offset cs) = cs :=
  (tokensFrom_eq_iff.mp rfl).1

theorem isCut_tokensFrom (offset : Nat) (cs : List Char) : IsCut offset (tokensFrom offset cs) :=
  (tokensFrom_eq_iff.mp rfl).2

theorem joinTokens_tokenize (source : String) : joinTokens (tokenize source) = source := by
  rw [joinTokens_eq, tokenize, charsOf_tokensFrom, String.ofList_toList]

/-! ### Parts of a cut -/

theorem located_append : ∀ {offset : Int} {ts us : List Token},
    Located offset (ts ++ us) ↔ Located offset ts ∧ Located (offset + (charsOf ts).length) us
  | offset, [], us => by simp [Located]
  | offset, t :: ts, us => by
    rw [List.cons_append, Located, located_append, Located, charsOf_cons, List.length_append,
      Token.length_eq, Int.natCast_add, and_assoc, Int.add_assoc]

theorem isCut_append {offset : Int} {ts us : List Token} : IsCut offset (ts ++ us) ↔
    IsCut offset ts ∧ IsCut (offset + (charsOf ts).length) us ∧
      ∀ t ∈ ts.getLast?, ∀ u ∈ us.head?, t.Apart u := by
  constructor
  · rintro ⟨hwf, hapart, hloc⟩
    obtain ⟨ha, hb, hseam⟩ := List.isChain_append.mp hapart
    obtain ⟨hl, hr⟩ := located_append.mp hloc
    exact ⟨⟨fun t ht => hwf t (List.mem_append_left _ ht), ha, hl⟩,
      ⟨fun t ht => hwf t (List.mem_append_right _ ht), hb, hr⟩, hseam⟩
  · rintro ⟨⟨hwf, ha, hl⟩, ⟨hwf', hb, hr⟩, hseam⟩
    refine ⟨fun t ht => ?_, List.isChain_append.mpr ⟨ha, hb, hseam⟩, located_append.mpr ⟨hl, hr⟩⟩
    rcases List.mem_append.mp ht with ht | ht
    · exact hwf t ht
    · exact hwf' t ht

theorem located_shift (delta : Int) : ∀ {offset : Int} {ts : List Token}, Located offset ts →
    Located (offset + delta) (ts.map (Token.shift delta))
  | _, [], _ => trivial
  | offset, t :: ts, ⟨hoff, hloc⟩ => by
    refine ⟨?_, ?_⟩
    · rw [Token.shift, hoff]
    · have ih := located_shift delta hloc
      rw [Int.add_right_comm] at ih
      exact ih

theorem charsOf_shift (delta : Int) (ts : List Token) :
    charsOf (ts.map (Token.shift delta)) = charsOf ts :=
  List.flatMap_map ..

theorem IsCut.shift (delta : Int) {offset : Int} {ts : List Token} (h : IsCut offset ts) :
    IsCut (offset + delta) (ts.map (Token.shift delta)) where
  wellFormed := by
    intro u hu
    obtain ⟨t, ht, rfl⟩ := List.mem_map.mp hu
    obtain ⟨hne, hchars, hline⟩ := h.wellFormed t ht
    exact ⟨hne, hchars, hline⟩
  apart := (List.isChain_map _).mpr h.apart
  located := located_shift delta h.located

/-- Further on in a note, the tokens are the same but for their place. -/
theorem tokensFrom_add (offset delta : Nat) (cs : List Char) :
    tokensFrom (offset + delta) cs = (tokensFrom offset cs).map (Token.shift delta) := by
  refine tokensFrom_eq_iff.mpr ⟨?_, ?_⟩
  · rw [charsOf_shift, charsOf_tokensFrom]
  · rw [Int.natCast_add]
    exact (isCut_tokensFrom offset cs).shift delta

theorem tokensFrom_eq_shift (offset : Nat) (source : String) :
    tokensFrom offset source.toList = (tokenize source).map (Token.shift offset) := by
  have hadd := tokensFrom_add 0 offset source.toList
  rwa [Nat.zero_add] at hadd

theorem isCut_cons {offset : Int} {t : Token} {ts : List Token} : IsCut offset (t :: ts) ↔
    t.WellFormed ∧ t.offset = offset ∧ (∀ u ∈ ts.head?, t.Apart u) ∧ IsCut (offset + t.length) ts := by
  constructor
  · rintro ⟨hwf, hapart, hoffset, hloc⟩
    obtain ⟨ht, hts⟩ := List.forall_mem_cons.mp hwf
    obtain ⟨hseam, hchain⟩ := List.isChain_cons.mp hapart
    exact ⟨ht, hoffset, hseam, hts, hchain, hloc⟩
  · rintro ⟨ht, hoffset, hseam, hts, hchain, hloc⟩
    exact ⟨List.forall_mem_cons.mpr ⟨ht, hts⟩, List.isChain_cons.mpr ⟨hseam, hchain⟩, hoffset, hloc⟩

theorem IsCut.of_slice {offset : Int} {ts us : List Token} (h : IsCut offset ts) (hu : us <:+: ts) :
    ∃ offset', IsCut offset' us := by
  obtain ⟨front, back, rfl⟩ := hu
  obtain ⟨hfront, -, -⟩ := isCut_append.mp h
  exact ⟨_, (isCut_append.mp hfront).2.1⟩

/-- **The text of a slice has the tokens of the slice**, counted from its start. -/
theorem IsCut.tokenize_joinTokens {offset : Int} {ts : List Token} (h : IsCut offset ts) :
    tokenize (joinTokens ts) = ts.map (Token.shift (-offset)) := by
  have hcut := h.shift (-offset)
  rw [Int.add_right_neg] at hcut
  refine tokensFrom_eq_iff.mpr ⟨?_, hcut⟩
  rw [charsOf_shift, toList_joinTokens]

theorem Located.le_offset : ∀ {offset : Int} {ts : List Token}, Located offset ts →
    ∀ t ∈ ts, offset ≤ t.offset
  | _, [], _ => by simp
  | offset, t :: ts, ⟨hoffset, hts⟩ => by
    rw [List.forall_mem_cons]
    refine ⟨Int.le_of_eq hoffset.symm, fun u hu => ?_⟩
    have hle := Located.le_offset hts u hu
    omega

theorem Located.exists_ends : ∀ {offset : Int} {ts : List Token}, Located offset ts → ts ≠ [] →
    ∃ first last, ts.head? = some first ∧ ts.getLast? = some last ∧ first.offset = offset ∧
      last.stop = offset + (charsOf ts).length
  | _, [], _, hne => absurd rfl hne
  | offset, [t], ⟨hoffset, _⟩, _ => by
    refine ⟨t, t, rfl, rfl, hoffset, ?_⟩
    rw [Token.stop, hoffset, Token.length_eq, charsOf_cons, charsOf_nil, List.append_nil]
  | offset, t :: u :: ts, ⟨hoffset, hts⟩, _ => by
    obtain ⟨-, last, -, hlast, -, hstop⟩ := Located.exists_ends hts (List.cons_ne_nil u ts)
    refine ⟨t, last, rfl, ?_, hoffset, ?_⟩
    · rw [List.getLast?_cons_cons, hlast]
    · rw [hstop, charsOf_cons t, List.length_append, ← Token.length_eq]
      omega

/-- No token occurs twice: each starts behind those before it. -/
theorem IsCut.nodup {offset : Int} {ts : List Token} (h : IsCut offset ts) : ts.Nodup := by
  induction ts generalizing offset with
  | nil => exact List.nodup_nil
  | cons t ts ih =>
    obtain ⟨ht, hoffset, -, hts⟩ := isCut_cons.mp h
    have hlength : 0 < t.length := by
      rw [Token.length_eq]
      exact List.length_pos_iff.mpr ht.filled
    refine List.nodup_cons.mpr ⟨fun hmem => ?_, ih hts⟩
    have hle := hts.located.le_offset t hmem
    omega

theorem nodup_tokenize (source : String) : (tokenize source).Nodup :=
  (isCut_tokensFrom 0 source.toList).nodup

theorem toList_of_split {source : String} {front us back : List Token}
    (h : tokenize source = front ++ us ++ back) :
    source.toList = charsOf front ++ charsOf us ++ charsOf back := by
  rw [← charsOf_append, ← charsOf_append, ← h, tokenize, charsOf_tokensFrom]

theorem located_of_split {source : String} {front us back : List Token}
    (h : tokenize source = front ++ us ++ back) : Located (charsOf front).length us := by
  have hcut := isCut_tokensFrom 0 source.toList
  rw [← tokenize, h] at hcut
  have hlocated := (located_append.mp (located_append.mp hcut.located).1).2
  rwa [Int.natCast_zero, Int.zero_add] at hlocated

theorem locate_append : ∀ (offset : Nat) (rs ss : List (List Char)),
    locate offset (rs ++ ss) = locate offset rs ++ locate (offset + rs.flatten.length) ss
  | _, [], _ => rfl
  | offset, r :: rs, ss => by
    rw [List.cons_append, locate, locate_append, locate, List.flatten_cons, List.length_append,
      Nat.add_assoc, List.cons_append]

/-- Where two texts do not grow into each other, their tokens stay as they are. -/
theorem tokensFrom_append {offset : Nat} {as bs : List Char}
    (h : ∀ a ∈ as.getLast?, ∀ b ∈ bs.head?, sameRun a b = false) :
    tokensFrom offset (as ++ bs) = tokensFrom offset as ++ tokensFrom (offset + as.length) bs := by
  rw [tokensFrom, runs, List.splitBy_append h, locate_append, List.flatten_splitBy]
  rfl

theorem tokensFrom_run (offset : Nat) {cs : List Char} (hne : cs ≠ [])
    (h : cs.IsChain fun a b => sameRun a b = true) :
    tokensFrom offset cs = [tokenOfRun offset cs] := by
  rw [tokensFrom, runs, List.splitBy_of_isChain hne h]
  rfl

theorem map_head?_charsOf {ts : List Token} (h : ∀ t ∈ ts, t.WellFormed) :
    (charsOf ts).head?.map TokenType.ofChar = ts.head?.map Token.type := by
  cases ts with
  | nil => rfl
  | cons t ts =>
    obtain ⟨hne, hchars, -⟩ := h t List.mem_cons_self
    cases hv : t.value.toList with
    | nil => exact absurd hv hne
    | cons c cs =>
      rw [hv] at hchars
      simp [hv, hchars c List.mem_cons_self]

theorem map_getLast?_charsOf {ts : List Token} (h : ∀ t ∈ ts, t.WellFormed) :
    (charsOf ts).getLast?.map TokenType.ofChar = ts.getLast?.map Token.type := by
  rcases List.eq_nil_or_concat ts with rfl | ⟨us, t, rfl⟩
  · rfl
  · obtain ⟨hne, hchars, -⟩ := h t (by simp)
    have hlast := hchars _ (List.getLast_mem hne)
    simp [List.getLast?_append, List.getLast?_eq_getLast_of_ne_nil hne, hlast]

/-! ### Maximal runs of a character -/

/-- Somewhere in the text stand `k` times `x`, with no `x` before or behind. -/
def HasRun (x : Char) (k : Nat) (cs : List Char) : Prop :=
  ∃ front back, cs = front ++ (List.replicate k x ++ back) ∧ front.getLast? ≠ some x ∧
    back.head? ≠ some x

section MarkupChar

variable {type : TokenType} {x : Char}

theorem TokenType.ne_newline_of_markChar? (hx : type.markChar? = some x) : type ≠ .newline := by
  rintro rfl
  cases hx

theorem sameRun_right_eq_false_iff (hx : type.markChar? = some x) (c : Char) :
    sameRun x c = false ↔ c ≠ x := by
  have htype := TokenType.ofChar_of_markChar? hx
  have hne := TokenType.ne_newline_of_markChar? hx
  rw [sameRun, htype, ne_eq, ← TokenType.ofChar_eq_iff hx]
  by_cases h : TokenType.ofChar c = type
  · simp [h, hne]
  · simp [h, Ne.symm h]

theorem sameRun_left_eq_false_iff (hx : type.markChar? = some x) (c : Char) :
    sameRun c x = false ↔ c ≠ x := by
  have htype := TokenType.ofChar_of_markChar? hx
  have hne := TokenType.ne_newline_of_markChar? hx
  rw [sameRun, htype, ne_eq, ← TokenType.ofChar_eq_iff hx]
  by_cases h : TokenType.ofChar c = type <;> simp [h, hne]

theorem tokensFrom_replicate (hx : type.markChar? = some x) (offset : Nat) {k : Nat} (hk : 0 < k) :
    tokensFrom offset (List.replicate k x) =
      [{ type, value := String.ofList (List.replicate k x), offset }] := by
  obtain ⟨n, rfl⟩ := Nat.exists_eq_succ_of_ne_zero (Nat.ne_of_gt hk)
  have htype := TokenType.ofChar_of_markChar? hx
  have hne := TokenType.ne_newline_of_markChar? hx
  rw [tokensFrom_run, tokenOfRun, List.replicate_succ, runType, htype]
  · exact List.replicate_succ ▸ List.cons_ne_nil _ _
  · rw [List.replicate_succ, isChain_sameRun_iff]
    refine ⟨fun d hd => by rw [List.eq_of_mem_replicate hd], fun h => absurd (htype.symm.trans h) hne⟩

/-- Where some of a markup character stand with none of it around, they are a
token. -/
theorem tokensFrom_around (hx : type.markChar? = some x) (offset : Nat) {k : Nat} (hk : 0 < k)
    {front back : List Char} (hfront : front.getLast? ≠ some x) (hback : back.head? ≠ some x) :
    tokensFrom offset (front ++ (List.replicate k x ++ back)) = tokensFrom offset front ++
      ({ type, value := String.ofList (List.replicate k x), offset := (offset + front.length : Nat) } ::
        tokensFrom (offset + front.length + k) back) := by
  rw [tokensFrom_append, tokensFrom_append, tokensFrom_replicate hx _ hk, List.length_replicate,
    List.singleton_append]
  · intro a ha b hb
    obtain rfl := List.eq_of_mem_replicate (List.mem_of_getLast? ha)
    exact (sameRun_right_eq_false_iff hx b).mpr fun h => hback (h ▸ hb)
  · intro a ha b hb
    have hbx : b = x := by
      obtain ⟨n, rfl⟩ := Nat.exists_eq_succ_of_ne_zero (Nat.ne_of_gt hk)
      simpa [List.replicate_succ, eq_comm] using hb
    rw [hbx]
    exact (sameRun_left_eq_false_iff hx a).mpr fun h => hfront (h ▸ ha)

theorem tokensFrom_marker (hx : type.markChar? = some x) (offset : Nat) {k : Nat} (hk : 0 < k)
    {back : List Char} (hback : back.head? ≠ some x) :
    tokensFrom offset (List.replicate k x ++ back) =
      { type, value := String.ofList (List.replicate k x), offset := offset } ::
        tokensFrom (offset + k) back := by
  have hfront : ([] : List Char).getLast? ≠ some x := by simp
  exact tokensFrom_around hx offset hk hfront hback

theorem Token.WellFormed.value_eq_replicate {t : Token} (h : t.WellFormed)
    (hx : t.type.markChar? = some x) : t.value.toList = List.replicate t.length x :=
  List.eq_replicate_iff.mpr ⟨t.length_eq.symm, fun c hc =>
    TokenType.eq_of_markChar? ((h.chars c hc).symm ▸ hx)⟩

/-- **The maximal runs of a markup character are its tokens.** -/
theorem hasRun_iff (hx : type.markChar? = some x) {k : Nat} (hk : 0 < k) (offset : Nat)
    (cs : List Char) :
    HasRun x k cs ↔ ∃ t ∈ tokensFrom offset cs, t.isMarker type k = true := by
  constructor
  · rintro ⟨front, back, rfl, hfront, hback⟩
    rw [tokensFrom_around hx offset hk hfront hback]
    refine ⟨_, List.mem_append_right _ List.mem_cons_self, ?_⟩
    simp [Token.isMarker, Token.length]
  · rintro ⟨t, ht, hmark⟩
    rw [Token.isMarker_iff, Int.natCast_inj] at hmark
    obtain ⟨rfl, rfl⟩ := hmark
    obtain ⟨us, vs, hts⟩ := List.append_of_mem ht
    have hcut := isCut_tokensFrom offset cs
    have hchars := charsOf_tokensFrom offset cs
    have hne := TokenType.ne_newline_of_markChar? hx
    rw [hts] at hcut hchars
    obtain ⟨hus, hright, hseam⟩ := isCut_append.mp hcut
    have hvs := (List.isChain_cons.mp hright.apart).1
    have hwf := hright.wellFormed t List.mem_cons_self
    refine ⟨charsOf us, charsOf vs, ?_, ?_, ?_⟩
    · rw [← hchars, charsOf_append, charsOf_cons, hwf.value_eq_replicate hx]
    · -- the token before is of another type, and so is its last character
      intro hlast
      have htype := map_getLast?_charsOf hus.wellFormed
      rw [hlast, Option.map_some, TokenType.ofChar_of_markChar? hx] at htype
      obtain ⟨u, hu, hut⟩ := Option.map_eq_some_iff.mp htype.symm
      exact hne (hut ▸ hseam u hu t rfl hut)
    · intro hhead
      have htype := map_head?_charsOf fun v hv =>
        hright.wellFormed v (List.mem_cons_of_mem t hv)
      rw [hhead, Option.map_some, TokenType.ofChar_of_markChar? hx] at htype
      obtain ⟨v, hv, hvt⟩ := Option.map_eq_some_iff.mp htype.symm
      exact hne (hvs v hv hvt.symm)

end MarkupChar

end InlineMarkup
