/-
# The one tokenization of a note

The tokens of a note are told by their characters alone: they spell the note, they
stand one behind the other from its start on, each is written in the characters of
its type, and two neighbours of one type are line breaks. No other list of tokens is
like that (`isTokenization_iff`): a token that stopped earlier would have a neighbour
of its own type, and one that went on would hold a character of another.

Key definitions: `TokenType.Spells`, `IsTokenization`.
Key theorems: `spells_iff_wellFormed`, `located_iff`, `isTokenization_iff`.
-/
import InlineMarkup.Proofs.Tokenization

namespace InlineMarkup

/-! ### The characters of a type -/

/-- The characters of which markup is made. -/
def markupChars : List Char :=
  ['*', '_', '\x60', '!', '[', ']', '(', ')', '#', '~', '=']

/-- The characters that end a line. -/
def lineBreaks : List Char :=
  ['\n', '\r']

/-- The blank characters within a line: blank, tab, form feed and vertical tab. -/
def horizontalSpaces : List Char :=
  [' ', '\t', '\x0c', '\x0b']

/-- The texts that a token of a type can have. -/
def TokenType.Spells : TokenType → List Char → Prop
  | .text, cs => cs ≠ [] ∧ ∀ c ∈ cs, c ∉ markupChars ∧ c ∉ lineBreaks ∧ c ∉ horizontalSpaces
  | .space, cs => cs ≠ [] ∧ ∀ c ∈ cs, c ∈ horizontalSpaces
  | .newline, cs => cs = ['\n'] ∨ cs = ['\r']
  | type, cs => ∃ x n, type.markChar? = some x ∧ 0 < n ∧ cs = List.replicate n x

namespace TokenType

theorem mem_markupChars_iff {c : Char} : c ∈ markupChars ↔ (ofChar c).isMarkup = true := by
  constructor
  · have hall : markupChars.all (fun c => (ofChar c).isMarkup) = true := by decide
    exact List.all_eq_true.mp hall c
  · intro h
    obtain ⟨x, hx⟩ := Option.isSome_iff_exists.mp h
    rw [eq_of_markChar? hx]
    revert hx
    cases ofChar c <;> simp [markChar?, markupChars] <;> rintro rfl <;> simp

theorem mem_lineBreaks_iff {c : Char} : c ∈ lineBreaks ↔ ofChar c = newline := by
  rw [ofChar_eq_newline_iff]
  simp [lineBreaks]

theorem mem_horizontalSpaces_iff {c : Char} : c ∈ horizontalSpaces ↔ ofChar c = space := by
  rw [ofChar_eq_space_iff]
  simp [horizontalSpaces]

theorem ofChar_eq_text_iff {c : Char} : ofChar c = text ↔
    c ∉ markupChars ∧ c ∉ lineBreaks ∧ c ∉ horizontalSpaces := by
  rw [mem_markupChars_iff, mem_lineBreaks_iff, mem_horizontalSpaces_iff]
  cases ofChar c <;> decide

end TokenType

theorem wellFormed_iff_replicate {t : Token} {x : Char} (hx : t.type.markChar? = some x) :
    t.WellFormed ↔ ∃ n, 0 < n ∧ t.value.toList = List.replicate n x := by
  constructor
  · intro h
    refine ⟨t.length, ?_, h.value_eq_replicate hx⟩
    rw [Token.length_eq]
    exact List.length_pos_iff.mpr h.filled
  · rintro ⟨n, hn, hval⟩
    refine ⟨?_, ?_, ?_⟩
    · rw [hval, ne_eq, List.replicate_eq_nil_iff]
      exact Nat.ne_of_gt hn
    · intro c hc
      rw [hval] at hc
      rw [List.eq_of_mem_replicate hc]
      exact TokenType.ofChar_of_markChar? hx
    · exact fun h => absurd h (TokenType.ne_newline_of_markChar? hx)

/-- What a token that is no line break asks of its text: some characters of its type. -/
theorem wellFormed_iff_of_ne_newline {t : Token} (ht : t.type ≠ .newline) :
    t.WellFormed ↔ t.value.toList ≠ [] ∧ ∀ c ∈ t.value.toList, TokenType.ofChar c = t.type :=
  ⟨fun h => ⟨h.filled, h.chars⟩, fun ⟨hne, hall⟩ => ⟨hne, hall, fun h => absurd h ht⟩⟩

theorem wellFormed_iff_of_newline {t : Token} (ht : t.type = .newline) :
    t.WellFormed ↔ t.value.toList = ['\n'] ∨ t.value.toList = ['\r'] := by
  constructor
  · rintro ⟨-, hall, hlen⟩
    obtain ⟨c, hc⟩ := List.length_eq_one_iff.mp (t.length_eq ▸ hlen ht)
    have hbreak := hall c (hc ▸ List.mem_singleton_self c)
    rw [ht, TokenType.ofChar_eq_newline_iff] at hbreak
    rcases hbreak with rfl | rfl
    · exact .inl hc
    · exact .inr hc
  · intro h
    have hlen : t.length = 1 := by
      rw [Token.length_eq]
      rcases h with h | h <;> rw [h] <;> rfl
    have hall : ∀ c ∈ t.value.toList, TokenType.ofChar c = t.type := by
      rw [ht]
      rcases h with h | h <;> rw [h] <;> simp [TokenType.ofChar]
    refine ⟨?_, hall, fun _ => hlen⟩
    rcases h with h | h <;> rw [h] <;> exact List.cons_ne_nil _ _

/-- A token is well formed when its text is one that its type can have. -/
theorem spells_iff_wellFormed {t : Token} : t.type.Spells t.value.toList ↔ t.WellFormed := by
  cases htype : t.type with
  | text =>
    rw [wellFormed_iff_of_ne_newline (by simp [htype]), htype]
    simp only [TokenType.Spells, TokenType.ofChar_eq_text_iff]
  | space =>
    rw [wellFormed_iff_of_ne_newline (by simp [htype]), htype]
    simp only [TokenType.Spells, TokenType.mem_horizontalSpaces_iff]
  | newline => exact (wellFormed_iff_of_newline htype).symm
  | _ =>
    rw [wellFormed_iff_replicate (by rw [htype]; rfl)]
    simp [TokenType.Spells, TokenType.markChar?]

/-! ### Tokens in a row -/

/-- Tokens are in their places when the first starts where it should and each other one
where the one before it stops. -/
theorem located_iff : ∀ {offset : Int} {ts : List Token}, Located offset ts ↔
    (∀ t ∈ ts.head?, t.offset = offset) ∧ ts.IsChain fun t u => u.offset = t.stop
  | _, [] => by simp [Located]
  | offset, t :: ts => by
    rw [Located, located_iff, List.isChain_cons, Token.stop]
    constructor
    · rintro ⟨rfl, hhead, hchain⟩
      exact ⟨by simp, hhead, hchain⟩
    · rintro ⟨hoffset, hhead, hchain⟩
      obtain rfl : t.offset = offset := by simpa using hoffset
      exact ⟨rfl, hhead, hchain⟩

/-- A list of tokens is a tokenization of a note: put together its tokens are the note,
the first starts at zero and each other one where the one before it stops, each has a text
of its type, and neighbours of one type are both line breaks. -/
structure IsTokenization (source : String) (ts : List Token) : Prop where
  joins : joinTokens ts = source
  starts : ∀ t ∈ ts.head?, t.offset = 0
  follows : ts.IsChain fun t u => u.offset = t.stop
  spelled : ∀ t ∈ ts, t.type.Spells t.value.toList
  maximal : ts.IsChain fun t u => t.type = u.type → t.type = .newline ∧ u.type = .newline

theorem apart_iff_both {t u : Token} :
    t.Apart u ↔ (t.type = u.type → t.type = .newline ∧ u.type = .newline) :=
  ⟨fun h he => ⟨h he, he ▸ h he⟩, fun h he => (h he).1⟩

theorem isTokenization_iff_isCut {source : String} {ts : List Token} :
    IsTokenization source ts ↔ charsOf ts = source.toList ∧ IsCut 0 ts := by
  have hjoin : joinTokens ts = source ↔ charsOf ts = source.toList := by
    rw [← toList_joinTokens, String.toList_inj]
  have hapart : ts.IsChain Token.Apart ↔
      ts.IsChain fun t u => t.type = u.type → t.type = .newline ∧ u.type = .newline := by
    simp only [← apart_iff_both]
  constructor
  · rintro ⟨hjoins, hstarts, hfollows, hspelled, hmaximal⟩
    exact ⟨hjoin.mp hjoins, fun t ht => spells_iff_wellFormed.mp (hspelled t ht),
      hapart.mpr hmaximal, located_iff.mpr ⟨hstarts, hfollows⟩⟩
  · rintro ⟨hchars, hwf, hchain, hloc⟩
    obtain ⟨hstarts, hfollows⟩ := located_iff.mp hloc
    exact ⟨hjoin.mpr hchars, hstarts, hfollows, fun t ht => spells_iff_wellFormed.mpr (hwf t ht),
      hapart.mp hchain⟩

/-- **A note has one tokenization**, and it is the one that the tokenizer makes. -/
theorem isTokenization_iff (source : String) (ts : List Token) :
    IsTokenization source ts ↔ ts = tokenize source := by
  rw [isTokenization_iff_isCut, @eq_comm _ ts, tokenize, tokensFrom_eq_iff]
  rfl

/-- A run of one character is one token, a space is not cut where its character changes,
and line breaks are never put together. -/
example : tokenize "a**\t \n\r" = [⟨.text, "a", 0⟩, ⟨.asterisk, "**", 1⟩, ⟨.space, "\t ", 3⟩,
    ⟨.newline, "\n", 5⟩, ⟨.newline, "\r", 6⟩] := by
  decide

end InlineMarkup
