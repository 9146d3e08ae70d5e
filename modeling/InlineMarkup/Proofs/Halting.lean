/-
# Every run ends within the limit

Nothing is asked of a matcher: the content of a container that it finds need not be
smaller than the tokens it was found in, nor be taken from them. Still every run ends. A
run moves from place to place: to the next token, behind a match, or into the content of
a container. Into content there is one level less, and on a level a match that is not at
fault covers a token at least, so there is no endless sequence of moves
(`Engine.wellFounded_moves`).

What holds of the nodes from a place on is shown along the moves (`Engine.ends`): either
they nest no deeper than there are levels, and on no level there are more of them than
tokens, or a matcher that reported less than one token is at fault.

Key definitions: `Cursor`, `Engine.Moves`, `Engine.Blames`, `Engine.Ends`.
Key theorems: `Engine.wellFounded_moves`, `Engine.nodesFrom_eq`, `Engine.ends`,
`halts_within_limit`.
-/
import Mathlib.Logic.Relation
import InlineMarkup.Loose.Engine
import InlineMarkup.Proofs.DepthBound
import InlineMarkup.Proofs.JsonScalars

namespace InlineMarkup

/-! ### What a step finds -/

/-- What a step at a position leaves, by what is found there. -/
inductive Engine.Finds (e : Engine) (nested : Engine.Nested) (seq : TokenSeq) (p : Nat) :
    Outcome (Option Match) → Prop
  | nothing (first : firstMatch? e.matchers (.indexed seq) p = none) : Finds e nested seq p (.done none)
  | fault {m : Matcher} {found : Match}
      (first : firstMatch? e.matchers (.indexed seq) p = some (m, found)) (short : found.consumed < 1) :
      Finds e nested seq p (.failed (.ofShortMatch m.name p (.int found.consumed)))
  | leaf {m : Matcher} {found : Match}
      (first : firstMatch? e.matchers (.indexed seq) p = some (m, found)) (covers : 1 ≤ found.consumed)
      (plain : found.node.isContainer = false) : Finds e nested seq p (.done (some found))
  | refused {m : Matcher} {kind : ContainerKind} {content : List Token} {inner : List Node}
      {consumed : Int}
      (first : firstMatch? e.matchers (.indexed seq) p =
        some (m, ⟨.container kind content inner, consumed⟩))
      (covers : 1 ≤ consumed) (last : nested = none) :
      Finds e nested seq p { events := [.tooDeep m.name p e.limit], result := .ok none }
  | box {m : Matcher} {kind : ContainerKind} {content : List Token} {inner : List Node}
      {consumed : Int} {parse : TokenSeq → Outcome (List Node)}
      (first : firstMatch? e.matchers (.indexed seq) p =
        some (m, ⟨.container kind content inner, consumed⟩))
      (covers : 1 ≤ consumed) (room : nested = some parse) :
      Finds e nested seq p
        ((parse (TokenSeq.ofList content (TokenView.tokenBefore? (.indexed seq) p))).map
          fun children => some ⟨.container kind content children, consumed⟩)

theorem Engine.step_finds (e : Engine) (nested : Engine.Nested) (seq : TokenSeq) (p : Nat) :
    e.Finds nested seq p (e.step nested seq p) := by
  unfold step
  cases hf : firstMatch? e.matchers (.indexed seq) p with
  | none => exact .nothing hf
  | some found =>
    obtain ⟨m, node, consumed⟩ := found
    by_cases hlt : consumed < 1
    · simp only [if_pos hlt]
      exact .fault hf hlt
    · have hpos : 1 ≤ consumed := by omega
      simp only [if_neg hlt]
      cases node with
      | container kind content inner =>
        cases nested with
        | none => exact .refused hf hpos rfl
        | some parse => exact .box hf hpos rfl
      | _ => exact .leaf hf hpos rfl

theorem Engine.one_le_of_step {e : Engine} {nested : Engine.Nested} {seq : TokenSeq} {p : Nat}
    {found : Match} (h : (e.step nested seq p).result = .ok (some found)) : 1 ≤ found.consumed := by
  have hfinds := e.step_finds nested seq p
  generalize e.step nested seq p = o at h hfinds
  cases hfinds with
  | nothing first => cases h
  | fault first short => cases h
  | leaf first covers plain =>
    obtain rfl := Option.some.inj (Except.ok.inj h)
    exact covers
  | refused first covers last => cases h
  | box first covers room =>
    obtain ⟨children, -, hfound⟩ := map_eq_ok_iff.mp h
    obtain rfl := Option.some.inj hfound
    exact covers

/-! ### Places and moves -/

/-- A place in a run: the levels left, the token in front of a sequence, its tokens, and a
position among them. -/
structure Cursor where
  levels : Nat
  before : Option Token
  tokens : List Token
  position : Nat

namespace Cursor

/-- The sequence at a place. -/
def seq (c : Cursor) : TokenSeq :=
  TokenSeq.ofList c.tokens c.before

/-- The number of tokens from a place on. -/
def left (c : Cursor) : Nat :=
  c.tokens.length - c.position

/-- The place some tokens further on. -/
def forward (c : Cursor) (n : Nat) : Cursor :=
  { c with position := c.position + n }

theorem left_forward (c : Cursor) (n : Nat) : (c.forward n).left = c.left - n := by
  simp only [left, forward]
  omega

end Cursor

namespace Engine

/-- What stands at a place. -/
def stepAt (e : Engine) (c : Cursor) : Outcome (Option Match) :=
  e.step (e.nestedAt c.levels) c.seq c.position

/-- The nodes from a place on, before they are handed out. -/
def nodesFrom (e : Engine) (c : Cursor) : Outcome (List Node) :=
  e.walk (e.nestedAt c.levels) c.seq c.position 0 (c.tokens.drop c.position)

/-- The moves of a run from a place where there is a token left: to the next token where
nothing is found or a container is refused, behind a match, and into the content of a
container, for which one level less is left. -/
inductive Moves (e : Engine) (c : Cursor) : Cursor → Prop
  | next (inside : c.position < c.tokens.length) (nothing : (e.stepAt c).result = .ok none) :
      Moves e c (c.forward 1)
  | behind {m : Match} (inside : c.position < c.tokens.length)
      (found : (e.stepAt c).result = .ok (some m)) : Moves e c (c.forward m.consumed.toNat)
  | into {m : Matcher} {kind : ContainerKind} {content : List Token} {inner : List Node}
      {consumed : Int} {levels : Nat} (inside : c.position < c.tokens.length)
      (first : firstMatch? e.matchers (.indexed c.seq) c.position =
        some (m, ⟨.container kind content inner, consumed⟩))
      (covers : 1 ≤ consumed) (room : c.levels = levels + 1) :
      Moves e c ⟨levels, TokenView.tokenBefore? (.indexed c.seq) c.position, content, 0⟩

/-- A move leaves fewer levels, or on the same level fewer tokens. -/
theorem Moves.lex {e : Engine} {c c' : Cursor} (h : e.Moves c c') :
    Prod.Lex (· < ·) (· < ·) (c'.levels, c'.left) (c.levels, c.left) := by
  have hleft : c.position < c.tokens.length → 0 < c.left := Nat.sub_pos_of_lt
  cases h with
  | next inside nothing =>
    refine Prod.Lex.right _ ?_
    rw [Cursor.left_forward]
    have := hleft inside
    omega
  | behind inside found =>
    refine Prod.Lex.right _ ?_
    have hcovers := one_le_of_step found
    have := hleft inside
    rw [Cursor.left_forward]
    omega
  | into inside first covers room =>
    refine Prod.Lex.left _ _ ?_
    rw [room]
    exact Nat.lt_succ_self _

/-- **No run moves on for ever**, whatever the matchers find. -/
theorem wellFounded_moves (e : Engine) : WellFounded fun c' c => e.Moves c c' :=
  Subrelation.wf (fun h => Moves.lex h)
    (InvImage.wf (fun c : Cursor => (c.levels, c.left))
      (Prod.lex Nat.lt_wfRel Nat.lt_wfRel).wf)

/-! ### The loop -/

theorem nodesFrom_of_end (e : Engine) {c : Cursor} (h : c.tokens.length ≤ c.position) :
    e.nodesFrom c = .done [] := by
  rw [nodesFrom, List.drop_eq_nil_of_le h, walk]

/-- The nodes from a place on: what stands there, and the nodes from where the run moves. -/
theorem nodesFrom_eq (e : Engine) {c : Cursor} (h : c.position < c.tokens.length) :
    e.nodesFrom c = (e.stepAt c).andThen fun
      | none => (e.nodesFrom (c.forward 1)).map (.text c.tokens[c.position].value :: ·)
      | some found => (e.nodesFrom (c.forward found.consumed.toNat)).map (found.node :: ·) := by
  rw [nodesFrom, List.drop_eq_getElem_cons h, walk]
  unfold Outcome.andThen
  rw [stepAt]
  cases hstep : (e.step (e.nestedAt c.levels) c.seq c.position).result with
  | error fault => rfl
  | ok found =>
    cases found with
    | none => rfl
    | some found =>
      -- the walk passes over the other tokens of the match one by one
      have hcovers := one_le_of_step hstep
      have hposition : c.position + 1 + (found.consumed.toNat - 1) =
          c.position + found.consumed.toNat := by omega
      simp only [walk_covered _ _ (found.consumed.toNat - 1), List.drop_drop, hposition]
      rfl

/-! ### How runs end -/

end Engine

/-- A container has no more children than content tokens. -/
def Node.Fits : Node → Prop
  | .container _ content children => children.length ≤ content.length
  | _ => True

theorem Node.fits_of_plain {n : Node} (h : n.isContainer = false) : n.Fits := by
  cases n with
  | container => cases h
  | _ => trivial

namespace Engine

/-- A fault that a matcher is to blame for: it reported less than one token, at a position
of the tokens or of the content of containers found in them. -/
def Blames (e : Engine) (ts : List Token) (fault : Fault) : Prop :=
  ∃ us before p m found, Relation.ReflTransGen e.Opens ts us ∧ p < us.length ∧
    firstMatch? e.matchers (.indexed (TokenSeq.ofList us before)) p = some (m, found) ∧
    found.consumed < 1 ∧ fault = .ofShortMatch m.name p (.int found.consumed)

/-- Nodes that nest no deeper than there are levels, and of which there are no more than
tokens, on any level. -/
structure Bounded (levels tokens : Nat) (nodes : List Node) : Prop where
  depth : Node.depthAll nodes ≤ levels
  length : nodes.length ≤ tokens
  fits : ∀ n ∈ preorderAll nodes, n.Fits

/-- A run ends in nodes within the bounds, or in a fault of a matcher. -/
inductive Ends (e : Engine) (levels tokens : Nat) (ts : List Token) : Except Fault (List Node) → Prop
  | nodes {ns : List Node} (bounded : Bounded levels tokens ns) : Ends e levels tokens ts (.ok ns)
  | fault {fault : Fault} (blames : e.Blames ts fault) : Ends e levels tokens ts (.error fault)

variable {e : Engine} {levels tokens : Nat} {ts : List Token}

theorem Bounded.nil : Bounded levels tokens [] :=
  ⟨Nat.zero_le _, Nat.zero_le _, by simp [preorderAll]⟩

theorem Bounded.cons {n : Node} {ns : List Node} {rest : Nat} (hdepth : n.depth ≤ levels)
    (hfits : ∀ m ∈ n.preorder, m.Fits) (hrest : rest + 1 ≤ tokens) (h : Bounded levels rest ns) :
    Bounded levels tokens (n :: ns) where
  depth := by
    rw [Node.depthAll]
    exact Nat.max_le.mpr ⟨hdepth, h.depth⟩
  length := by
    rw [List.length_cons]
    exact Nat.le_trans (Nat.succ_le_succ h.length) hrest
  fits := by
    rw [preorderAll, List.forall_mem_append]
    exact ⟨hfits, h.fits⟩

theorem length_mergeTexts_le (ns : List Node) : (mergeTexts ns).length ≤ ns.length := by
  induction ns with
  | nil => exact Nat.le_refl _
  | cons n ns ih =>
    rcases mergeTexts_cons_cases n ns with hkept | ⟨a, b, rest, -, hns, hjoined⟩
    · rw [hkept, List.length_cons, List.length_cons]
      exact Nat.succ_le_succ ih
    · rw [hns] at ih
      rw [hjoined]
      exact Nat.le_succ_of_le ih

theorem Bounded.finish {ns : List Node} (h : Bounded levels tokens ns) (e : Engine) :
    Bounded levels tokens (e.finish ns) where
  depth := by
    rw [depthAll_finish]
    exact h.depth
  length := by
    have hlength : (e.finish ns).length ≤ ns.length := by
      unfold Engine.finish
      split
      · exact length_mergeTexts_le ns
      · exact Nat.le_refl _
    exact Nat.le_trans hlength h.length
  fits := e.forall_preorderAll_finish (fun _ => trivial) h.fits

theorem Ends.finish {result : Except Fault (List Node)} (h : e.Ends levels tokens ts result) :
    e.Ends levels tokens ts (result.map e.finish) := by
  cases h with
  | nodes bounded => exact .nodes (bounded.finish e)
  | fault blames => exact .fault blames

theorem Ends.cons {n : Node} {o : Outcome (List Node)} {rest : Nat} (hdepth : n.depth ≤ levels)
    (hfits : ∀ m ∈ n.preorder, m.Fits) (hrest : rest + 1 ≤ tokens)
    (h : e.Ends levels rest ts o.result) : e.Ends levels tokens ts (o.map (n :: ·)).result := by
  rw [Outcome.map]
  cases hresult : o.result with
  | error fault =>
    rw [hresult] at h
    cases h with
    | fault blames => exact .fault blames
  | ok ns =>
    rw [hresult] at h
    cases h with
    | nodes bounded => exact .nodes (.cons hdepth hfits hrest bounded)

section Cases

variable {c : Cursor}

theorem ends_of_none (inside : c.position < c.tokens.length) (h : (e.stepAt c).result = .ok none)
    (hnext : e.Ends c.levels (c.forward 1).left c.tokens (e.nodesFrom (c.forward 1)).result) :
    e.Ends c.levels c.left c.tokens (e.nodesFrom c).result := by
  have hleft : (c.forward 1).left + 1 ≤ c.left := by
    rw [Cursor.left_forward, Cursor.left]
    omega
  have hdepth : (Node.text c.tokens[c.position].value).depth ≤ c.levels := by
    rw [Node.depth_of_plain rfl]
    exact Nat.zero_le _
  rw [e.nodesFrom_eq inside, result_andThen_of_ok _ h]
  exact hnext.cons hdepth (by simp [Node.preorder, Node.Fits]) hleft

theorem ends_of_some {found : Match} (inside : c.position < c.tokens.length)
    (h : (e.stepAt c).result = .ok (some found)) (hdepth : found.node.depth ≤ c.levels)
    (hfits : ∀ n ∈ found.node.preorder, n.Fits)
    (hnext : e.Ends c.levels (c.forward found.consumed.toNat).left c.tokens
      (e.nodesFrom (c.forward found.consumed.toNat)).result) :
    e.Ends c.levels c.left c.tokens (e.nodesFrom c).result := by
  have hleft : (c.forward found.consumed.toNat).left + 1 ≤ c.left := by
    have hcovers := one_le_of_step h
    rw [Cursor.left_forward, Cursor.left]
    omega
  rw [e.nodesFrom_eq inside, result_andThen_of_ok _ h]
  exact hnext.cons hdepth hfits hleft

theorem nodesFrom_of_error (inside : c.position < c.tokens.length) {fault : Fault}
    (h : (e.stepAt c).result = .error fault) : (e.nodesFrom c).result = .error fault := by
  rw [e.nodesFrom_eq inside, Outcome.andThen, h]

theorem pass_eq_nodesFrom (e : Engine) (levels : Nat) (before : Option Token) (ts : List Token) :
    e.pass levels (TokenSeq.ofList ts before) = (e.nodesFrom ⟨levels, before, ts, 0⟩).map e.finish :=
  e.pass_eq_walk levels before ts

end Cases

theorem exists_pass_of_nestedAt {parse : TokenSeq → Outcome (List Node)}
    (h : e.nestedAt levels = some parse) : ∃ n, levels = n + 1 ∧ e.pass n = parse := by
  cases levels with
  | zero => cases h
  | succ n => exact ⟨n, rfl, Option.some.inj h⟩

theorem Blames.of_opens {content : List Token} {fault : Fault} (hopens : e.Opens ts content)
    (h : e.Blames content fault) : e.Blames ts fault := by
  obtain ⟨us, before, p, m, found, hpath, hrest⟩ := h
  exact ⟨us, before, p, m, found, .head hopens hpath, hrest⟩

/-- **A run from any place ends** in nodes within the bounds or in a fault that a matcher is
to blame for. The induction is along the moves of the run. -/
theorem ends (e : Engine) (c : Cursor) :
    e.Ends c.levels c.left c.tokens (e.nodesFrom c).result := by
  induction c using e.wellFounded_moves.induction with
  | _ c ih =>
  by_cases hend : c.tokens.length ≤ c.position
  · rw [e.nodesFrom_of_end hend]
    exact .nodes .nil
  · have inside : c.position < c.tokens.length := Nat.lt_of_not_le hend
    have hnone : (e.stepAt c).result = .ok none →
        e.Ends c.levels c.left c.tokens (e.nodesFrom c).result := fun h =>
      ends_of_none inside h (ih _ (.next inside h))
    have hfinds := e.step_finds (e.nestedAt c.levels) c.seq c.position
    generalize hstep : e.step (e.nestedAt c.levels) c.seq c.position = o at hfinds
    have hresult : (e.stepAt c).result = o.result := congrArg Outcome.result hstep
    cases hfinds with
    | nothing first => exact hnone hresult
    | refused first covers last => exact hnone hresult
    | fault first short =>
      rw [nodesFrom_of_error inside hresult]
      exact .fault ⟨c.tokens, c.before, c.position, _, _, .refl, inside, first, short, rfl⟩
    | leaf first covers plain =>
      refine ends_of_some inside hresult ?_ ?_ (ih _ (.behind inside hresult))
      · rw [Node.depth_of_plain plain]
        exact Nat.zero_le _
      · rw [Node.preorder_of_plain plain, List.forall_mem_singleton]
        exact Node.fits_of_plain plain
    | @box m kind content inner consumed parse first covers room =>
      obtain ⟨levels, hlevels, rfl⟩ := exists_pass_of_nestedAt room
      have hcontent : e.Ends levels content.length content (e.pass levels
          (TokenSeq.ofList content (TokenView.tokenBefore? (.indexed c.seq) c.position))).result := by
        rw [pass_eq_nodesFrom]
        exact (ih _ (.into inside first covers hlevels)).finish
      cases hpass : (e.pass levels (TokenSeq.ofList content
          (TokenView.tokenBefore? (.indexed c.seq) c.position))).result with
      | error fault =>
        rw [hpass] at hcontent
        cases hcontent with
        | fault blames =>
          have hfault : (e.stepAt c).result = .error fault := by
            rw [hresult, Outcome.map, hpass]
            rfl
          rw [nodesFrom_of_error inside hfault]
          exact .fault (blames.of_opens ⟨c.before, c.position, m, kind, inner, consumed, first⟩)
      | ok children =>
        rw [hpass] at hcontent
        cases hcontent with
        | nodes bounded =>
          have hbox := hresult.trans (result_map_of_ok _ hpass)
          refine ends_of_some inside hbox ?_ ?_ (ih _ (.behind inside hbox))
          · rw [Node.depth, hlevels]
            exact Nat.succ_le_succ bounded.depth
          · rw [Node.preorder, List.forall_mem_cons]
            exact ⟨bounded.length, bounded.fits⟩

theorem ends_pass (e : Engine) (levels : Nat) (before : Option Token) (ts : List Token) :
    e.Ends levels ts.length ts (e.pass levels (TokenSeq.ofList ts before)).result := by
  rw [pass_eq_nodesFrom]
  exact (e.ends ⟨levels, before, ts, 0⟩).finish

end Engine

/-- **Every run ends within the limit**, whatever the matchers are: in nodes within the bounds,
or because a matcher reported less than one token, somewhere in the tokens or in the content of
containers found in them. The fault is that of the matcher when the number can be shown, and else
one of value. Constructs between delimiters, images, links and tags never fail. -/
theorem halts_within_limit (e : Engine) :
    (WellFounded fun c' c => e.Moves c c') ∧
    (∀ ts : List Token,
      (∃ nodes, (e.parse ts).result = .ok nodes ∧ Node.depthAll nodes ≤ e.limit ∧
        nodes.length ≤ ts.length ∧ ∀ kind content children,
          .container kind content children ∈ preorderAll nodes → children.length ≤ content.length) ∨
      ∃ us before p m found, Relation.ReflTransGen e.Opens ts us ∧ p < us.length ∧
        firstMatch? e.matchers (.indexed (TokenSeq.ofList us before)) p = some (m, found) ∧
        found.consumed < 1 ∧
        (e.parse ts).result = .error (if hasText found.consumed then
          .nothingConsumed m.name p (.int found.consumed) else .noNumberText)) ∧
    ∀ cs : List Construct, e.matchers ⊆ cs.map Construct.matcher → ∀ ts : List Token,
      ∃ nodes, (e.parse ts).result = .ok nodes := by
  refine ⟨e.wellFounded_moves, fun ts => ?_, fun cs he ts => ?_⟩
  · have hends := e.ends_pass e.limit none ts
    rw [Engine.parse]
    cases hends' : (e.pass e.limit (TokenSeq.ofList ts)).result with
    | ok nodes =>
      rw [hends'] at hends
      cases hends with
      | nodes bounded =>
        exact .inl ⟨nodes, rfl, bounded.depth, bounded.length, fun _ _ _ hn => bounded.fits _ hn⟩
    | error fault =>
      rw [hends'] at hends
      cases hends with
      | fault blames =>
        obtain ⟨us, before, p, m, found, hpath, hp, first, short, rfl⟩ := blames
        exact .inr ⟨us, before, p, m, found, hpath, hp, first, short, rfl⟩
  · obtain ⟨ns, -, hparse⟩ := Engine.exists_reads he e.limit none ts
    exact ⟨_, hparse⟩

/-- A matcher that finds a container at every token, with more content than there are tokens
and in which it finds the same again. -/
def endless : Fixed where
  name := "endless"
  node := .unparsed .bold (tokenize "a b c")
  consumed := 7

/-- With a matcher that always finds more to parse the limit ends the run. Delimiters of a
run that no token has are no fault. -/
theorem halts_within_limit_endless :
    (∃ nodes, (Engine.parse ⟨[endless.matcher], 2, false⟩ (tokenize "a")).result = .ok nodes ∧
      Node.depthAll nodes ≤ 2 ∧ nodes.length ≤ (tokenize "a").length) ∧
    ∃ nodes, (Engine.parse ⟨[({ bold with run := -1 } : Delimited).matcher], 0, true⟩
      (tokenize "**a**")).result = .ok nodes := by
  refine ⟨?_, (halts_within_limit _).2.2 [.delimited { bold with run := -1 }] (List.Subset.refl _) _⟩
  rcases (halts_within_limit ⟨[endless.matcher], 2, false⟩).2.1 (tokenize "a") with
    ⟨nodes, hnodes, hdepth, hlength, -⟩ | ⟨_, _, _, _, _, -, -, -, -, hfault⟩
  · exact ⟨nodes, hnodes, hdepth, hlength⟩
  · have hparse : (Engine.parse ⟨[endless.matcher], 2, false⟩ (tokenize "a")).result =
        .ok [.container .bold (tokenize "a b c") [.container .bold (tokenize "a b c")
          ((tokenize "a b c").map fun t => Node.text t.value)]] := rfl
    rw [hparse] at hfault
    cases hfault

/-- A fixed match of less than one token is at fault at the first token. -/
theorem parse_fixed_of_short {f : Fixed} (anywhere : f.on = none) (short : f.consumed < 1)
    (limit : Nat) (coalesce : Bool) (t : Token) (ts : List Token) :
    (Engine.parse ⟨[f.matcher], limit, coalesce⟩ (t :: ts)).result =
      .error (.ofShortMatch f.name 0 (.int f.consumed)) := by
  have hattempt : f.attempt (.indexed (TokenSeq.ofList (t :: ts))) 0 = some ⟨f.node, f.consumed⟩ := by
    rw [Fixed.attempt, anywhere]
    rfl
  have hfirst : firstMatch? [f.matcher] (.indexed (TokenSeq.ofList (t :: ts))) 0 =
      some (f.matcher, ⟨f.node, f.consumed⟩) := by
    simp only [firstMatch?, Fixed.matcher, hattempt]
  have hstep : (Engine.stepAt ⟨[f.matcher], limit, coalesce⟩ ⟨limit, none, t :: ts, 0⟩).result =
      .error (.ofShortMatch f.name 0 (.int f.consumed)) := by
    simp only [Engine.stepAt, Engine.step, Cursor.seq, hfirst, if_pos short]
    rfl
  rw [Engine.parse, Engine.pass_eq_nodesFrom, Outcome.map,
    Engine.nodesFrom_of_error (Nat.zero_lt_succ _) hstep]
  rfl

/-- A matcher that reports a number so far below one that no message can show it. -/
def bottomless : Fixed where
  name := "bottomless"
  node := .text ""
  consumed := -(10 ^ maxDigits)

/-- A matcher that gives a text node which holds a number, as a stored text may. -/
def numbered : LooseMatcher :=
  .fixed "numbered" none (.record .text [.plain (.int 5)]) (.int 1)

/-- So a parse can fail, and not with the fault of a matcher: for want of the text of a number,
or when what a text node holds is no text and cannot be joined. -/
theorem exists_parse_not_matcherFault :
    (∃ (e : Engine) (ts : List Token) (fault : Fault),
      (e.parse ts).result = .error fault ∧ fault.kind ≠ .matcher) ∧
    ∃ (e : LooseEngine) (ts : List Token) (fault : Fault),
      (e.parse ts).result = .error fault ∧ fault.kind ≠ .matcher := by
  refine ⟨⟨⟨[bottomless.matcher], 16, true⟩, tokenize "x", .noNumberText, ?_, by decide⟩,
    ⟨[numbered], 16, true⟩, tokenize "x", .textExpected 0 "int", rfl, by decide⟩
  have hconsumed : bottomless.consumed = -(10 ^ maxDigits) := rfl
  have hshort : bottomless.consumed < 1 := by
    have hpos : (0 : Int) < 10 ^ maxDigits := Int.pow_pos (by decide)
    omega
  have htext : hasText bottomless.consumed = false := by
    rw [hconsumed, hasText_neg, hasText_ten_pow]
    simp
  have hparse := parse_fixed_of_short (f := bottomless) rfl hshort 16 true ⟨.text, "x", 0⟩ []
  rw [Fault.ofShortMatch, Fault.showing, Json.hasText, htext] at hparse
  exact hparse

end InlineMarkup
