/-
# A pass can be restarted between two nodes

What a construct finds at a position it finds as well when the tokens before the position
are cut off, provided that the sequence of the others still knows the token before it
(`Construct.attempt_restart`). So a pass goes on behind a node as a pass over the rest of
the tokens would begin: the nodes from there on are those of that pass, on any level
(`Engine.nodesFrom_restart`).

Where one node ends and the next begins is read off the walk over all the tokens
(`Engine.Boundary`), and there is such a place behind each node
(`Engine.exists_boundary`).

Key definition: `Engine.Boundary`.
Key theorems: `Construct.attempt_restart`, `Engine.Boundary.result_nodesFrom`,
`Engine.nodesFrom_restart`, `Engine.exists_boundary`, `pass_restart`.
-/
import InlineMarkup.Proofs.Halting

namespace InlineMarkup

/-! ### One construct -/

theorem precedes_drop (before : Option Token) (ts : List Token) (p i : Nat) :
    precedes (precedes before ts p) (ts.drop p) i = precedes before ts (p + i) := by
  cases i with
  | zero => rfl
  | succ i =>
    show (ts.drop p)[i]? = ts[p + i]?
    rw [List.getElem?_drop]

/-- **What a construct finds does not depend on where the tokens begin**, so long as the
token in front of them is known. -/
theorem Construct.attempt_restart (c : Construct) (before : Option Token) (ts : List Token)
    (p i : Nat) : c.matcher.attempt (.indexed (TokenSeq.ofList ts before)) (p + i) =
      c.matcher.attempt (.indexed (TokenSeq.ofList (ts.drop p) (precedes before ts p))) i := by
  calc c.matcher.attempt (.indexed (TokenSeq.ofList ts before)) (p + i)
      = c.matcher.recognise (precedes before ts (p + i)) (ts.drop (p + i)) :=
        c.attempt_eq_recognise (TokenView.shows_ofList ts before) (p + i)
    _ = c.matcher.recognise (precedes (precedes before ts p) (ts.drop p) i)
          ((ts.drop p).drop i) := by rw [precedes_drop, List.drop_drop]
    _ = c.matcher.attempt (.indexed (TokenSeq.ofList (ts.drop p) (precedes before ts p))) i :=
        (c.attempt_eq_recognise (TokenView.shows_ofList (ts.drop p) (precedes before ts p)) i).symm

/-! ### Places between two nodes -/

namespace Engine

/-- `n` tokens behind a place of a walk one node ends and the next begins; `ns` are the nodes
between the two places. -/
inductive Boundary (e : Engine) (c : Cursor) : Nat → List Node → Prop
  | start : Boundary e c 0 []
  | text {n : Nat} {ns : List Node} (made : Boundary e c n ns)
      (inside : (c.forward n).position < c.tokens.length)
      (nothing : (e.stepAt (c.forward n)).result = .ok none) :
      Boundary e c (n + 1) (ns ++ [.text c.tokens[(c.forward n).position].value])
  | node {n : Nat} {ns : List Node} {found : Match} (made : Boundary e c n ns)
      (inside : (c.forward n).position < c.tokens.length)
      (match? : (e.stepAt (c.forward n)).result = .ok (some found)) :
      Boundary e c (n + found.consumed.toNat) (ns ++ [found.node])

variable {e : Engine} {cs : List Construct} {c : Cursor}

theorem forward_forward (c : Cursor) (n k : Nat) : (c.forward n).forward k = c.forward (n + k) := by
  unfold Cursor.forward
  rw [Nat.add_assoc]

theorem result_nodesFrom_of_none (inside : c.position < c.tokens.length)
    (h : (e.stepAt c).result = .ok none) {rest : List Node}
    (hrest : (e.nodesFrom (c.forward 1)).result = .ok rest) :
    (e.nodesFrom c).result = .ok (.text c.tokens[c.position].value :: rest) := by
  rw [e.nodesFrom_eq inside, result_andThen_of_ok _ h]
  exact result_map_of_ok _ hrest

theorem result_nodesFrom_of_some (inside : c.position < c.tokens.length) {found : Match}
    (h : (e.stepAt c).result = .ok (some found)) {rest : List Node}
    (hrest : (e.nodesFrom (c.forward found.consumed.toNat)).result = .ok rest) :
    (e.nodesFrom c).result = .ok (found.node :: rest) := by
  rw [e.nodesFrom_eq inside, result_andThen_of_ok _ h]
  exact result_map_of_ok _ hrest

/-- **The walk over all tokens goes on as the walk from a place between two nodes does.** -/
theorem Boundary.result_nodesFrom {n : Nat} {ns : List Node} (h : e.Boundary c n ns)
    {rest : List Node} (hrest : (e.nodesFrom (c.forward n)).result = .ok rest) :
    (e.nodesFrom c).result = .ok (ns ++ rest) := by
  induction h generalizing rest with
  | start => exact hrest
  | text made inside nothing ih =>
    rw [← forward_forward] at hrest
    rw [List.append_assoc]
    exact ih (result_nodesFrom_of_none inside nothing hrest)
  | node made inside match? ih =>
    rw [← forward_forward] at hrest
    rw [List.append_assoc]
    exact ih (result_nodesFrom_of_some inside match? hrest)

/-- **A walk from a place is a walk over the tokens from there on**, behind the token that
precedes them. -/
theorem nodesFrom_restart (he : e.matchers ⊆ cs.map Construct.matcher) (levels : Nat)
    (before : Option Token) (ts : List Token) (p : Nat) :
    ∃ ns, (e.nodesFrom ⟨levels, before, ts, p⟩).result = .ok ns ∧
      (e.pass levels (TokenSeq.ofList (ts.drop p) (precedes before ts p))).result =
        .ok (e.finish ns) := by
  have hserves : e.Serves levels (e.nestedAt levels) := by
    cases levels with
    | zero => rfl
    | succ n => exact ⟨e.pass n, rfl, exists_reads he n⟩
  obtain ⟨ns, hreads, hwalk⟩ := walkReads he hserves before ts p
  refine ⟨ns, hwalk, ?_⟩
  exact (pass_eq_ok_iff he).mpr ⟨ns, hreads, rfl⟩

theorem nodesFrom_cases (inside : c.position < c.tokens.length) {nodes : List Node}
    (h : (e.nodesFrom c).result = .ok nodes) :
    ((e.stepAt c).result = .ok none ∧ ∃ rest, (e.nodesFrom (c.forward 1)).result = .ok rest ∧
      nodes = .text c.tokens[c.position].value :: rest) ∨
    ∃ found, (e.stepAt c).result = .ok (some found) ∧ ∃ rest,
      (e.nodesFrom (c.forward found.consumed.toNat)).result = .ok rest ∧
      nodes = found.node :: rest := by
  rcases hstep : (e.stepAt c).result with fault | _ | found
  · rw [nodesFrom_of_error inside hstep] at h
    cases h
  · rw [e.nodesFrom_eq inside, result_andThen_of_ok _ hstep] at h
    obtain ⟨rest, hrest, hnodes⟩ := map_eq_ok_iff.mp h
    exact .inl ⟨rfl, rest, hrest, hnodes.symm⟩
  · rw [e.nodesFrom_eq inside, result_andThen_of_ok _ hstep] at h
    obtain ⟨rest, hrest, hnodes⟩ := map_eq_ok_iff.mp h
    exact .inr ⟨found, rfl, rest, hrest, hnodes.symm⟩

theorem exists_first_of_stepAt {found : Match} (h : (e.stepAt c).result = .ok (some found)) :
    ∃ m node, firstMatch? e.matchers (.indexed c.seq) c.position =
      some (m, ⟨node, found.consumed⟩) := by
  have hfinds := e.step_finds (e.nestedAt c.levels) c.seq c.position
  unfold stepAt at h
  generalize e.step (e.nestedAt c.levels) c.seq c.position = o at h hfinds
  cases hfinds with
  | nothing first => cases h
  | fault first short => cases h
  | leaf first covers plain =>
    obtain rfl := Option.some.inj (Except.ok.inj h)
    exact ⟨_, _, first⟩
  | refused first covers last => cases h
  | box first covers room =>
    obtain ⟨children, -, hfound⟩ := map_eq_ok_iff.mp h
    obtain rfl := Option.some.inj hfound
    exact ⟨_, _, first⟩

theorem position_add_consumed_le (he : e.matchers ⊆ cs.map Construct.matcher) {found : Match}
    (h : (e.stepAt c).result = .ok (some found)) :
    c.position + found.consumed.toNat ≤ c.tokens.length := by
  obtain ⟨m, node, hfirst⟩ := exists_first_of_stepAt h
  unfold Cursor.seq at hfirst
  rw [firstMatch?_eq_first? he] at hfirst
  obtain ⟨construct, -, -, span, rest, hsplit, hform, hcovers⟩ := exists_forms_of_first? he hfirst
  have hspan : 0 < span.length := List.length_pos_iff.mpr hform.ne_nil
  have hlength := congrArg List.length hsplit
  rw [List.length_drop, List.length_append] at hlength
  simp only at hcovers
  omega

/-- **There is a place behind each node** of a walk. The induction is on the nodes in front of
the place. -/
theorem exists_boundary (he : e.matchers ⊆ cs.map Construct.matcher) {nodes : List Node}
    (hc : c.position ≤ c.tokens.length) (h : (e.nodesFrom c).result = .ok nodes) {k : Nat}
    (hk : k ≤ nodes.length) : ∃ n, (c.forward n).position ≤ c.tokens.length ∧
      e.Boundary c n (nodes.take k) ∧ (e.nodesFrom (c.forward n)).result = .ok (nodes.drop k) := by
  induction k with
  | zero => exact ⟨0, hc, .start, h⟩
  | succ k ih =>
    obtain ⟨n, hn, hmade, hrest⟩ := ih (by omega)
    have hdrop : nodes.drop k = nodes[k] :: nodes.drop (k + 1) := List.drop_eq_getElem_cons hk
    have htake : nodes.take (k + 1) = nodes.take k ++ [nodes[k]] :=
      (List.take_append_getElem hk).symm
    by_cases inside : (c.forward n).position < c.tokens.length
    · rw [hdrop] at hrest
      rw [htake]
      rcases nodesFrom_cases inside hrest with
        ⟨hnone, rest, hnext, hnodes⟩ | ⟨found, hfound, rest, hnext, hnodes⟩
      · obtain ⟨hnode, hrest⟩ := List.cons.inj hnodes
        rw [hnode, hrest]
        rw [forward_forward] at hnext
        exact ⟨n + 1, inside, .text hmade inside hnone, hnext⟩
      · obtain ⟨hnode, hrest⟩ := List.cons.inj hnodes
        rw [hnode, hrest]
        rw [forward_forward] at hnext
        have hle : (c.forward (n + found.consumed.toNat)).position ≤ c.tokens.length := by
          rw [← forward_forward]
          exact position_add_consumed_le he hfound
        exact ⟨n + found.consumed.toNat, hle, .node hmade inside hfound, hnext⟩
    · -- behind the last token the walk makes no node
      rw [e.nodesFrom_of_end (Nat.le_of_not_lt inside), hdrop] at hrest
      cases hrest

end Engine

/-- **A pass can be restarted between two nodes.** A construct looks no further back than one
token. So the nodes of a pass behind a place where a node ends are those of the pass over the
rest of the tokens, and there is such a place behind each node. -/
theorem pass_restart :
    (∀ (c : Construct) (before : Option Token) (ts : List Token) (p i : Nat),
      c.matcher.attempt (.indexed (TokenSeq.ofList ts before)) (p + i) =
        c.matcher.attempt (.indexed (TokenSeq.ofList (ts.drop p) (precedes before ts p))) i) ∧
    ∀ (cs : List Construct) (e : Engine), e.matchers ⊆ cs.map Construct.matcher →
      e.coalesce = false → ∀ (levels : Nat) (before : Option Token) (ts : List Token),
      ∃ nodes, (e.pass levels (TokenSeq.ofList ts before)).result = .ok nodes ∧
        (∀ p front, e.Boundary ⟨levels, before, ts, 0⟩ p front → ∃ rest, nodes = front ++ rest ∧
          (e.pass levels (TokenSeq.ofList (ts.drop p) (precedes before ts p))).result = .ok rest) ∧
        ∀ k ≤ nodes.length, ∃ p ≤ ts.length,
          e.Boundary ⟨levels, before, ts, 0⟩ p (nodes.take k) := by
  refine ⟨fun c before ts p i => c.attempt_restart before ts p i, ?_⟩
  intro cs e he hplain levels before ts
  have hfinish : ∀ ns, e.finish ns = ns := fun ns => by rw [Engine.finish, hplain]; rfl
  obtain ⟨nodes, hnodes, hpass⟩ := Engine.nodesFrom_restart he levels before ts 0
  rw [hfinish] at hpass
  refine ⟨nodes, hpass, ?_, ?_⟩
  · intro p front hfront
    obtain ⟨rest, hrest, hbehind⟩ := Engine.nodesFrom_restart he levels before ts p
    rw [hfinish] at hbehind
    have hplace : Cursor.forward ⟨levels, before, ts, 0⟩ p = ⟨levels, before, ts, p⟩ := by
      rw [Cursor.forward, Nat.zero_add]
    rw [← hplace] at hrest
    have hall := hfront.result_nodesFrom hrest
    exact ⟨rest, Except.ok.inj (hnodes.symm.trans hall), hbehind⟩
  · intro k hk
    obtain ⟨n, hn, hmade, -⟩ := Engine.exists_boundary he (Nat.zero_le _) hnodes hk
    have hposition : (Cursor.forward ⟨levels, before, ts, 0⟩ n).position = n := Nat.zero_add n
    rw [hposition] at hn
    exact ⟨n, hn, hmade⟩

/-- Behind a bold text that follows a word, and in which there is no tag for that reason, the
nodes are those of a pass over the rest, where a tag may not follow the bold text either. -/
theorem pass_restart_behind_bold :
    Engine.Boundary ⟨builtIns, 16, false⟩ ⟨1, none, tokenize "a**#b**#c #d", 0⟩ 5
      [.text "a", .container .bold [⟨.hash, "#", 3⟩, ⟨.text, "b", 4⟩] [.text "#", .text "b"]] ∧
    ∃ rest, (Engine.pass ⟨builtIns, 16, false⟩ 1
        (TokenSeq.ofList ((tokenize "a**#b**#c #d").drop 5) (some ⟨.asterisk, "**", 5⟩))).result =
      .ok rest := by
  have htext : Engine.Boundary ⟨builtIns, 16, false⟩ ⟨1, none, tokenize "a**#b**#c #d", 0⟩ 1
      [.text "a"] := .text .start (by decide) rfl
  have hbold : (Engine.stepAt ⟨builtIns, 16, false⟩ ⟨1, none, tokenize "a**#b**#c #d", 1⟩).result =
      .ok (some ⟨.container .bold [⟨.hash, "#", 3⟩, ⟨.text, "b", 4⟩] [.text "#", .text "b"], 4⟩) :=
    rfl
  have hboundary := Engine.Boundary.node htext (by decide) hbold
  obtain ⟨nodes, -, hrestart, -⟩ := pass_restart.2 builtInConstructs ⟨builtIns, 16, false⟩
    (List.Subset.refl _) rfl 1 none (tokenize "a**#b**#c #d")
  obtain ⟨rest, -, hrest⟩ := hrestart 5 _ hboundary
  exact ⟨hboundary, rest, hrest⟩

end InlineMarkup
