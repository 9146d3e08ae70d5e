/-
# The engine

The engine walks over a token sequence. At each position the matchers are tried
in the order of their priority, and the first match gives a node and moves on by
the tokens it covers. Where nothing matches, the token becomes text.

The content of a container is parsed in the same way, one level deeper, as a
sequence of its own that follows what precedes the container. A container that
would nest too deep is not built: its first token becomes text, and no other
matcher is tried there. A matcher that covers less than one token is at fault.

A pass makes one level of nodes; with coalescing, neighbouring texts of a level
are merged. Passes nest no deeper than the limit, so the recursion is on the
levels left and, within a pass, on the tokens left.

Key definitions: `mergeTexts`, `Engine`, `Engine.step`, `Engine.walk`,
`Engine.pass`, `Engine.parse`.
-/
import InlineMarkup.Matcher
import InlineMarkup.Outcome

namespace InlineMarkup

/-- A text put in front of nodes whose texts are merged. -/
def mergeText (content : String) : List Node → List Node
  | .text next :: ns => .text (content ++ next) :: ns
  | ns => .text content :: ns

/-- The nodes with each run of neighbouring texts merged into one. -/
def mergeTexts : List Node → List Node
  | [] => []
  | .text content :: ns => mergeText content (mergeTexts ns)
  | n :: ns => n :: mergeTexts ns

/-- Matchers in the order of priority, the number of levels to which containers
may nest, and whether neighbouring texts are merged. -/
structure Engine where
  matchers : List Matcher
  limit : Nat
  coalesce : Bool

namespace Engine

/-- What parses the content of a container, if a level is left for it. -/
abbrev Nested := Option (TokenSeq → Outcome (List Node))

/-- What stands at a position: a match with its content parsed, or nothing. -/
def step (e : Engine) (nested : Nested) (seq : TokenSeq) (position : Nat) :
    Outcome (Option Match) :=
  match firstMatch? e.matchers (.indexed seq) position with
  | none => .done none
  | some (m, found) =>
    if found.consumed < 1 then .failed (.ofShortMatch m.name position (.int found.consumed))
    else
      match found.node with
      | .container kind content _ =>
        match nested with
        | none => { events := [.tooDeep m.name position e.limit], result := .ok none }
        | some parse =>
          (parse (TokenSeq.ofList content (TokenView.tokenBefore? (.indexed seq) position))).map
            fun children => some { found with node := .container kind content children }
      | _ => .done (some found)

/-- The nodes of the tokens of a sequence from `position` on. The first `covered`
of them belong to the last match. -/
def walk (e : Engine) (nested : Nested) (seq : TokenSeq) :
    Nat → Nat → List Token → Outcome (List Node)
  | _, _, [] => .done []
  | position, covered + 1, _ :: ts => walk e nested seq (position + 1) covered ts
  | position, 0, t :: ts =>
    (e.step nested seq position).andThen fun
      | none => (walk e nested seq (position + 1) 0 ts).map (.text t.value :: ·)
      | some found =>
        (walk e nested seq (position + 1) (found.consumed.toNat - 1) ts).map (found.node :: ·)

/-- The nodes of a level as the engine hands them out. -/
def finish (e : Engine) (nodes : List Node) : List Node :=
  if e.coalesce then mergeTexts nodes else nodes

/-- The nodes of a sequence below which `levels` more levels may nest. -/
def pass (e : Engine) : Nat → TokenSeq → Outcome (List Node)
  | 0, seq => (e.walk none seq 0 0 seq.tokens.toList).map e.finish
  | levels + 1, seq => (e.walk (some (pass e levels)) seq 0 0 seq.tokens.toList).map e.finish

/-- The nodes of a note's tokens. -/
def parse (e : Engine) (tokens : List Token) : Outcome (List Node) :=
  e.pass e.limit (TokenSeq.ofList tokens)

end Engine

end InlineMarkup
