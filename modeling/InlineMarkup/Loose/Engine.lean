/-
# The engine on loose sequences

The engine walks over a loose sequence by the rules by which it walks over
tokens: the first match gives a node and moves on, and the content of a container
is parsed one level deeper. What a matcher reports must be comparable with a
number, the content of a container must be walkable, and texts that are merged
must be texts; otherwise the parse fails with the first fault that is met.

Key definitions: `mergeLoose`, `LooseEngine`, `LooseEngine.step`,
`LooseEngine.walk`, `LooseEngine.pass`, `LooseEngine.parse`.
-/
import InlineMarkup.Loose.Matcher
import InlineMarkup.Outcome

namespace InlineMarkup

/-- A text node of the texts that are pending, last one first, if any are. -/
def flushTexts : List Value → Except Fault (List Value)
  | [] => .ok []
  | pending => (joinTexts 0 pending.reverse).map fun s => [.record .text [.text s]]

/-- The values with each run of neighbouring texts merged into one; `pending`
holds the texts of the run so far, last one first. -/
def mergeLoose (pending : List Value) : List Value → Except Fault (List Value)
  | [] => flushTexts pending
  | .record .text [content] :: vs => mergeLoose (content :: pending) vs
  | v :: vs => do
    let front ← flushTexts pending
    let rest ← mergeLoose [] vs
    pure (front ++ v :: rest)

/-- The number that a matcher reports. -/
def reported (consumed : Json) : Except Fault Int :=
  match consumed.toInt? with
  | none => .error (.notComparable consumed.typeName)
  | some n => .ok n

/-- The text node of a token that nothing matches. -/
def literalText : Value → Except Fault Value
  | .token _ value _ => .ok (.record .text [.plain value])
  | v => .error (.noAttribute v.typeName "value")

/-- The first matcher that matches at a position, with its match. -/
def firstLooseMatch? :
    List LooseMatcher → LooseSeq → Nat → Except Fault (Option (LooseMatcher × LooseMatch))
  | [], _, _ => .ok none
  | m :: ms, seq, position =>
    match m.attempt seq position with
    | .error fault => .error fault
    | .ok (some found) => .ok (some (m, found))
    | .ok none => firstLooseMatch? ms seq position

/-- Matchers in the order of priority, the number of levels to which containers
may nest, and whether neighbouring texts are merged. -/
structure LooseEngine where
  matchers : List LooseMatcher
  limit : Nat
  coalesce : Bool

namespace LooseEngine

/-- What parses the content of a container, if a level is left for it. -/
abbrev Nested := Option (LooseSeq → Outcome (List Value))

/-- What stands at a position: the record of a match with its content parsed and
the number of values it covers, or nothing. -/
def step (e : LooseEngine) (nested : Nested) (seq : LooseSeq) (position : Nat) :
    Outcome (Option (Value × Nat)) :=
  (Outcome.ofExcept (firstLooseMatch? e.matchers seq position)).andThen fun
    | none => .done none
    | some (m, found) =>
      (Outcome.ofExcept (reported found.consumed)).andThen fun consumed =>
        if consumed < 1 then .failed (.ofShortMatch m.name position found.consumed)
        else
          match found.node with
          | .record cls (content :: rest) =>
            if cls.isContainer then
              match nested with
              | none => { events := [.tooDeep m.name position e.limit], result := .ok none }
              | some parse =>
                (Outcome.ofExcept content.items).andThen fun items =>
                  (parse { items := items.toArray, before := seq.before? position }).map fun children =>
                    some (.record cls [content, .list children], consumed.toNat)
            else .done (some (.record cls (content :: rest), consumed.toNat))
          | node => .done (some (node, consumed.toNat))

/-- The nodes of the values of a sequence from `position` on. The first `covered`
of them belong to the last match. -/
def walk (e : LooseEngine) (nested : Nested) (seq : LooseSeq) :
    Nat → Nat → List Value → Outcome (List Value)
  | _, _, [] => .done []
  | position, covered + 1, _ :: vs => walk e nested seq (position + 1) covered vs
  | position, 0, v :: vs =>
    (e.step nested seq position).andThen fun
      | none =>
        (Outcome.ofExcept (literalText v)).andThen fun text =>
          (walk e nested seq (position + 1) 0 vs).map (text :: ·)
      | some (node, consumed) =>
        (walk e nested seq (position + 1) (consumed - 1) vs).map (node :: ·)

/-- The nodes of a level as the engine hands them out. -/
def finish (e : LooseEngine) (nodes : List Value) : Outcome (List Value) :=
  if e.coalesce then Outcome.ofExcept (mergeLoose [] nodes) else .done nodes

/-- The nodes of a sequence below which `levels` more levels may nest. -/
def pass (e : LooseEngine) : Nat → LooseSeq → Outcome (List Value)
  | 0, seq => (e.walk none seq 0 0 seq.items.toList).andThen e.finish
  | levels + 1, seq => (e.walk (some (pass e levels)) seq 0 0 seq.items.toList).andThen e.finish

/-- The nodes of a note's tokens. -/
def parse (e : LooseEngine) (tokens : List Token) : Outcome (List Value) :=
  e.pass e.limit { items := (tokens.map Token.stored).toArray }

end LooseEngine

end InlineMarkup
