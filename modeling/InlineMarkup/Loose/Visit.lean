/-
# Visiting loose values

Loose values are visited as nodes are: a value before what stands below it, and
that from left to right. What is no record has the handler for everything that
has none of its own. Below a container stands whatever is met when its children
are walked through; a container whose children cannot be walked through fails
the visit once its own handler is done.

Key definitions: `LooseVisitor`, `LooseVisitor.visit`, `LooseVisitor.visitAll`.
-/
import InlineMarkup.Loose.Value
import InlineMarkup.Visit

namespace InlineMarkup

/-- The handler for a value. -/
def Handler.ofValue : Value → Handler
  | .record cls _ => ofClass cls
  | _ => other

/-- The handlers of a visitor: what it does with a value, where it has a handler. -/
structure LooseVisitor (m : Type → Type) (α : Type) where
  handle : Handler → Option (Value → m α)

namespace LooseVisitor

variable {m : Type → Type} {α : Type} [Monad m]

/-- Calls the handler for a value, if there is one. -/
def dispatch (visitor : LooseVisitor m α) (v : Value) : m (Option α) :=
  match visitor.handle (Handler.ofValue v) <|> visitor.handle .other with
  | none => pure none
  | some f => do
    let a ← f v
    pure (some a)

/-- Calls the handlers for values of which none is a record. -/
def dispatchAll (visitor : LooseVisitor m α) : List Value → m Unit
  | [] => pure ()
  | v :: vs => do
    let _ ← visitor.dispatch v
    dispatchAll visitor vs

variable [MonadExceptOf Fault m]

mutual

/-- Visits a value and then what stands below it; the answer is that of its own
handler. -/
def visit (visitor : LooseVisitor m α) : Value → m (Option α)
  | .record cls [content, .list children] => do
    let a ← visitor.dispatch (.record cls [content, .list children])
    if cls.isContainer then visitAll visitor children
    pure a
  | .record cls [content, children] => do
    let a ← visitor.dispatch (.record cls [content, children])
    if cls.isContainer then
      match children.items with
      | .error fault => throw fault
      | .ok vs => visitor.dispatchAll vs
    pure a
  | v => visitor.dispatch v

/-- Visits values from left to right. -/
def visitAll (visitor : LooseVisitor m α) : List Value → m Unit
  | [] => pure ()
  | v :: vs => do
    let _ ← visit visitor v
    visitAll visitor vs

end

end LooseVisitor

end InlineMarkup
