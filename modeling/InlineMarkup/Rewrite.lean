/-
# Rewriting nodes

A rewrite applies a function to every node, the nodes below a container first.
The container the function sees has the rewritten children, unless they are the
same as before: then it keeps its own. Its content tokens stay as they are.

Loose values are rewritten as nodes are. What is met when children are walked
through is rewritten value by value and makes a list; children that cannot be walked
through fail the rewrite, unless they count as absent. A list is never the same as a
value of another kind.

Key definitions: `Node.rewrite`, `rewriteAll`, `Value.rewrite`, `rewriteValues`.
-/
import InlineMarkup.Loose.Value

namespace InlineMarkup

variable {m : Type → Type} [Monad m]

mutual

/-- A node rewritten by `f`, from below. -/
def Node.rewrite (f : Node → m Node) : Node → m Node
  | .container kind content [] => f (.container kind content [])
  | .container kind content (child :: rest) => do
    let children ← rewriteAll f (child :: rest)
    if Node.sameAll children (child :: rest) then f (.container kind content (child :: rest))
    else f (.container kind content children)
  | n => f n

/-- Nodes rewritten by `f`, from left to right. -/
def rewriteAll (f : Node → m Node) : List Node → m (List Node)
  | [] => pure []
  | n :: ns => do
    let n ← Node.rewrite f n
    let ns ← rewriteAll f ns
    pure (n :: ns)

end

/-- Nodes rewritten by a function that does nothing else. -/
def transform (f : Node → Node) (nodes : List Node) : List Node :=
  Id.run (rewriteAll (fun n => pure (f n)) nodes)

/-- Values of which none is a record, each given to `f`, from left to right. -/
def rewriteOthers (f : Value → m Value) : List Value → m (List Value)
  | [] => pure []
  | v :: vs => do
    let v ← f v
    let vs ← rewriteOthers f vs
    pure (v :: vs)

variable [MonadExceptOf Fault m]

mutual

/-- A value rewritten by `f`, from below. -/
def Value.rewrite (f : Value → m Value) : Value → m Value
  | .record cls [content, .list (child :: rest)] =>
    if cls.isContainer then do
      let children ← rewriteValues f (child :: rest)
      if Value.sameAll children (child :: rest) then f (.record cls [content, .list (child :: rest)])
      else f (.record cls [content, .list children])
    else f (.record cls [content, .list (child :: rest)])
  | .record cls [content, children] =>
    if cls.isContainer && children.present then
      match children.items with
      | .error fault => throw fault
      | .ok vs => do
        let vs ← rewriteOthers f vs
        f (.record cls [content, .list vs])
    else f (.record cls [content, children])
  | v => f v

/-- Values rewritten by `f`, from left to right. -/
def rewriteValues (f : Value → m Value) : List Value → m (List Value)
  | [] => pure []
  | v :: vs => do
    let v ← Value.rewrite f v
    let vs ← rewriteValues f vs
    pure (v :: vs)

end

end InlineMarkup
