/-
# Rewrite rules

A rule is an edit, for the values of one type or for all. Rules are applied one
after the other, each to what the one before it made.

Nodes of the language are rewritten as nodes for as long as the rules make such
nodes of them, and as loose values otherwise.

Key definitions: `Rule`, `Rule.apply`, `applyRules`, `rewriteTraced`.
-/
import InlineMarkup.Rewrite
import InlineMarkup.Rewrite.Edit

namespace InlineMarkup

/-- An edit, for the values of the type of one name or for all. -/
structure Rule where
  only : Option String := none
  edit : Edit

/-- A rule applied to a value. -/
def Rule.apply (r : Rule) (v : Value) : Except Fault Value :=
  if r.only.all fun type => v.typeName == type then r.edit.apply v else .ok v

/-- Rules applied to a value one after the other. -/
def applyRules (rules : List Rule) (v : Value) : Except Fault Value :=
  rules.foldlM (fun v r => r.apply v) v

/-- A rewrite of nodes that notes their types. It ends without a fault where a
rule makes something else than a node of the language. -/
abbrev NodeTrace := StateT (Array String) (Except (Option Fault))

/-- Rules applied to a node, whose class is noted. -/
def traceNode (rules : List Rule) (n : Node) : NodeTrace Node := do
  modify fun seen => seen.push n.cls.name
  match applyRules rules n.stored with
  | .error fault => throw (some fault)
  | .ok v =>
    match v.node? with
    | none => throw none
    | some n => pure n

/-- A rewrite of values that notes their types. -/
abbrev ValueTrace := StateT (Array String) (Except Fault)

/-- Rules applied to a value, whose type is noted. -/
def traceValue (rules : List Rule) (v : Value) : ValueTrace Value := do
  modify fun seen => seen.push v.typeName
  match applyRules rules v with
  | .error fault => throw fault
  | .ok v => pure v

/-- Values rewritten by rules, with the types of the values that the rules were
given, in order. -/
def rewriteTraced (rules : List Rule) (values : List Value) :
    Except Fault (List Value × Array String) :=
  match (Value.nodes? values).map fun ns => (rewriteAll (traceNode rules) ns).run #[] with
  | some (.ok (ns, seen)) => .ok (Node.storedAll ns, seen)
  | some (.error (some fault)) => .error fault
  | _ => (rewriteValues (traceValue rules) values).run #[]

end InlineMarkup
