/-
# The calls of a visit

A visit shows itself in the calls of its handlers: which handler, with a value of
which type, and what its text is. Every handler answers with its name and that
type.

Nodes of the language are visited as nodes, and other values as loose values. A
visitor may also take a list of nodes that is to be visited in one go as a whole,
and then none of them is visited.

Key definitions: `HandlerCall`, `visitEach`, `visitTogether`.
-/
import InlineMarkup.Loose.Text

namespace InlineMarkup

/-- A call of the handler of a name with a value of a type. -/
structure HandlerCall where
  name : String
  type : String
  text : Value
  deriving Inhabited

/-- The answer of the handler that is called. -/
def HandlerCall.answer (c : HandlerCall) : String :=
  c.name ++ ":" ++ c.type

/-- A computation that notes calls. -/
abbrev Noting := StateT (Array HandlerCall) (Except Fault)

/-- Notes a call and answers it. -/
def noteCall (c : HandlerCall) : Noting String := do
  modify fun calls => calls.push c
  pure c.answer

/-- A visitor of nodes with some handlers, which notes their calls. -/
def notingVisitor (handlers : List Handler) : Visitor Noting String where
  handle h :=
    if handlers.contains h then
      some fun n => noteCall { name := h.name, type := n.cls.name, text := .text n.plainText }
    else none

/-- A visitor of loose values with some handlers, which notes their calls. -/
def notingLooseVisitor (handlers : List Handler) : LooseVisitor Noting String where
  handle h :=
    if handlers.contains h then
      some fun v => do
        match Loose.textOf v with
        | .error fault => throw fault
        | .ok text => noteCall { name := h.name, type := v.typeName, text }
    else none

/-- What visiting values one by one answers, and the calls made. -/
def visitEach (handlers : List Handler) (values : List Value) :
    Except Fault (List (Option String) × Array HandlerCall) :=
  match Value.nodes? values with
  | some ns => (ns.mapM (notingVisitor handlers).visit).run #[]
  | none => (values.mapM (notingLooseVisitor handlers).visit).run #[]

/-- The name of the handler that takes a list of nodes as a whole. -/
def wholeHandlerName : String := "visit_all"

/-- The call of the handler that takes values as a whole. -/
def wholeCall (values : List Value) : Except Fault HandlerCall :=
  (Loose.textOf (.list values)).map fun text =>
    { name := wholeHandlerName, type := (Value.list values).typeName, text }

/-- The calls made when values are visited in one go, by a visitor that may take
them as a whole. -/
def visitTogether (handlers : List Handler) (takesWhole : Bool) (values : List Value) :
    Except Fault (Array HandlerCall) :=
  if takesWhole then (wholeCall values).map fun call => #[call]
  else
    match Value.nodes? values with
    | some ns => (((notingVisitor handlers).visitAll ns).run #[]).map Prod.snd
    | none => (((notingLooseVisitor handlers).visitAll values).run #[]).map Prod.snd

end InlineMarkup
