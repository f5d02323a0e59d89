import Monkey.Ast.Node
import Monkey.Scope
/-!
# Evaluations

An evaluation runs in a world: the scopes, a supply of identities, and a log of what has happened.  It ends with a
result, or it overflows because nodes are nested too deep; the world up to then is kept in either case.  What a program
prints, and what a debug listing shows, are read off the log.
-/
namespace Monkey

/-- What an evaluation does that can be told from outside: it enters a node in a scope and leaves it with a value, binds
a name, prints a line. -/
inductive Event where
  | enter (node : Node) (scope : ScopeId)
  | leave (node : Node) (scope : ScopeId) (value : Value)
  | bind (scope : ScopeId) (name : String) (value : Value)
  | print (line : String)

/-- What a terminal shows of an event: printed lines, and in a debug listing the kind of every node entered. -/
def Event.text (debug : Bool) : Event → String
  | enter node _ => if debug then "Evaluating: " ++ node.className ++ "\n" else ""
  | print line => line ++ "\n"
  | _ => ""

/-- The state of a run; the log has its last event first. -/
structure World where
  store : Store
  fresh : Identity
  log : List Event

namespace World

def empty : World := ⟨.empty, 0, []⟩

/-- The events so far, in the order in which they happened. -/
def events (w : World) : List Event := w.log.reverse

end World

inductive Ending (α : Type) where
  | value (result : α) (w : World)
  | overflow (w : World)

def Eval (α : Type) : Type := World → Ending α

namespace Eval

def give {α : Type} (a : α) : Eval α := fun w => .value a w

def andThen {α β : Type} (x : Eval α) (f : α → Eval β) : Eval β := fun w =>
  match x w with
  | .value a w' => f a w'
  | .overflow w' => .overflow w'

instance : Monad Eval where
  pure := give
  bind := andThen

/-- The nesting is too deep. -/
def overflow {α : Type} : Eval α := fun w => .overflow w

def emit (e : Event) : Eval Unit := fun w => .value () { w with log := e :: w.log }

/-- An identity that no value has. -/
def identity : Eval Identity := fun w => .value w.fresh { w with fresh := w.fresh + 1 }

def lookup (s : ScopeId) (name : String) : Eval (Option Value) := fun w => .value (w.store.get? s name) w

def bindName (s : ScopeId) (name : String) (v : Value) : Eval Unit := fun w =>
  .value () { w with store := w.store.set s name v, log := .bind s name v :: w.log }

/-- Opens a scope, outermost or inside another. -/
def openScope (outer : Option ScopeId) : Eval ScopeId := fun w =>
  .value w.store.next { w with store := w.store.push outer }

def array (elements : List Value) : Eval Value := do
  let id ← identity
  pure (.array id elements)

def hash (pairs : List (Key × Value)) : Eval Value := do
  let id ← identity
  pure (.hash id pairs)

def function (params : List Ident) (body : Block) (s : ScopeId) : Eval Value := do
  let id ← identity
  pure (.fn id params body s)

/-- A new wrapping of a returned value. -/
def returned (v : Value) : Eval Value := do
  let id ← identity
  pure (.ret id v)

def fault (f : Fault) : Eval Value := do
  let id ← identity
  pure (.error id f)

/-- The result of an operation, or the runtime error that it is. -/
def ofExcept : Except Fault Value → Eval Value
  | .ok v => pure v
  | .error f => fault f

end Eval

end Monkey
