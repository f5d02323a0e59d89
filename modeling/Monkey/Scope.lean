import Monkey.Dict
import Monkey.Value.Basic
/-!
# Scopes

All scopes of a run stand in one store, numbered in the order in which they were opened.  A scope keeps the number of the
scope around it, and the way outward follows these links one by one; it comes to its end because a scope is opened inside
an older one.  A name means its entry in the nearest scope that has one, and binding a name changes one scope alone.
-/
namespace Monkey

/-- A scope: the scope around it, if there is one, and its own names in the order of their first binding. -/
structure Scope where
  outer : Option ScopeId
  bindings : List (String × Value)

structure Store where
  scopes : Array Scope

namespace Store

def empty : Store := ⟨#[]⟩

/-- The scope around a scope, if there is one. -/
def outer? (st : Store) (s : ScopeId) : Option ScopeId := st.scopes[s]?.bind (·.outer)

/-- The scopes around a scope, nearest first: the way along the links.  A link to no older scope, which no run makes,
would be the last one. -/
def enclosing (st : Store) (s : ScopeId) : List ScopeId :=
  match st.outer? s with
  | none => []
  | some t => t :: if t < s then st.enclosing t else []
termination_by s

/-- The names of a scope alone, with their values. -/
def bindings (st : Store) (s : ScopeId) : List (String × Value) :=
  match st.scopes[s]? with
  | some scope => scope.bindings
  | none => []

/-- A scope and the scopes around it, from the inside out. -/
def chain (st : Store) (s : ScopeId) : List ScopeId := s :: st.enclosing s

/-- The number of scopes from a scope to the outermost. -/
def depth (st : Store) (s : ScopeId) : Nat := (st.chain s).length

/-- The value of a name in a scope or, failing that, in the nearest scope around it that has the name. -/
def get? (st : Store) (s : ScopeId) (name : String) : Option Value :=
  (st.chain s).findSome? fun i => (st.bindings i).lookup name

def set (st : Store) (s : ScopeId) (name : String) (v : Value) : Store :=
  ⟨st.scopes.modify s fun scope => { scope with bindings := Dict.insert name v scope.bindings }⟩

def next (st : Store) : ScopeId := st.scopes.size

/-- The store with one more scope, outermost or inside another. -/
def push (st : Store) (outer : Option ScopeId) : Store :=
  ⟨st.scopes.push ⟨outer, []⟩⟩

/-- A scope as it is shown: its own names and its depth. -/
def describe (st : Store) (s : ScopeId) : String :=
  "Environment([" ++ ", ".intercalate ((st.bindings s).map (·.1)) ++ "], depth=" ++ Text.decimal (st.depth s) ++ ")"

end Store

end Monkey
