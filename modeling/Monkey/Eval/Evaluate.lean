import Monkey.Eval.Builtin
import Monkey.Value.Operator
/-!
# Evaluation

Nodes are evaluated depth first and from left to right.  The rules take the evaluation of the nodes below as an
argument, and `evaluate` ties the knot; its bound is on the nesting of nodes, calls included, not on the number of
steps.

Each rule looks at its operands for errors alone.  A value on its way out of a `return` is therefore an operand like
any other, wherever it stands; only statements, bindings and calls take notice of it.
-/
namespace Monkey.Eval

/-- The evaluation of the nodes below. -/
abbrev Below := Node → ScopeId → Eval Value

/-- Statements in order, up to the first that ends them; the value is that of the last one evaluated, and null if there
is none. -/
def statements (ev : Below) (s : ScopeId) : Value → List Stmt → Eval Value
  | last, [] => pure last
  | _, stmt :: rest => do
    let v ← ev (.stmt stmt) s
    if v.isSignal then pure v else statements ev s v rest

/-- Expressions in order, up to the first error. -/
def expressions (ev : Below) (s : ScopeId) : List Expr → Eval (Except Value (List Value))
  | [] => pure (.ok [])
  | e :: rest => do
    let v ← ev (.expr e) s
    if v.isError then pure (.error v)
    else
      match ← expressions ev s rest with
      | .ok vs => pure (.ok (v :: vs))
      | .error v => pure (.error v)

/-- The pairs of a hash literal in order, up to the first error, added to those before. -/
def pairs (ev : Below) (s : ScopeId) :
    List (Key × Value) → List (Expr × Expr) → Eval (Except Value (List (Key × Value)))
  | done, [] => pure (.ok done)
  | done, (keyExpr, valueExpr) :: rest => do
    let k ← ev (.expr keyExpr) s
    if k.isError then pure (.error k)
    else
      match k.key? with
      | none => do
        let v ← fault (.unusableKey k.type)
        pure (.error v)
      | some key => do
        let v ← ev (.expr valueExpr) s
        if v.isError then pure (.error v) else pairs ev s (Dict.insert key v done) rest

/-- Binds parameters to arguments by position: a missing argument is null, an extra one is ignored. -/
def bindParams (s : ScopeId) : List Ident → List Value → Eval Unit
  | [], _ => pure ()
  | p :: rest, args => do
    bindName s p.name (args.head?.getD .null)
    bindParams s rest args.tail

/-- The scope of a call, inside the scope where the function was made. -/
def openCall (params : List Ident) (scope : ScopeId) (args : List Value) : Eval ScopeId := do
  let s ← openScope (some scope)
  bindParams s params args
  pure s

def apply (ev : Below) (callee : Value) (args : List Value) : Eval Value :=
  match callee with
  | .fn _ params body scope => do
    let s ← openCall params scope args
    let v ← ev (.block body) s
    pure v.unwrap
  | .builtin f => f.call args
  | v => fault (.notFunction v.type)

/-- The value of a name: a binding, or else a builtin function. -/
def named (s : ScopeId) (name : String) : Eval Value := do
  match ← lookup s name with
  | some v => pure v
  | none =>
    match Builtin.ofName? name with
    | some f => pure (.builtin f)
    | none => fault (.unbound name)

def expr (ev : Below) (s : ScopeId) : Expr → Eval Value
  | .ident id => named s id.name
  | .int _ _ n => pure (.int n)
  | .bool _ b => pure (.bool b)
  | .str _ text => pure (.str text)
  | .array _ elements => do
    match ← expressions ev s elements with
    | .ok vs => array vs
    | .error v => pure v
  | .hash _ entries => do
    match ← pairs ev s [] entries with
    | .ok kvs => hash kvs
    | .error v => pure v
  | .unary _ op operand => do
    let v ← ev (.expr operand) s
    if v.isError then pure v else ofExcept (v.applyUnary op)
  | .binary _ op left right => do
    let a ← ev (.expr left) s
    if a.isError then pure a
    else
      let b ← ev (.expr right) s
      if b.isError then pure b else ofExcept (a.applyBinary op b)
  | .cond _ condition consequence alternative => do
    let c ← ev (.expr condition) s
    if c.isError then pure c
    else if c.isTruthy then ev (.block consequence) s
    else
      match alternative with
      | some block => ev (.block block) s
      | none => pure .null
  | .fn _ params body => function params body s
  | .call _ callee args => do
    let f ← ev (.expr callee) s
    if f.isError then pure f
    else
      match ← expressions ev s args with
      | .ok vs => apply ev f vs
      | .error v => pure v
  | .index _ left i => do
    let a ← ev (.expr left) s
    if a.isError then pure a
    else
      let b ← ev (.expr i) s
      if b.isError then pure b else ofExcept (a.applyIndex b)

def stmt (ev : Below) (s : ScopeId) : Stmt → Eval Value
  | .expr _ value => ev (.expr value) s
  | .bind _ name value => do
    let v ← ev (.expr value) s
    if v.isSignal then pure v
    else do
      bindName s name.name v
      pure .null
  | .ret _ none => returned .null
  | .ret _ (some value) => do
    let v ← ev (.expr value) s
    if v.isSignal then pure v else returned v

/-- A node.  A `return` outside any function ends the program. -/
def node (ev : Below) (s : ScopeId) : Node → Eval Value
  | .program p => do
    let v ← statements ev s .null p.statements
    pure v.unwrap
  | .block b => statements ev s .null b.statements
  | .stmt st => stmt ev s st
  | .expr e => expr ev s e

/-- Evaluates a node in a scope, with a bound on the nesting of nodes. -/
def evaluate : Nat → Node → ScopeId → Eval Value
  | 0, _, _ => overflow
  | n + 1, nd, s => do
    emit (.enter nd s)
    let v ← node (evaluate n) s nd
    emit (.leave nd s v)
    pure v

end Monkey.Eval
