import Monkey.Proofs.Evaluation
/-!
# Operands and what is done with them

All expressions but hash literals have one shape: they evaluate their operands from left to right, up to the first
error, and finish with the values (`expr_eq_finish`).  What they can do then is a short list (`Finishes`), and so is
what a builtin function can do with its arguments (`Builtin.Answers`): apart from entering a branch or a function, a
value is passed on, or one is made.
-/
namespace Monkey

namespace Value

/-- The number under which a value was made, if it has one. -/
def identity? : Value → Option Identity
  | array id _ | hash id _ | fn id _ _ _ | ret id _ | error id _ => some id
  | _ => none

/-- The values that a value holds. -/
def held : Value → List Value
  | array _ elements => elements
  | hash _ pairs => pairs.map (·.2)
  | ret _ v => [v]
  | _ => []

theorem unwrap_cases (v : Value) : v.unwrap = v ∨ v.unwrap ∈ v.held := by
  cases v <;> simp [unwrap, held]

theorem unwrap_of_not_isSignal {v : Value} (h : v.isSignal = false) : v.unwrap = v := by
  cases v <;> first | rfl | cases h

theorem isError_of_not_isSignal {v : Value} (h : v.isSignal = false) : v.isError = false := by
  cases v <;> first | rfl | cases h

end Value

/-! ## Passing on and making -/

/-- What can be done with given values without entering anything: a value without an identity is given, or one that a
given value holds; an array is made of such and of given values; or the values are found unfit. -/
inductive Eval.Answers (given : List Value) : Eval Value → Prop
  | plain {v : Value} (hv : v.identity? = none) : Answers given (pure v)
  | part {u v : Value} (hu : u ∈ given) (hv : v ∈ u.held) : Answers given (pure v)
  | array {vs : List Value} (h : ∀ v ∈ vs, v ∈ given ∨ ∃ u ∈ given, v ∈ u.held) : Answers given (Eval.array vs)
  | fault (f : Fault) : Answers given (Eval.fault f)

theorem Eval.silent_answers {given : List Value} {x : Eval Value} (h : Answers given x) : x.Silent := by
  cases h with
  | plain => exact silent_pure _
  | part => exact silent_pure _
  | array => exact silent_made _
  | fault => exact silent_made _

namespace Value

open Eval (ofExcept Answers)

theorem answers_applyUnary (op : UnaryOp) (v : Value) : Answers [v] (ofExcept (v.applyUnary op)) := by
  unfold applyUnary
  split
  · exact .plain rfl
  · exact .plain rfl
  · exact .fault _

theorem answers_applyInt (given : List Value) (op : BinaryOp) (a b : Int) :
    Answers given (ofExcept (applyInt op a b)) := by
  cases op with
  | div =>
    unfold applyInt
    dsimp only
    split
    · exact .plain rfl
    · exact .fault _
  | _ => exact .plain rfl

theorem answers_applyBinary (op : BinaryOp) (a b : Value) : Answers [a, b] (ofExcept (a.applyBinary op b)) := by
  unfold applyBinary
  split
  · exact answers_applyInt _ _ _ _
  · exact .plain rfl
  · exact .plain rfl
  · exact .plain rfl
  · exact .fault _

theorem elementAt_cases (elements : List Value) (i : Int) :
    elementAt elements i = .null ∨ elementAt elements i ∈ elements := by
  cases i with
  | ofNat n =>
    simp only [elementAt]
    cases h : elements[n]? with
    | none => exact .inl rfl
    | some v => exact .inr (List.mem_of_getElem? h)
  | negSucc n => exact .inl rfl

theorem answers_applyIndex (a b : Value) : Answers [a, b] (ofExcept (a.applyIndex b)) := by
  unfold applyIndex
  split
  · rename_i id elements i
    rcases elementAt_cases elements i with h | h
    · exact .plain (by rw [h]; rfl)
    · exact .part List.mem_cons_self h
  · rename_i id pairs
    unfold lookupKey
    split
    · rename_i key _
      cases h : pairs.lookup key with
      | none => exact .plain rfl
      | some v =>
        obtain ⟨l₁, l₂, hpairs, -⟩ := List.lookup_eq_some_iff.1 h
        exact .part List.mem_cons_self (List.mem_map.2 ⟨(key, v), by rw [hpairs]; simp, rfl⟩)
    · exact .fault _
  · exact .fault _

end Value

namespace Builtin

open Eval (Answers)

theorem arrayArgument_ok {f : Builtin} {args elements : List Value} (h : f.arrayArgument args = .ok elements) :
    ∃ id, args = [.array id elements] := by
  unfold arrayArgument at h
  split at h
  · cases h; exact ⟨_, rfl⟩
  · cases h
  · cases h

theorem answers_arrayArgument (f : Builtin) (args : List Value) {use : List Value → Eval Value}
    (h : ∀ id elements, Answers [.array id elements] (use elements)) :
    Answers args (match f.arrayArgument args with
      | .ok elements => use elements
      | .error fault => Eval.fault fault) := by
  split
  · rename_i elements hok
    obtain ⟨id, rfl⟩ := arrayArgument_ok hok
    exact h id elements
  · exact .fault _

theorem answers_element {id : Identity} {elements : List Value} {v? : Option Value} (h : ∀ v ∈ v?, v ∈ elements) :
    Answers [.array id elements] (pure (v?.getD .null)) := by
  cases v? with
  | none => exact .plain rfl
  | some v => exact .part List.mem_cons_self (h v rfl)

theorem answers_call {f : Builtin} (hf : f ≠ puts) (args : List Value) : Answers args (f.call args) := by
  cases f with
  | puts => exact absurd rfl hf
  | len =>
    show Answers args (callLen args)
    unfold callLen
    split
    · exact .plain rfl
    · exact .plain rfl
    · exact .fault _
    · exact .fault _
  | push =>
    show Answers args (callPush args)
    unfold callPush
    split
    · rename_i id elements v
      refine .array fun u hu => ?_
      rcases List.mem_append.1 hu with hu | hu
      · exact .inr ⟨_, List.mem_cons_self, hu⟩
      · exact .inl (List.mem_cons_of_mem _ hu)
    · exact .fault _
    · exact .fault _
  | first => exact answers_arrayArgument _ args fun _ _ => answers_element fun _ => List.mem_of_mem_head?
  | last => exact answers_arrayArgument _ args fun _ _ => answers_element fun _ => List.mem_of_mem_getLast?
  | rest =>
    refine answers_arrayArgument _ args fun id elements => ?_
    unfold callRest
    split
    · exact .plain rfl
    · exact .array fun v hv => .inr ⟨_, List.mem_cons_self, List.mem_cons_of_mem _ hv⟩

/-- A builtin function prints its arguments, or it answers with them. -/
theorem call_cases (f : Builtin) (args : List Value) :
    f.call args = (printAll args >>= fun _ => pure .null) ∨ Answers args (f.call args) := by
  by_cases hf : f = puts
  · subst hf
    exact .inl rfl
  · exact .inr (answers_call hf args)

end Builtin

/-! ## Operands -/

/-- The expressions whose values an expression uses, in the order in which they are evaluated. -/
def Expr.operands : Expr → List Expr
  | .array _ elements => elements
  | .unary _ _ operand => [operand]
  | .binary _ _ left right => [left, right]
  | .cond _ condition _ _ => [condition]
  | .call _ callee args => callee :: args
  | .index _ left i => [left, i]
  | _ => []

theorem Expr.mem_children_of_operands {e operand : Expr} (h : operand ∈ e.operands) :
    Node.expr operand ∈ (Node.expr e).children := by
  cases e <;> simp_all [Expr.operands, Node.children]

namespace Eval

variable {ev : Below} {s : ScopeId}

theorem silent_named (s : ScopeId) (name : String) : Silent (named s name) := by
  refine (silent_lookup s name).bind fun v? => ?_
  split
  · exact silent_pure _
  · split
    · exact silent_pure _
    · exact silent_made _

/-- What an expression does with the values of its operands. -/
def finish (ev : Below) (s : ScopeId) : Expr → List Value → Eval Value
  | .ident id, _ => named s id.name
  | .int _ _ n, _ => pure (.int n)
  | .bool _ b, _ => pure (.bool b)
  | .str _ text, _ => pure (.str text)
  | .array _ _, vs => array vs
  | .unary _ op _, [v] => ofExcept (v.applyUnary op)
  | .binary _ op _ _, [a, b] => ofExcept (a.applyBinary op b)
  | .cond _ _ consequence alternative, [c] =>
    if c.isTruthy then ev (.block consequence) s
    else
      match alternative with
      | some block => ev (.block block) s
      | none => pure .null
  | .fn _ params body, _ => function params body s
  | .call _ _ _, f :: args => apply ev f args
  | .index _ _ _, [a, b] => ofExcept (a.applyIndex b)
  | _, _ => pure .null

theorem apply_fn (id : Identity) (params : List Ident) (body : Block) (scope : ScopeId) (args : List Value) :
    apply ev (.fn id params body scope) args = openScope (some scope) >>= fun t =>
      bindParams t params args >>= fun _ => ev (.block body) t >>= fun v => pure v.unwrap := by
  simp only [apply, openCall, bind_assoc, pure_bind]

/-- What an expression can finish with. -/
inductive Finishes (ev : Below) (s : ScopeId) (e : Expr) (vs : List Value) : Eval Value → Prop
  | named {id : Ident} (he : e = .ident id) : Finishes ev s e vs (named s id.name)
  | answer {x : Eval Value} (h : Answers vs x) : Finishes ev s e vs x
  | function (params : List Ident) (body : Block) : Finishes ev s e vs (function params body s)
  | branch {pos : Pos} {condition : Expr} {consequence block : Block} {alternative : Option Block}
      (he : e = .cond pos condition consequence alternative) (hb : block = consequence ∨ alternative = some block) :
      Finishes ev s e vs (ev (.block block) s)
  | call {pos : Pos} {callee : Expr} {args : List Expr} {f : Value} {us : List Value}
      (he : e = .call pos callee args) (hvs : vs = f :: us) : Finishes ev s e vs (apply ev f us)

theorem finishes_finish (e : Expr) (vs : List Value) : Finishes ev s e vs (finish ev s e vs) := by
  unfold finish
  split
  · exact .named rfl
  · exact .answer (.plain rfl)
  · exact .answer (.plain rfl)
  · exact .answer (.plain rfl)
  · exact .answer (.array fun v hv => .inl hv)
  · exact .answer (Value.answers_applyUnary _ _)
  · exact .answer (Value.answers_applyBinary _ _ _)
  · split
    · exact .branch rfl (.inl rfl)
    · split
      · exact .branch rfl (.inr rfl)
      · exact .answer (.plain rfl)
  · exact .function _ _
  · exact .call rfl rfl
  · exact .answer (Value.answers_applyIndex _ _)
  · exact .answer (.plain rfl)

/-- **Operands first**: every expression that is no hash literal evaluates its operands and finishes with their
values. -/
theorem expr_eq_finish {e : Expr} (he : ∀ pos entries, e ≠ .hash pos entries) :
    expr ev s e = expressions ev s e.operands >>= fun r =>
      match r with
      | .ok vs => finish ev s e vs
      | .error v => pure v := by
  cases e with
  | hash pos entries => exact absurd rfl (he pos entries)
  | ident => rfl
  | int => rfl
  | bool => rfl
  | str => rfl
  | fn => rfl
  | array => rfl
  | unary => simp [expr, expressions, Expr.operands, finish, ite_bind]
  | binary => simp [expr, expressions, Expr.operands, finish, ite_bind]
  | cond =>
    simp only [expr, expressions, Expr.operands, bind_assoc, pure_bind, ite_bind]
    rfl
  | call pos callee args =>
    simp only [expr, expressions, Expr.operands, bind_assoc, pure_bind, ite_bind]
    refine bind_congr fun f => ?_
    split
    · rfl
    · refine bind_congr fun r => ?_
      cases r <;> rfl
  | index => simp [expr, expressions, Expr.operands, finish, ite_bind]

end Eval

end Monkey
