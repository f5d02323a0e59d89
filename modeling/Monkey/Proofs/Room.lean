import Monkey.Proofs.Operands
/-!
# With room enough

The bound on the nesting of nodes cuts an evaluation off, and it has no other part in it: an evaluation that ends with a
result ends with it under every larger bound too (`Eval.evaluate_within`).  So one can speak of the result that a node
has with room enough (`Eval.Settles`), and there is a rule for each kind of node that says how it settles when its parts
do, without any bounds.
-/
namespace Monkey.Eval

/-! ## A larger bound changes no result -/

/-- Wherever the first evaluation has a result, the second has it too. -/
def Within {α : Type} (x y : Eval α) : Prop := ∀ w a w', x w = .value a w' → y w = .value a w'

section

variable {α β : Type} {x y : Eval α}

theorem Within.refl (x : Eval α) : Within x x := fun _ _ _ h => h

theorem Within.bind {f g : α → Eval β} (hx : Within x y) (hf : ∀ a, Within (f a) (g a)) : Within (x >>= f) (y >>= g) := by
  intro w b w'' h
  obtain ⟨a, w', hxa, hfa⟩ := exists_of_bind h
  rw [bind_value (hx w a w' hxa)]
  exact hf a w' b w'' hfa

/-- The same evaluation, and behind it evaluations of which the second may have more room. -/
theorem within_behind (x : Eval α) {f g : α → Eval β} (hf : ∀ a, Within (f a) (g a)) : Within (x >>= f) (x >>= g) :=
  (Within.refl x).bind hf

theorem within_ite {c : Prop} [Decidable c] {x' y' : Eval α} (hx : Within x y) (hx' : Within x' y') :
    Within (if c then x else x') (if c then y else y') := by
  by_cases hc : c
  · simpa [hc] using hx
  · simpa [hc] using hx'

end

section

variable {ev ev' : Below} (hev : ∀ nd s, Within (ev nd s) (ev' nd s))
include hev

theorem within_statements (s : ScopeId) : ∀ (ss : List Stmt) (last : Value),
    Within (statements ev s last ss) (statements ev' s last ss)
  | [], _ => .refl _
  | st :: ss, _ => (hev (.stmt st) s).bind fun v => within_ite (.refl _) (within_statements s ss v)

theorem within_expressions (s : ScopeId) (es : List Expr) : Within (expressions ev s es) (expressions ev' s es) := by
  induction es with
  | nil => exact .refl _
  | cons e es ih => exact (hev (.expr e) s).bind fun _ => within_ite (.refl _) (ih.bind fun _ => .refl _)

theorem within_pairs (s : ScopeId) : ∀ (entries : List (Expr × Expr)) (done : List (Key × Value)),
    Within (pairs ev s done entries) (pairs ev' s done entries)
  | [], _ => .refl _
  | (key, value) :: entries, done => by
    refine (hev (.expr key) s).bind fun k => within_ite (.refl _) ?_
    split
    · exact .refl _
    · exact (hev (.expr value) s).bind fun v => within_ite (.refl _) (within_pairs s entries _)

theorem within_apply (f : Value) (args : List Value) : Within (apply ev f args) (apply ev' f args) := by
  unfold apply
  split
  · exact within_behind _ fun s => (hev _ s).bind fun _ => .refl _
  · exact .refl _
  · exact .refl _

theorem within_expr (s : ScopeId) (e : Expr) : Within (expr ev s e) (expr ev' s e) := by
  cases e with
  | array pos elements => exact (within_expressions hev s elements).bind fun _ => .refl _
  | hash pos entries => exact (within_pairs hev s entries []).bind fun _ => .refl _
  | unary pos op operand => exact (hev _ s).bind fun _ => .refl _
  | binary pos op left right => exact (hev _ s).bind fun _ => within_ite (.refl _) ((hev _ s).bind fun _ => .refl _)
  | cond pos condition consequence alternative =>
    refine (hev _ s).bind fun c => within_ite (.refl _) (within_ite (hev _ s) ?_)
    cases alternative with
    | none => exact .refl _
    | some block => exact hev _ s
  | call pos callee args =>
    refine (hev _ s).bind fun f => within_ite (.refl _) ((within_expressions hev s args).bind fun r => ?_)
    cases r with
    | ok vs => exact within_apply hev f vs
    | error v => exact .refl _
  | index pos left i => exact (hev _ s).bind fun _ => within_ite (.refl _) ((hev _ s).bind fun _ => .refl _)
  | _ => exact .refl _

theorem within_stmt (s : ScopeId) (st : Stmt) : Within (stmt ev s st) (stmt ev' s st) := by
  cases st with
  | expr token value => exact hev _ s
  | bind pos name value => exact (hev _ s).bind fun _ => .refl _
  | ret pos value =>
    cases value with
    | none => exact .refl _
    | some value => exact (hev _ s).bind fun _ => .refl _

theorem within_node (s : ScopeId) (nd : Node) : Within (node ev s nd) (node ev' s nd) := by
  cases nd with
  | program p => exact (within_statements hev s _ _).bind fun _ => .refl _
  | block b => exact within_statements hev s _ _
  | stmt st => exact within_stmt hev s st
  | expr e => exact within_expr hev s e

end

/-- **More room changes no result.** -/
theorem evaluate_within : ∀ {n m : Nat}, n ≤ m → ∀ nd s, Within (evaluate n nd s) (evaluate m nd s)
  | 0, _, _, _, _ => fun _ _ _ h => nomatch h
  | _ + 1, _ + 1, hnm, nd, s => within_behind _ fun _ =>
    (within_node (evaluate_within (Nat.le_of_succ_le_succ hnm)) s nd).bind fun _ => .refl _

/-! ## Settling -/

/-- With room enough, the evaluation ends with this result, in this world. -/
def Settles {α : Type} (x : Nat → Eval α) (w : World) (a : α) (w' : World) : Prop :=
  ∃ n, ∀ m, n ≤ m → x m w = .value a w'

/-- The world in which a node is entered. -/
def entered (nd : Node) (s : ScopeId) (w : World) : World := { w with log := .enter nd s :: w.log }

/-- The world in which a node has been left. -/
def left (nd : Node) (s : ScopeId) (v : Value) (w : World) : World := { w with log := .leave nd s v :: w.log }

section

variable {α β : Type} {x : Nat → Eval α} {w w' w'' : World} {a : α} {b : β}

/-- What does not depend on the bound. -/
theorem Settles.of_eq {x : Eval α} (h : x w = .value a w') : Settles (fun _ => x) w a w' := ⟨0, fun _ _ => h⟩

theorem settles_pure (a : α) (w : World) : Settles (fun _ => pure a) w a w := .of_eq rfl

theorem Settles.bind {f : Nat → α → Eval β} (hx : Settles x w a w') (hf : Settles (fun m => f m a) w' b w'') :
    Settles (fun m => x m >>= f m) w b w'' := by
  obtain ⟨n, hn⟩ := hx
  obtain ⟨k, hk⟩ := hf
  refine ⟨max n k, fun m hm => ?_⟩
  exact (bind_value (hn m (by omega))).trans (hk m (by omega))

theorem settles_evaluate {nd : Node} {s : ScopeId} {v : Value}
    (h : Settles (fun m => node (evaluate m) s nd) (entered nd s w) v w') :
    Settles (fun m => evaluate m nd s) w v (left nd s v w') := by
  obtain ⟨n, hn⟩ := h
  refine ⟨n + 1, fun m hm => ?_⟩
  cases m with
  | zero => omega
  | succ m => exact (bind_value rfl).trans ((bind_value (hn m (by omega))).trans rfl)

/-- One bound is enough. -/
theorem Settles.of_apply {n : Nat} {f : Value} {args : List Value} {v : Value}
    (h : apply (evaluate n) f args w = .value v w') : Settles (fun m => apply (evaluate m) f args) w v w' :=
  ⟨n, fun _ hm => within_apply (evaluate_within hm) f args w v w' h⟩

end

/-! ## Lists of expressions -/

section

variable {s : ScopeId} {w w₁ w₂ w₃ : World}

theorem settles_expressions_nil (s : ScopeId) (w : World) :
    Settles (fun m => expressions (evaluate m) s []) w (.ok []) w := settles_pure _ _

theorem Settles.expressions_cons {e : Expr} {es : List Expr} {v : Value} {vs : List Value}
    (he : Settles (fun m => evaluate m (.expr e) s) w v w₁) (hv : v.isError = false)
    (hes : Settles (fun m => expressions (evaluate m) s es) w₁ (.ok vs) w₂) :
    Settles (fun m => expressions (evaluate m) s (e :: es)) w (.ok (v :: vs)) w₂ := by
  refine he.bind ?_
  simp only [hv]
  exact hes.bind (settles_pure _ _)

theorem Settles.pairs_cons {keyExpr valueExpr : Expr} {entries : List (Expr × Expr)} {done : List (Key × Value)}
    {k v : Value} {key : Key} {r : Except Value (List (Key × Value))}
    (hk : Settles (fun m => evaluate m (.expr keyExpr) s) w k w₁) (hkerror : k.isError = false)
    (hkey : k.key? = some key) (hv : Settles (fun m => evaluate m (.expr valueExpr) s) w₁ v w₂)
    (hverror : v.isError = false)
    (hrest : Settles (fun m => pairs (evaluate m) s (Dict.insert key v done) entries) w₂ r w₃) :
    Settles (fun m => pairs (evaluate m) s done ((keyExpr, valueExpr) :: entries)) w r w₃ := by
  refine hk.bind ?_
  simp only [hkerror, hkey]
  refine hv.bind ?_
  simp only [hverror]
  exact hrest

/-! ## Nodes -/

theorem settles_int (pos : Pos) (literal : String) (n : Nat) (s : ScopeId) (w : World) :
    Settles (fun m => evaluate m (.expr (.int pos literal n)) s) w (.int n)
      (left (.expr (.int pos literal n)) s (.int n) (entered (.expr (.int pos literal n)) s w)) :=
  settles_evaluate (settles_pure _ _)

theorem settles_bool (pos : Pos) (b : Bool) (s : ScopeId) (w : World) :
    Settles (fun m => evaluate m (.expr (.bool pos b)) s) w (.bool b)
      (left (.expr (.bool pos b)) s (.bool b) (entered (.expr (.bool pos b)) s w)) :=
  settles_evaluate (settles_pure _ _)

theorem Settles.array {pos : Pos} {es : List Expr} {vs : List Value}
    (h : Settles (fun m => expressions (evaluate m) s es) (entered (.expr (.array pos es)) s w) (.ok vs) w₁) :
    Settles (fun m => evaluate m (.expr (.array pos es)) s) w (.array w₁.fresh vs)
      (left (.expr (.array pos es)) s (.array w₁.fresh vs) { w₁ with fresh := w₁.fresh + 1 }) :=
  settles_evaluate (h.bind (.of_eq rfl))

theorem Settles.hash {pos : Pos} {entries : List (Expr × Expr)} {kvs : List (Key × Value)}
    (h : Settles (fun m => pairs (evaluate m) s [] entries) (entered (.expr (.hash pos entries)) s w) (.ok kvs) w₁) :
    Settles (fun m => evaluate m (.expr (.hash pos entries)) s) w (.hash w₁.fresh kvs)
      (left (.expr (.hash pos entries)) s (.hash w₁.fresh kvs) { w₁ with fresh := w₁.fresh + 1 }) :=
  settles_evaluate (h.bind (.of_eq rfl))

theorem Settles.unary {pos : Pos} {op : UnaryOp} {e : Expr} {v v' : Value}
    (h : Settles (fun m => evaluate m (.expr e) s) (entered (.expr (.unary pos op e)) s w) v w₁)
    (hv : v.isError = false) (hop : v.applyUnary op = .ok v') :
    Settles (fun m => evaluate m (.expr (.unary pos op e)) s) w v' (left (.expr (.unary pos op e)) s v' w₁) := by
  refine settles_evaluate (h.bind ?_)
  simp only [hv, hop]
  exact settles_pure _ _

/-- What a name means is found in the world, without changing it. -/
theorem Settles.named {id : Ident} {v : Value} (h : named s id.name (entered (.expr (.ident id)) s w) =
    .value v (entered (.expr (.ident id)) s w)) :
    Settles (fun m => evaluate m (.expr (.ident id)) s) w v
      (left (.expr (.ident id)) s v (entered (.expr (.ident id)) s w)) :=
  settles_evaluate (.of_eq h)

theorem Settles.ident {id : Ident} {v : Value} (h : w.store.get? s id.name = some v) :
    Settles (fun m => evaluate m (.expr (.ident id)) s) w v
      (left (.expr (.ident id)) s v (entered (.expr (.ident id)) s w)) := by
  refine .named ((bind_value rfl).trans ?_)
  rw [show (entered (.expr (.ident id)) s w).store.get? s id.name = some v from h]
  rfl

/-- A name that is not bound, of a builtin function. -/
theorem Settles.builtin {id : Ident} {f : Builtin} (h : w.store.get? s id.name = none)
    (hf : Builtin.ofName? id.name = some f) :
    Settles (fun m => evaluate m (.expr (.ident id)) s) w (.builtin f)
      (left (.expr (.ident id)) s (.builtin f) (entered (.expr (.ident id)) s w)) := by
  refine .named ((bind_value rfl).trans ?_)
  rw [show (entered (.expr (.ident id)) s w).store.get? s id.name = none from h, hf]
  rfl

theorem Settles.binary {pos : Pos} {op : BinaryOp} {e e' : Expr} {a b v : Value}
    (ha : Settles (fun m => evaluate m (.expr e) s) (entered (.expr (.binary pos op e e')) s w) a w₁)
    (haerror : a.isError = false) (hb : Settles (fun m => evaluate m (.expr e') s) w₁ b w₂) (hberror : b.isError = false)
    (hop : a.applyBinary op b = .ok v) :
    Settles (fun m => evaluate m (.expr (.binary pos op e e')) s) w v (left (.expr (.binary pos op e e')) s v w₂) := by
  refine settles_evaluate (ha.bind ?_)
  simp only [haerror]
  refine hb.bind ?_
  simp only [hberror, hop]
  exact settles_pure _ _

theorem Settles.consequence {pos : Pos} {condition : Expr} {consequence : Block} {alternative : Option Block}
    {c v : Value}
    (hc : Settles (fun m => evaluate m (.expr condition) s)
      (entered (.expr (.cond pos condition consequence alternative)) s w) c w₁)
    (hcerror : c.isError = false) (htrue : c.isTruthy = true)
    (h : Settles (fun m => evaluate m (.block consequence) s) w₁ v w₂) :
    Settles (fun m => evaluate m (.expr (.cond pos condition consequence alternative)) s) w v
      (left (.expr (.cond pos condition consequence alternative)) s v w₂) := by
  refine settles_evaluate (hc.bind ?_)
  simp only [hcerror, htrue]
  exact h

theorem Settles.alternative {pos : Pos} {condition : Expr} {consequence alternative : Block} {c v : Value}
    (hc : Settles (fun m => evaluate m (.expr condition) s)
      (entered (.expr (.cond pos condition consequence (some alternative))) s w) c w₁)
    (hcerror : c.isError = false) (hfalse : c.isTruthy = false)
    (h : Settles (fun m => evaluate m (.block alternative) s) w₁ v w₂) :
    Settles (fun m => evaluate m (.expr (.cond pos condition consequence (some alternative))) s) w v
      (left (.expr (.cond pos condition consequence (some alternative))) s v w₂) := by
  refine settles_evaluate (hc.bind ?_)
  simp only [hcerror, hfalse]
  exact h

theorem settles_function (pos : Pos) (params : List Ident) (body : Block) (s : ScopeId) (w : World) :
    Settles (fun m => evaluate m (.expr (.fn pos params body)) s) w (.fn w.fresh params body s)
      (left (.expr (.fn pos params body)) s (.fn w.fresh params body s)
        { entered (.expr (.fn pos params body)) s w with fresh := w.fresh + 1 }) :=
  settles_evaluate (.of_eq rfl)

theorem Settles.call {pos : Pos} {callee : Expr} {args : List Expr} {f v : Value} {vs : List Value}
    (hf : Settles (fun m => evaluate m (.expr callee) s) (entered (.expr (.call pos callee args)) s w) f w₁)
    (hferror : f.isError = false) (hargs : Settles (fun m => expressions (evaluate m) s args) w₁ (.ok vs) w₂)
    (h : Settles (fun m => apply (evaluate m) f vs) w₂ v w₃) :
    Settles (fun m => evaluate m (.expr (.call pos callee args)) s) w v
      (left (.expr (.call pos callee args)) s v w₃) := by
  refine settles_evaluate (hf.bind ?_)
  simp only [hferror]
  exact hargs.bind h

/-- A function is entered in the scope of the call. -/
theorem Settles.apply {id : Identity} {params : List Ident} {body : Block} {scope t : ScopeId} {args : List Value}
    {v : Value} (hopen : openCall params scope args w = .value t w₁)
    (h : Settles (fun m => evaluate m (.block body) t) w₁ v w₂) :
    Settles (fun m => apply (evaluate m) (.fn id params body scope) args) w v.unwrap w₂ :=
  (Settles.of_eq hopen).bind (h.bind (settles_pure _ _))

/-! ## Statements -/

theorem Settles.binding {pos : Pos} {name : Ident} {e : Expr} {v : Value}
    (h : Settles (fun m => evaluate m (.expr e) s) (entered (.stmt (.bind pos name e)) s w) v w₁)
    (hv : v.isSignal = false) :
    Settles (fun m => evaluate m (.stmt (.bind pos name e)) s) w .null
      (left (.stmt (.bind pos name e)) s .null
        { w₁ with store := w₁.store.set s name.name v, log := .bind s name.name v :: w₁.log }) := by
  refine settles_evaluate (h.bind ?_)
  simp only [hv]
  exact .of_eq rfl

theorem Settles.block {b : Block} {v : Value}
    (h : Settles (fun m => statements (evaluate m) s .null b.statements) (entered (.block b) s w) v w₁) :
    Settles (fun m => evaluate m (.block b) s) w v (left (.block b) s v w₁) :=
  settles_evaluate h

theorem Settles.statements_cons {st : Stmt} {ss : List Stmt} {last v u : Value}
    (h : Settles (fun m => evaluate m (.stmt st) s) w v w₁) (hv : v.isSignal = false)
    (hrest : Settles (fun m => statements (evaluate m) s v ss) w₁ u w₂) :
    Settles (fun m => statements (evaluate m) s last (st :: ss)) w u w₂ := by
  refine h.bind ?_
  simp only [hv]
  exact hrest

theorem Settles.statement {token : Token} {e : Expr} {v : Value}
    (h : Settles (fun m => evaluate m (.expr e) s) (entered (.stmt (.expr token e)) s w) v w₁) :
    Settles (fun m => evaluate m (.stmt (.expr token e)) s) w v (left (.stmt (.expr token e)) s v w₁) :=
  settles_evaluate h

theorem Settles.statements_last {st : Stmt} {last v : Value} (h : Settles (fun m => evaluate m (.stmt st) s) w v w₁) :
    Settles (fun m => statements (evaluate m) s last [st]) w v w₁ := by
  refine h.bind ?_
  by_cases hv : v.isSignal
  · simpa [hv] using settles_pure v w₁
  · simpa [hv, statements] using settles_pure v w₁

theorem Settles.program {p : Program} {v : Value}
    (h : Settles (fun m => statements (evaluate m) s .null p.statements) (entered (.program p) s w) v w₁) :
    Settles (fun m => evaluate m (.program p) s) w v.unwrap (left (.program p) s v.unwrap w₁) :=
  settles_evaluate (h.bind (settles_pure _ _))

end

end Monkey.Eval
