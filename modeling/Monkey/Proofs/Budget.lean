import Monkey.Proofs.Rule
/-!
# More budget changes nothing

A rule that ends within its budget ends in the same way with any larger one (`Parse.within_expression`,
`Parse.within_program`): the budget cuts a run off, and it has no other part in it.
-/
namespace Monkey.Parse

/-- Wherever the first rule does not run out of budget, the second does the same. -/
def Within {α : Type} (x x' : Parse α) : Prop := ∀ p, x p = .exhausted ∨ x' p = x p

section

variable {α β : Type} {x x' : Parse α}

theorem Within.refl (x : Parse α) : Within x x := fun _ => .inr rfl

theorem within_outOfBudget (x : Parse α) : Within outOfBudget x := fun _ => .inl rfl

theorem Within.bind {f f' : α → Parse β} (hx : Within x x') (hf : ∀ a, Within (f a) (f' a)) :
    Within (x >>= f) (x' >>= f') := fun p => by
  show andThen x f p = .exhausted ∨ andThen x' f' p = andThen x f p
  unfold andThen
  rcases hx p with h | h
  · exact .inl (by rw [h])
  · rw [h]
    cases x p with
    | done a q => exact hf a q
    | malformed q => exact .inr rfl
    | exhausted => exact .inl rfl

/-- The same rule, and behind it rules of which the second may have more budget. -/
theorem within_behind (x : Parse α) {f f' : α → Parse β} (hf : ∀ a, Within (f a) (f' a)) : Within (x >>= f) (x >>= f') :=
  (Within.refl x).bind hf

theorem within_ite {c : Prop} [Decidable c] {y y' : Parse α} (hx : Within x x') (hy : Within y y') :
    Within (if c then x else y) (if c then x' else y') := by
  split
  · exact hx
  · exact hy

theorem Within.attempt (hx : Within x x') : Within (attempt x) (attempt x') := fun p => by
  unfold Parse.attempt
  rcases hx p with h | h
  · exact .inl (by rw [h])
  · exact .inr (by rw [h])

theorem Within.traced (rule : Rule) (hx : Within x x') : Within (traced rule x) (traced rule x') := fun p => by
  unfold Parse.traced
  rcases hx (p.mark (.enter rule p.cur)) with h | h
  · exact .inl (by rw [h])
  · exact .inr (by rw [h])

/-! ## Lists and blocks -/

section

variable (hx : Within x x')
include hx

theorem within_moreItems : ∀ {n n' : Nat}, n ≤ n' → Within (moreItems x n) (moreItems x' n')
  | 0, _, _ => within_outOfBudget _
  | _ + 1, _ + 1, hn => within_behind _ fun _ => within_ite
    (within_behind _ fun _ => hx.bind fun _ => (within_moreItems (Nat.le_of_succ_le_succ hn)).bind fun _ => .refl _)
    (.refl _)

theorem within_items (close : Kind) {n n' : Nat} (hn : n ≤ n') : Within (items x close n) (items x' close n') :=
  within_behind _ fun _ => within_ite (.refl _)
    (hx.bind fun _ => (within_moreItems hx hn).bind fun _ => .refl _)

end

theorem within_params {n n' : Nat} (hn : n ≤ n') : Within (params n) (params n') := within_items (.refl _) _ hn

section

variable {stmt stmt' : Parse Stmt} (hs : Within stmt stmt')
include hs

theorem within_blockStatements : ∀ {n n' : Nat}, n ≤ n' → Within (blockStatements stmt n) (blockStatements stmt' n')
  | 0, _, _ => within_outOfBudget _
  | n + 1, n' + 1, hn => by
    have ih := within_blockStatements (Nat.le_of_succ_le_succ hn)
    refine within_behind _ fun token => ?_
    split
    · exact .refl _
    · exact .refl _
    · refine within_behind _ fun depth => hs.attempt.bind fun s? => ?_
      cases s? with
      | some s => exact within_behind _ fun _ => ih.bind fun _ => .refl _
      | none =>
        exact within_behind _ fun _ => within_behind _ fun _ => within_ite (.refl _) (within_behind _ fun _ => ih)

theorem within_block {n n' : Nat} (hn : n ≤ n') : Within (block stmt n) (block stmt' n') :=
  within_behind _ fun _ => within_behind _ fun _ => (within_blockStatements hs hn).bind fun _ => .refl _

theorem within_programStatements :
    ∀ {n n' : Nat}, n ≤ n' → Within (programStatements stmt n) (programStatements stmt' n')
  | 0, _, _ => within_outOfBudget _
  | n + 1, n' + 1, hn => by
    have ih := within_programStatements (Nat.le_of_succ_le_succ hn)
    refine within_behind _ fun token => within_ite (.refl _) ?_
    refine within_behind _ fun depth => hs.attempt.bind fun s? => ?_
    cases s? with
    | some s => exact within_behind _ fun _ => ih.bind fun _ => .refl _
    | none => exact within_behind _ fun _ => within_behind _ fun _ => ih

end

end

/-! ## The rules over a rule for expressions -/

section

variable {expr expr' : Precedence → Parse Expr} (he : ∀ precedence, Within (expr precedence) (expr' precedence))
include he

theorem within_bindStatement : Within (bindStatement expr) (bindStatement expr') :=
  within_behind _ fun _ => within_behind _ fun _ => within_behind _ fun _ => within_behind _ fun _ =>
    within_behind _ fun _ => (he _).bind fun _ => .refl _

theorem within_returnStatement : Within (returnStatement expr) (returnStatement expr') := by
  refine within_behind _ fun _ => within_behind _ fun token => ?_
  split
  · exact .refl _
  · exact .refl _
  · exact .refl _
  · exact within_behind _ fun _ => (he _).bind fun _ => .refl _

theorem within_expressionStatement : Within (expressionStatement expr) (expressionStatement expr') :=
  within_behind _ fun _ => (he _).bind fun _ => .refl _

theorem within_statementWith : Within (statementWith expr) (statementWith expr') := by
  refine .traced _ (within_behind _ fun token => ?_)
  split
  · exact within_bindStatement he
  · exact within_returnStatement he
  · exact within_expressionStatement he

theorem within_unary (op : UnaryOp) : Within (unary expr op) (unary expr' op) :=
  .traced _ <| within_behind _ fun _ => within_behind _ fun _ => (he _).bind fun _ => .refl _

theorem within_grouped : Within (grouped expr) (grouped expr') :=
  within_behind _ fun _ => (he _).bind fun _ => .refl _

theorem within_binary (op : BinaryOp) (left : Expr) : Within (binary expr op left) (binary expr' op left) :=
  .traced _ <| within_behind _ fun _ => within_behind _ fun _ => (he _).bind fun _ => .refl _

theorem within_index (left : Expr) : Within (index expr left) (index expr' left) :=
  within_behind _ fun _ => within_behind _ fun _ => (he _).bind fun _ => .refl _

variable {n n' : Nat} (hn : n ≤ n')
include hn

theorem within_cond : Within (Parse.cond expr n) (Parse.cond expr' n') := by
  have hblock := within_block (within_statementWith he) hn
  refine within_behind _ fun _ => within_behind _ fun _ => within_behind _ fun _ => (he _).bind fun _ => ?_
  refine within_behind _ fun _ => within_behind _ fun _ => hblock.bind fun _ => within_behind _ fun _ => ?_
  exact within_ite (within_behind _ fun _ => within_behind _ fun _ => hblock.bind fun _ => .refl _) (.refl _)

theorem within_fn : Within (fn expr n) (fn expr' n') :=
  within_behind _ fun _ => within_behind _ fun _ => (within_params hn).bind fun _ => within_behind _ fun _ =>
    (within_block (within_statementWith he) hn).bind fun _ => .refl _

theorem within_expressions (close : Kind) : Within (expressions expr close n) (expressions expr' close n') :=
  within_items (within_behind _ fun _ => he _) close hn

theorem within_array : Within (array expr n) (array expr' n') :=
  within_behind _ fun _ => (within_expressions he hn _).bind fun _ => .refl _

theorem within_call (callee : Expr) : Within (call expr n callee) (call expr' n' callee) :=
  within_behind _ fun _ => (within_expressions he hn _).bind fun _ => .refl _

omit hn in
theorem within_hashPairs : ∀ {n n' : Nat}, n ≤ n' → Within (hashPairs expr n) (hashPairs expr' n')
  | 0, _, _ => within_outOfBudget _
  | n + 1, n' + 1, hn => by
    have hrest (pair : Expr × Expr) : Within (hashPairs expr n >>= fun rest => pure (pair :: rest))
        (hashPairs expr' n' >>= fun rest => pure (pair :: rest)) :=
      (within_hashPairs (Nat.le_of_succ_le_succ hn)).bind fun _ => .refl _
    refine within_behind _ fun _ => within_ite (.refl _) (within_behind _ fun _ => (he _).bind fun _ => ?_)
    refine within_behind _ fun _ => within_behind _ fun _ => (he _).bind fun _ => within_behind _ fun _ => ?_
    exact within_ite (within_behind _ fun _ => hrest _) (hrest _)

theorem within_hash : Within (hash expr n) (hash expr' n') :=
  within_behind _ fun _ => (within_hashPairs he hn).bind fun _ => .refl _

theorem within_operand : Within (operand expr n) (operand expr' n') := by
  refine within_behind _ fun token => ?_
  split
  · exact .refl _
  · exact .refl _
  · exact .refl _
  · exact .refl _
  · exact .refl _
  · exact within_unary he _
  · exact within_unary he _
  · exact within_grouped he
  · exact within_cond he hn
  · exact within_fn he hn
  · exact within_array he hn
  · exact within_hash he hn
  · exact .refl _

theorem within_extend (left : Expr) : Within (extend expr n left) (extend expr' n' left) := by
  refine within_behind _ fun token => ?_
  dsimp only
  split
  · exact within_call he hn left
  · exact within_index he left
  · split
    · exact within_binary he _ left
    · exact .refl _

omit hn in
theorem within_climb (precedence : Precedence) : ∀ {n n' : Nat} (left : Expr), n ≤ n' →
    Within (climb expr precedence n left) (climb expr' precedence n' left)
  | 0, _, _, _ => within_outOfBudget _
  | n + 1, n' + 1, left, hn => by
    have hn := Nat.le_of_succ_le_succ hn
    refine within_behind _ fun _ => within_ite (within_behind _ fun _ => ?_) (.refl _)
    exact (within_extend he hn left).bind fun e => within_climb precedence e hn

end

/-- **An expression that ends within its budget ends in the same way with a larger one.** -/
theorem within_expression : ∀ {n n' : Nat} (precedence : Precedence), n ≤ n' →
    Within (expression n precedence) (expression n' precedence)
  | 0, _, _, _ => within_outOfBudget _
  | n + 1, n' + 1, precedence, hn => by
    have hn := Nat.le_of_succ_le_succ hn
    have he (precedence : Precedence) := within_expression precedence hn
    exact .traced _ ((within_operand he hn).bind fun left => within_climb he precedence left hn)

theorem within_statement {n n' : Nat} (hn : n ≤ n') : Within (statement n) (statement n') :=
  within_statementWith fun precedence => within_expression precedence hn

theorem within_program {n n' : Nat} (hn : n ≤ n') : Within (program n) (program n') :=
  within_behind _ fun _ => (within_programStatements (within_statement hn) hn).bind fun _ => .refl _

end Monkey.Parse
