import Monkey.Proofs.Phrases
/-!
# One diagnostic for each dropped statement

A rule that finds its input malformed has recorded one diagnostic beyond those of the statements dropped inside it, and
a rule with a result none (`Parse.Tallied`).  A statement without a result leaves a mark of its own in the trace, so
that with this mark counted it has no diagnostic to spare, and the loops over statements, the one place where malformed
input is let pass, go on with the books in balance.
-/
namespace Monkey

/-- Whether a mark is the end of a statement without a result. -/
def Mark.isDrop : Mark → Bool
  | leave .statement false => true
  | _ => false

namespace Parser

/-- On the way from `p` to `q` one diagnostic is recorded for each statement dropped, and `k` more. -/
def Tallies (k : Nat) (p q : Parser) : Prop :=
  ∃ ms ds, q.marks = ms ++ p.marks ∧ q.diagnostics = p.diagnostics ++ ds ∧ ds.length = ms.countP Mark.isDrop + k

/-- A statement is read from `p` to `q`: between the mark where it begins and the mark where it ends, one diagnostic is
recorded for each statement dropped inside its own blocks, and `k` more. -/
def TalliesStatement (accepted : Bool) (k : Nat) (p q : Parser) : Prop :=
  ∃ inner ds, q.marks = .leave .statement accepted :: (inner ++ .enter .statement p.cur :: p.marks) ∧
    q.diagnostics = p.diagnostics ++ ds ∧ ds.length = inner.countP Mark.isDrop + k

theorem Tallies.refl (p : Parser) : p.Tallies 0 p := ⟨[], [], rfl, by simp, rfl⟩

theorem Tallies.trans {k : Nat} {p q r : Parser} (h : p.Tallies 0 q) (h' : q.Tallies k r) : p.Tallies k r := by
  obtain ⟨ms, ds, hm, hd, hlen⟩ := h
  obtain ⟨ms', ds', hm', hd', hlen'⟩ := h'
  refine ⟨ms' ++ ms, ds ++ ds', by rw [hm', hm, List.append_assoc], by rw [hd', hd, List.append_assoc], ?_⟩
  rw [List.length_append, List.countP_append]
  omega

theorem tallies_advance (p : Parser) : p.Tallies 0 p.advance := ⟨[], [], rfl, by simp, rfl⟩

theorem tallies_report (p : Parser) (d : Diagnostic) : p.Tallies 1 (p.report d) := ⟨[], [d], rfl, rfl, rfl⟩

theorem tallies_resumeWithin : ∀ (n : Nat) (p : Parser) (depth : Int), p.Tallies 0 (resumeWithin n p depth)
  | 0, p, _ => .refl p
  | n + 1, p, depth => by
    rw [resumeWithin]
    split
    · exact .refl p
    · exact (tallies_advance p).trans (tallies_resumeWithin n p.advance depth)

/-- The marks around a rule that is no statement count for nothing. -/
theorem Tallies.traced {rule : Rule} (hrule : rule ≠ .statement) (accepted : Bool) {k : Nat} {p q : Parser}
    (h : (p.mark (.enter rule p.cur)).Tallies k q) : p.Tallies k (q.mark (.leave rule accepted)) := by
  obtain ⟨ms, ds, hm, hd, hlen⟩ := h
  refine ⟨.leave rule accepted :: (ms ++ [.enter rule p.cur]), ds, ?_, hd, ?_⟩
  · show _ :: q.marks = _
    rw [hm]
    simp [Parser.mark]
  · cases rule <;> simp [hlen, Mark.isDrop] at hrule ⊢

theorem Tallies.statement (accepted : Bool) {k : Nat} {p q : Parser}
    (h : (p.mark (.enter .statement p.cur)).Tallies k q) :
    p.TalliesStatement accepted k (q.mark (.leave .statement accepted)) := by
  obtain ⟨ms, ds, hm, hd, hlen⟩ := h
  exact ⟨ms, ds, congrArg (_ :: ·) hm, hd, hlen⟩

/-- With its own end counted, a statement has no diagnostic to spare. -/
theorem TalliesStatement.tallies {accepted : Bool} {p q : Parser}
    (h : p.TalliesStatement accepted (if accepted then 0 else 1) q) : p.Tallies 0 q := by
  obtain ⟨inner, ds, hm, hd, hlen⟩ := h
  refine ⟨.leave .statement accepted :: (inner ++ [.enter .statement p.cur]), ds, by rw [hm]; simp, hd, ?_⟩
  cases accepted <;> simp [hlen, List.countP_cons, Mark.isDrop]

end Parser

namespace Parse

open Monkey.Parser

/-- A rule that records one diagnostic for each statement dropped inside it, and one more if its input is malformed. -/
def Tallied {α : Type} (x : Parse α) : Prop := ∀ p, (x p).Holds (fun _ q => p.Tallies 0 q) (p.Tallies 1) True

section

variable {α β : Type} {x : Parse α}

theorem Tallied.bind {f : α → Parse β} (hx : Tallied x) (hf : ∀ a, Tallied (f a)) : Tallied (x >>= f) := fun p =>
  holds_then (hx p) fun a q hq => (hf a q).imp (fun _ _ h => hq.trans h) (fun _ h => hq.trans h) id

theorem Tallied.traced {rule : Rule} (hrule : rule ≠ .statement) (hx : Tallied x) : Tallied (traced rule x) := fun _ =>
  holds_traced (hx _) (fun _ _ h => h.traced hrule true) fun _ h => h.traced hrule false

theorem tallied_pure (a : α) : Tallied (pure a) := fun p => .refl p

theorem tallied_look (f : Parser → α) : Tallied (look f) := fun p => .refl p

theorem tallied_cur : Tallied cur := tallied_look _

theorem tallied_peek : Tallied peek := tallied_look _

theorem tallied_peekIs (kind : Kind) : Tallied (peekIs kind) := tallied_look _

theorem tallied_name : Tallied name := tallied_look _

theorem tallied_advance : Tallied advance := fun p => tallies_advance p

theorem tallied_resume (depth : Int) : Tallied (resume depth) := fun p => tallies_resumeWithin _ p depth

theorem tallied_refuse (d : Diagnostic) : Tallied (refuse d : Parse α) := fun p => tallies_report p d

theorem tallied_outOfBudget : Tallied (outOfBudget : Parse α) := fun _ => trivial

theorem tallied_expect (kind : Kind) : Tallied (expect kind) := by
  intro p
  unfold expect
  split
  · exact tallies_advance p
  · exact tallies_report p _

theorem tallied_ite {c : Prop} [Decidable c] {y : Parse α} (hx : Tallied x) (hy : Tallied y) :
    Tallied (if c then x else y) := by
  split
  · exact hx
  · exact hy

theorem tallied_skipSemicolon : Tallied skipSemicolon :=
  (tallied_peekIs _).bind fun _ => tallied_ite tallied_advance (tallied_pure _)

theorem tallied_integer : Tallied integer := by
  refine tallied_cur.bind fun token => ?_
  split
  · exact tallied_pure _
  · exact tallied_refuse _

/-! ## Lists -/

theorem tallied_moreItems (hx : Tallied x) : ∀ n, Tallied (moreItems x n)
  | 0 => tallied_outOfBudget
  | n + 1 => (tallied_peekIs _).bind fun _ => tallied_ite
    (tallied_advance.bind fun _ => hx.bind fun _ => (tallied_moreItems hx n).bind fun _ => tallied_pure _)
    (tallied_pure _)

theorem tallied_items (hx : Tallied x) (close : Kind) (n : Nat) : Tallied (items x close n) :=
  (tallied_peekIs _).bind fun _ => tallied_ite
    (tallied_advance.bind fun _ => tallied_pure _)
    (hx.bind fun _ => (tallied_moreItems hx n).bind fun _ => (tallied_expect _).bind fun _ => tallied_pure _)

end

/-! ## Statements and blocks -/

/-- A rule for statements, whose own end is marked. -/
def TalliedStatement (stmt : Parse Stmt) : Prop :=
  ∀ p, (stmt p).Holds (fun _ q => p.TalliesStatement true 0 q) (p.TalliesStatement false 1) True

theorem TalliedStatement.attempt {stmt : Parse Stmt} (h : TalliedStatement stmt) : Tallied (attempt stmt) := by
  intro p
  have hp := h p
  unfold Parse.attempt
  cases hrun : stmt p with
  | done s q => rw [hrun] at hp; exact TalliesStatement.tallies hp
  | malformed q => rw [hrun] at hp; exact TalliesStatement.tallies hp
  | exhausted => trivial

section

variable {stmt : Parse Stmt} (hs : TalliedStatement stmt)
include hs

theorem tallied_blockStatements : ∀ n, Tallied (blockStatements stmt n)
  | 0 => tallied_outOfBudget
  | n + 1 => by
    refine tallied_cur.bind fun token => ?_
    split
    · exact tallied_pure _
    · exact tallied_refuse _
    · refine (tallied_look _).bind fun depth => hs.attempt.bind fun s? => ?_
      cases s? with
      | some s => exact tallied_advance.bind fun _ => (tallied_blockStatements n).bind fun _ => tallied_pure _
      | none =>
        exact (tallied_resume _).bind fun _ => tallied_cur.bind fun _ =>
          tallied_ite (tallied_pure _) (tallied_advance.bind fun _ => tallied_blockStatements n)

theorem tallied_block (n : Nat) : Tallied (block stmt n) :=
  tallied_cur.bind fun _ => tallied_advance.bind fun _ => (tallied_blockStatements hs n).bind fun _ => tallied_pure _

theorem tallied_programStatements : ∀ n, Tallied (programStatements stmt n)
  | 0 => tallied_outOfBudget
  | n + 1 => by
    refine tallied_cur.bind fun token => tallied_ite (tallied_pure _) ?_
    refine (tallied_look _).bind fun depth => hs.attempt.bind fun s? => ?_
    cases s? with
    | some s => exact tallied_advance.bind fun _ => (tallied_programStatements n).bind fun _ => tallied_pure _
    | none => exact (tallied_resume _).bind fun _ => tallied_advance.bind fun _ => tallied_programStatements n

end

/-! ## The rules over a rule for expressions -/

section

variable {expr : Precedence → Parse Expr} (he : ∀ precedence, Tallied (expr precedence))
include he

theorem tallied_bindStatement : Tallied (bindStatement expr) :=
  tallied_cur.bind fun _ => (tallied_expect _).bind fun _ => tallied_name.bind fun _ => (tallied_expect _).bind fun _ =>
    tallied_advance.bind fun _ => (he _).bind fun _ => tallied_skipSemicolon.bind fun _ => tallied_pure _

theorem tallied_returnStatement : Tallied (returnStatement expr) := by
  have hbare : ∀ s : Stmt, Tallied (skipSemicolon >>= fun _ => pure s) := fun _ =>
    tallied_skipSemicolon.bind fun _ => tallied_pure _
  refine tallied_cur.bind fun _ => tallied_peek.bind fun token => ?_
  split
  · exact hbare _
  · exact hbare _
  · exact hbare _
  · exact tallied_advance.bind fun _ => (he _).bind fun _ => hbare _

theorem tallied_expressionStatement : Tallied (expressionStatement expr) :=
  tallied_cur.bind fun _ => (he _).bind fun _ => tallied_skipSemicolon.bind fun _ => tallied_pure _

theorem talliedStatement_statementWith : TalliedStatement (statementWith expr) := by
  intro p
  refine holds_traced (C := fun _ q => Tallies 0 _ q) (N := Tallies 1 _) ?_ (fun _ _ h => h.statement true)
    fun _ h => h.statement false
  refine (tallied_cur.bind fun token => ?_) _
  split
  · exact tallied_bindStatement he
  · exact tallied_returnStatement he
  · exact tallied_expressionStatement he

theorem tallied_unary (op : UnaryOp) : Tallied (unary expr op) :=
  .traced (by decide) <| tallied_cur.bind fun _ => tallied_advance.bind fun _ => (he _).bind fun _ => tallied_pure _

theorem tallied_grouped : Tallied (grouped expr) :=
  tallied_advance.bind fun _ => (he _).bind fun _ => (tallied_expect _).bind fun _ => tallied_pure _

theorem tallied_cond (n : Nat) : Tallied (Parse.cond expr n) := by
  have hblock := tallied_block (talliedStatement_statementWith he) n
  refine tallied_cur.bind fun _ => (tallied_expect _).bind fun _ => tallied_advance.bind fun _ => ?_
  refine (he _).bind fun _ => (tallied_expect _).bind fun _ => (tallied_expect _).bind fun _ => hblock.bind fun _ => ?_
  refine (tallied_peekIs _).bind fun _ => tallied_ite ?_ (tallied_pure _)
  exact tallied_advance.bind fun _ => (tallied_expect _).bind fun _ => hblock.bind fun _ => tallied_pure _

theorem tallied_fn (n : Nat) : Tallied (fn expr n) := by
  have hparam : Tallied (do expect .ident; name) := (tallied_expect _).bind fun _ => tallied_name
  refine tallied_cur.bind fun _ => (tallied_expect _).bind fun _ => (tallied_items hparam _ n).bind fun _ => ?_
  exact (tallied_expect _).bind fun _ => (tallied_block (talliedStatement_statementWith he) n).bind fun _ =>
    tallied_pure _

theorem tallied_expressions (close : Kind) (n : Nat) : Tallied (expressions expr close n) :=
  tallied_items (tallied_advance.bind fun _ => he _) close n

theorem tallied_array (n : Nat) : Tallied (array expr n) :=
  tallied_cur.bind fun _ => (tallied_expressions he _ n).bind fun _ => tallied_pure _

theorem tallied_hashPairs : ∀ n, Tallied (hashPairs expr n)
  | 0 => tallied_outOfBudget
  | n + 1 => by
    have hrest : ∀ pair : Expr × Expr, Tallied (hashPairs expr n >>= fun rest => pure (pair :: rest)) := fun _ =>
      (tallied_hashPairs n).bind fun _ => tallied_pure _
    refine (tallied_peekIs _).bind fun _ => tallied_ite (tallied_pure _) ?_
    refine tallied_advance.bind fun _ => (he _).bind fun _ => (tallied_expect _).bind fun _ => ?_
    refine tallied_advance.bind fun _ => (he _).bind fun _ => (tallied_peekIs _).bind fun _ => ?_
    exact tallied_ite ((tallied_expect _).bind fun _ => hrest _) (hrest _)

theorem tallied_hash (n : Nat) : Tallied (hash expr n) :=
  tallied_cur.bind fun _ => (tallied_hashPairs he n).bind fun _ => (tallied_expect _).bind fun _ => tallied_pure _

theorem tallied_operand (n : Nat) : Tallied (operand expr n) := by
  refine tallied_cur.bind fun token => ?_
  split
  · exact tallied_pure _
  · exact tallied_integer
  · exact tallied_pure _
  · exact tallied_pure _
  · exact tallied_pure _
  · exact tallied_unary he _
  · exact tallied_unary he _
  · exact tallied_grouped he
  · exact tallied_cond he n
  · exact tallied_fn he n
  · exact tallied_array he n
  · exact tallied_hash he n
  · exact tallied_refuse _

theorem tallied_binary (op : BinaryOp) (left : Expr) : Tallied (binary expr op left) :=
  .traced (by decide) <| tallied_cur.bind fun _ => tallied_advance.bind fun _ => (he _).bind fun _ => tallied_pure _

theorem tallied_call (n : Nat) (callee : Expr) : Tallied (call expr n callee) :=
  tallied_cur.bind fun _ => (tallied_expressions he _ n).bind fun _ => tallied_pure _

theorem tallied_index (left : Expr) : Tallied (index expr left) :=
  tallied_cur.bind fun _ => tallied_advance.bind fun _ => (he _).bind fun _ => (tallied_expect _).bind fun _ =>
    tallied_pure _

theorem tallied_extend (n : Nat) (left : Expr) : Tallied (extend expr n left) := by
  refine tallied_cur.bind fun token => ?_
  dsimp only
  split
  · exact tallied_call he n left
  · exact tallied_index he left
  · split
    · exact tallied_binary he _ left
    · exact tallied_pure _

theorem tallied_climb (precedence : Precedence) : ∀ n left, Tallied (climb expr precedence n left)
  | 0, _ => tallied_outOfBudget
  | n + 1, left => tallied_peek.bind fun _ => tallied_ite
    (tallied_advance.bind fun _ => (tallied_extend he n left).bind fun e => tallied_climb precedence n e)
    (tallied_pure _)

end

theorem tallied_expression : ∀ n precedence, Tallied (expression n precedence)
  | 0, _ => tallied_outOfBudget
  | n + 1, precedence => by
    have he := tallied_expression n
    refine .traced (by simp) ?_
    exact (tallied_operand he n).bind fun left => tallied_climb he precedence n left

theorem talliedStatement_statement (n : Nat) : TalliedStatement (statement n) :=
  talliedStatement_statementWith (tallied_expression n)

end Parse

/-- **One diagnostic for each dropped statement**: the diagnostics of a text are as many as its dropped statements, so
there is none exactly when no statement was dropped; and any statement, wherever it is read, adds one beyond those of
the statements dropped inside its own blocks if it is dropped itself, and none if it is not. -/
theorem Parsed.one_diagnostic_for_each_drop :
    (∀ s : TokenStream,
      (Parsed.ofStream s).diagnostics.length = (Parsed.ofStream s).marks.countP Mark.isDrop ∧
        ((Parsed.ofStream s).diagnostics = [] ↔ ∀ m ∈ (Parsed.ofStream s).marks, m.isDrop = false)) ∧
      ∀ (n : Nat) (p : Parser), (Parse.statement n p).Holds (fun _ q => p.TalliesStatement true 0 q)
        (fun q => p.TalliesStatement false 1 q) (n ≤ p.ahead.length) := by
  refine ⟨fun s => ?_, fun n p => ?_⟩
  · obtain ⟨statements, q, hrun, -, hs⟩ := Parsed.ofStream_eq s
    obtain ⟨ms, ds, hm, hd, hlen⟩ :=
      (Parse.tallied_programStatements (Parse.talliedStatement_statement _) _ _).of_done hrun
    have hcount : q.diagnostics.length = q.marks.reverse.countP Mark.isDrop := by
      rw [List.countP_reverse, hm, hd]
      simpa [Parser.ofStream] using hlen
    rw [hs]
    refine ⟨hcount, ?_⟩
    rw [← List.length_eq_zero_iff, hcount, List.countP_eq_zero]
    simp
  · exact ((Parse.talliedStatement_statement n p).and (Parse.isPhrase_statement_all n p)).imp (fun _ _ h => h.1)
      (fun _ h => h.1) fun h => h.2

/-- The `let`, the array inside the inner block, and the conditional around both, whose block is never closed. -/
example : (parse "if (a) \x7b let = 1; if (b) \x7b [1 \x7d").diagnostics =
    [.expected .ident .assign, .expected .rbracket .rbrace, .expected .rbrace .eof] := by decide +kernel

end Monkey
