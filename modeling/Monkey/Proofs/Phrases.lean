import Monkey.Parser.Parsed
import Monkey.Proofs.Cursor
/-!
# Every rule reads a phrase

One statement for each rule of the grammar, by induction on the budget.  A rule that has a result has read a phrase, a
rule that finds its input malformed has reported why and has closed no brace that was open at its start, and a rule runs
out of budget only if more tokens lie ahead than the budget allows (`isPhrase_expression`).  A run with `Parser.budget`
therefore always ends with a result or with a diagnostic.
-/
namespace Monkey

namespace Parse

open Monkey.Parser

/-- A rule that reads a phrase from the cursor on, with budget for fewer than `k` tokens ahead. -/
def IsPhrase {α : Type} (k : Nat) (x : Parse α) : Prop :=
  ∀ p, (x p).Holds (fun _ q => p.Phrase 0 q) p.Broken (k ≤ p.ahead.length)

/-- A rule that starts on the last token of a phrase and makes the phrase longer. -/
def Extends {α : Type} (k : Nat) (x : Parse α) : Prop :=
  ∀ s p : Parser, s.Phrase 0 p → (x p).Holds (fun _ q => s.Phrase 0 q ∧ q.ahead.length ≤ p.ahead.length) s.Broken
    (k < p.ahead.length)

theorem holds_traced_phrase {α : Type} {x : Parse α} {rule : Rule} {p : Parser} {X : Prop}
    (hx : (x (p.mark (.enter rule p.cur))).Holds (fun _ q => (p.mark (.enter rule p.cur)).Phrase 0 q)
      (p.mark (.enter rule p.cur)).Broken X) :
    (traced rule x p).Holds (fun _ q => p.Phrase 0 q) p.Broken X :=
  holds_traced hx (fun _ _ h => h.of_mark.mark _) fun _ h => h.of_mark.mark _

theorem holds_skipSemicolon {s p : Parser} {M : Parser → Prop} {X : Prop} (h : s.Phrase 0 p) :
    (skipSemicolon p).Holds (fun _ q => s.Phrase 0 q) M X := by
  rw [skipSemicolon]
  refine holds_peekIs (fun hp => ?_) fun _ => h
  exact h.token hp (by decide) rfl

/-! ## Lists -/

theorem extends_param {k : Nat} : Extends k (do expect .ident; name) := by
  intro s p h
  refine holds_expect (fun _ => h.reaches.broken _) fun hp => ?_
  refine ⟨h.token hp (by decide) rfl, ?_⟩
  rw [ahead_advance, List.length_tail]; omega

theorem holds_moreItems {α : Type} {k : Nat} {item : Parse α} (hi : Extends k item) :
    ∀ (n : Nat) (s p : Parser), s.Phrase 0 p →
      (moreItems item n p).Holds (fun _ q => s.Phrase 0 q ∧ q.ahead.length ≤ p.ahead.length) s.Broken
        (n < p.ahead.length ∨ k < p.ahead.length)
  | 0, _, _, h => Or.inl (List.length_pos_iff.2 h.ahead_ne)
  | n + 1, s, p, h => by
    rw [moreItems]
    refine holds_peekIs (fun hp => ?_) fun _ => ⟨h, Nat.le_refl _⟩
    have hlen : p.advance.ahead.length < p.ahead.length := by
      have := List.length_pos_iff.2 h.ahead_ne
      rw [ahead_advance, List.length_tail]; omega
    rw [advance_bind]
    refine holds_bind (hi s p.advance (h.token hp (by decide) rfl)) (fun _ hb => hb) (fun hx => .inr (by omega))
      fun x q ⟨hq, hqp⟩ => ?_
    refine holds_bind (holds_moreItems hi n s q hq) (fun _ hb => hb) (fun hx => by omega) fun xs r ⟨hr, hrq⟩ => ?_
    exact ⟨hr, by omega⟩

theorem holds_items {α : Type} {k n : Nat} {item : Parse α} (hi : Extends k item) {close : Kind} {s p : Parser}
    (hc : close ≠ .eof) (hb : close.braces = 0) (h : s.Phrase 0 p) :
    (items item close n p).Holds (fun _ q => s.Phrase 0 q) s.Broken (n < p.ahead.length ∨ k < p.ahead.length) := by
  rw [items]
  refine holds_peekIs (fun hp => ?_) fun _ => ?_
  · exact h.token hp hc (by rw [hb]; rfl)
  · refine holds_bind (hi s p h) (fun _ hb => hb) .inr fun x q ⟨hq, hqp⟩ => ?_
    refine holds_bind (holds_moreItems hi n s q hq) (fun _ hb => hb) (fun hx => by omega) fun xs r ⟨hr, hrq⟩ => ?_
    refine holds_expect (fun _ => hr.reaches.broken _) fun hp => ?_
    exact hr.token hp hc (by rw [hb]; rfl)

/-! ## The rules over a rule for expressions -/

section

variable {k n : Nat} (he : ∀ precedence, IsPhrase k (expression k precedence))
include he

theorem extends_advance_expression (precedence : Precedence) :
    Extends k (do advance; expression k precedence) := by
  intro s p h
  have hlen := List.length_pos_iff.2 h.ahead_ne
  rw [advance_bind]
  refine (he precedence p.advance).imp (fun _ q hq => ⟨h.append hq, ?_⟩) (fun q hb => hb.of_reaches h.opens.reaches) ?_
  · have := hq.reaches.length_le
    rw [ahead_advance, List.length_tail] at this; omega
  · intro hx
    rw [ahead_advance, List.length_tail] at hx; omega

/-- An expression behind a phrase makes the phrase longer. -/
theorem holds_expression_behind {α : Type} {f : Expr → Parse α} {D : α → Parser → Prop} {X : Prop} {j : Nat}
    {precedence : Precedence} {s p : Parser} (h : s.Phrase j p) (hX : k ≤ p.advance.ahead.length → X)
    (hf : ∀ e q, s.Phrase j q → q.ahead.length ≤ p.advance.ahead.length → (f e q).Holds D s.Broken X) :
    ((expression k precedence >>= f) p.advance).Holds D s.Broken X :=
  holds_bind (he precedence p.advance) (fun _ hb => hb.of_reaches h.opens.reaches) hX fun e q hq =>
    hf e q (h.append hq) hq.reaches.length_le

/-! ### Statements -/

theorem holds_bindStatement {p : Parser} (hc : p.cur.kind = .letWord) :
    (bindStatement (expression k) p).Holds (fun _ q => p.Phrase 0 q) p.Broken (k ≤ p.ahead.length) := by
  have h : p.Phrase 0 p := .single (by rw [hc]; decide) (by rw [hc]; rfl)
  rw [bindStatement, cur_bind]
  refine holds_expect (fun _ => h.reaches.broken _) fun hp => ?_
  have h := h.token hp (by decide) rfl
  rw [name_bind]
  refine holds_expect (fun _ => h.reaches.broken _) fun hp => ?_
  have h := h.token hp (by decide) rfl
  have hlen := h.length_lt
  rw [advance_bind]
  refine holds_expression_behind he h (fun hx => by omega) fun _ q hq _ => ?_
  refine holds_then (holds_skipSemicolon hq) fun _ r hr => ?_
  exact hr

theorem holds_returnStatement {p : Parser} (hc : p.cur.kind = .returnWord) :
    (returnStatement (expression k) p).Holds (fun _ q => p.Phrase 0 q) p.Broken (k ≤ p.ahead.length) := by
  have h : p.Phrase 0 p := .single (by rw [hc]; decide) (by rw [hc]; rfl)
  have hbare : ∀ s : Stmt, ((skipSemicolon >>= fun _ => pure s) p).Holds (fun _ q => p.Phrase 0 q) p.Broken
      (k ≤ p.ahead.length) := fun s =>
    holds_then (holds_skipSemicolon h) fun _ _ hr => hr
  have hlen := h.length_lt
  rw [returnStatement, cur_bind, peek_bind]
  generalize p.peek.kind = kind
  split
  · exact hbare _
  · exact hbare _
  · exact hbare _
  · rw [advance_bind]
    refine holds_expression_behind he h (fun hx => by omega) fun _ q hq _ => ?_
    refine holds_then (holds_skipSemicolon hq) fun _ r hr => ?_
    exact hr

theorem isPhrase_expressionStatement : IsPhrase k (expressionStatement (expression k)) := by
  intro p
  rw [expressionStatement, cur_bind]
  refine holds_then (he .lowest p) fun _ q hq => ?_
  refine holds_then (holds_skipSemicolon hq) fun _ r hr => ?_
  exact hr

theorem isPhrase_statement : IsPhrase k (statement k) := by
  intro p
  rw [statement, statementWith]
  refine holds_traced_phrase ?_
  rw [cur_bind]
  generalize hk : (p.mark _).cur.kind = kind
  split
  · exact holds_bindStatement he hk
  · exact holds_returnStatement he hk
  · exact isPhrase_expressionStatement he _

/-! ### Blocks -/

/-- The statements of a block that begins at `s`, from a place on where one brace is open. -/
theorem holds_blockStatements : ∀ (n : Nat) (s p : Parser), s.Reaches p → (p.cur.kind ≠ .eof → s.Opens 1 p) →
    (blockStatements (statement k) n p).Holds (fun _ q => s.Phrase 0 q ∧ q.cur.kind = .rbrace) s.Broken
      (n ≤ p.ahead.length ∨ k ≤ p.ahead.length)
  | 0, _, _, _, _ => Or.inl (Nat.zero_le _)
  | n + 1, s, p, hsp, h => by
    rw [blockStatements, cur_bind]
    generalize hk : p.cur.kind = kind at h
    split
    · have h := h (by decide)
      exact ⟨⟨hsp, ahead_ne_of_cur (by rw [hk]; decide), h.advance (by rw [hk]; rfl)⟩, hk⟩
    · exact hsp.broken _
    · rename_i hend
      have h := h hend
      have hlen := List.length_pos_iff.2 (ahead_ne_of_cur (p := p) (by rw [hk]; exact hend))
      rw [look_bind]
      refine holds_attempt (isPhrase_statement he p) .inr (fun _ q _ hq => ?_) fun r hrun hr => ?_
      · have hqlen := hq.length_lt
        have hrest := h.trans hq.opens
        dsimp only
        rw [advance_bind]
        refine holds_bind (holds_blockStatements n s q.advance hrest.reaches fun _ => hrest) (fun _ hb => hb)
          (fun hx => by omega) fun _ t ht => ?_
        exact ht
      · have hpr := hr.reaches.resume
        have hrlen := hpr.length_le
        dsimp only
        rw [resume_bind, cur_bind]
        by_cases hc : (r.resume p.depth).cur.kind = .rbrace
        · rw [if_pos hc]
          exact ⟨⟨h.reaches.trans hpr, ahead_ne_of_cur (by rw [hc]; decide), h.resume_rbrace hr.reaches hrun hc⟩, hc⟩
        · have hadv : p.Reaches (r.resume p.depth).advance := hpr.advance fun h => absurd h hc
          rw [if_neg hc, advance_bind]
          refine (holds_blockStatements n s _ (h.reaches.trans hadv) fun he => h.resume hr.reaches hc he).imp
            (fun _ _ ht => ht) (fun _ hb => hb) fun hx => ?_
          rw [ahead_advance, List.length_tail] at hx
          omega

theorem holds_block {p : Parser} (hc : p.cur.kind = .lbrace) :
    (block (statement k) n p).Holds (fun _ q => p.Phrase 0 q ∧ q.cur.kind = .rbrace) p.Broken
      (n < p.ahead.length ∨ k < p.ahead.length) := by
  have h : p.Phrase 1 p := .single (by rw [hc]; decide) (by rw [hc]; rfl)
  have hlen := h.length_lt
  rw [block, cur_bind, advance_bind]
  refine holds_bind (holds_blockStatements he n p p.advance h.opens.reaches fun _ => h.opens) (fun _ hb => hb)
    (fun hx => by omega) fun _ q hq => ?_
  exact hq

/-! ### Operands -/

theorem holds_unary {p : Parser} (hc : p.cur.kind ≠ .eof) (hb : p.cur.kind.braces = 0) (op : UnaryOp) :
    (unary (expression k) op p).Holds (fun _ q => p.Phrase 0 q) p.Broken (k < p.ahead.length) := by
  rw [unary]
  refine holds_traced_phrase ?_
  have h := Phrase.single (k := 0) (p := p.mark (.enter .unary p.cur)) hc hb
  have hlen := h.length_lt
  rw [cur_bind, advance_bind]
  exact holds_expression_behind he h (fun hx => Nat.lt_of_le_of_lt hx hlen) fun _ q hq _ => hq

theorem holds_grouped {p : Parser} (h : p.Phrase 0 p) :
    (grouped (expression k) p).Holds (fun _ q => p.Phrase 0 q) p.Broken (k < p.ahead.length) := by
  have hlen := h.length_lt
  rw [grouped, advance_bind]
  refine holds_expression_behind he h (fun hx => by omega) fun _ q h _ => ?_
  refine holds_expect (fun _ => h.reaches.broken _) fun hp => ?_
  exact h.token hp (by decide) rfl

/-- A block behind a phrase. -/
theorem holds_block_behind {s p : Parser} (h : s.Phrase 0 p) (hc : p.peek.kind = .lbrace) :
    (block (statement k) n p.advance).Holds (fun _ q => s.Phrase 0 q) s.Broken
      (n < s.ahead.length ∨ k < s.ahead.length) := by
  have hlen := h.length_lt
  exact (holds_block he (p := p.advance) hc).imp (fun _ _ hq => h.append hq.1)
    (fun _ hb => hb.of_reaches h.opens.reaches) (fun hx => by omega)

theorem holds_cond {p : Parser} (h : p.Phrase 0 p) :
    (Parse.cond (expression k) n p).Holds (fun _ q => p.Phrase 0 q) p.Broken
      (n < p.ahead.length ∨ k < p.ahead.length) := by
  rw [Parse.cond, cur_bind]
  refine holds_expect (fun _ => h.reaches.broken _) fun hp => ?_
  have h := h.token hp (by decide) rfl
  have hlen := h.length_lt
  rw [advance_bind]
  refine holds_expression_behind he h (fun hx => by omega) fun _ q h _ => ?_
  refine holds_expect (fun _ => h.reaches.broken _) fun hp => ?_
  have h := h.token hp (by decide) rfl
  refine holds_expect (fun _ => h.reaches.broken _) fun hp => ?_
  refine holds_then (holds_block_behind he h hp) fun _ r hr => ?_
  refine holds_peekIs (fun hp => ?_) fun _ => hr
  have h := hr.token hp (by decide) rfl
  rw [advance_bind]
  refine holds_expect (fun _ => h.reaches.broken _) fun hp => ?_
  refine holds_then (holds_block_behind he h hp) fun _ t ht => ?_
  exact ht

theorem holds_fn {p : Parser} (h : p.Phrase 0 p) :
    (fn (expression k) n p).Holds (fun _ q => p.Phrase 0 q) p.Broken (n < p.ahead.length ∨ k < p.ahead.length) := by
  rw [fn, cur_bind]
  refine holds_expect (fun _ => h.reaches.broken _) fun hp => ?_
  have h := h.token hp (by decide) rfl
  have hlen := h.reaches.length_le
  refine holds_bind (holds_items (extends_param (k := k)) (by decide) rfl h) (fun _ hb => hb) (fun hx => by omega)
    fun _ q hq => ?_
  refine holds_expect (fun _ => hq.reaches.broken _) fun hp => ?_
  refine holds_then (holds_block_behind he hq hp) fun _ r hr => ?_
  exact hr

theorem holds_expressions {p : Parser} {close : Kind} (hc : close ≠ .eof) (hb : close.braces = 0) (h : p.Phrase 0 p) :
    (expressions (expression k) close n p).Holds (fun _ q => p.Phrase 0 q) p.Broken
      (n < p.ahead.length ∨ k < p.ahead.length) :=
  holds_items (extends_advance_expression he .lowest) hc hb h

theorem holds_array {p : Parser} (h : p.Phrase 0 p) :
    (array (expression k) n p).Holds (fun _ q => p.Phrase 0 q) p.Broken (n < p.ahead.length ∨ k < p.ahead.length) := by
  rw [array, cur_bind]
  exact holds_then (holds_expressions he (by decide) rfl h) fun _ q hq => hq

theorem holds_hashPairs : ∀ (n : Nat) (s p : Parser), s.Phrase 1 p →
    (hashPairs (expression k) n p).Holds (fun _ q => s.Phrase 1 q) s.Broken (n < p.ahead.length ∨ k < p.ahead.length)
  | 0, _, _, h => Or.inl (List.length_pos_iff.2 h.ahead_ne)
  | n + 1, s, p, h => by
    have hlen := List.length_pos_iff.2 h.ahead_ne
    rw [hashPairs]
    refine holds_peekIs (fun _ => h) fun _ => ?_
    rw [advance_bind]
    have hpadv : p.advance.ahead.length = p.ahead.length - 1 := by rw [ahead_advance, List.length_tail]
    refine holds_expression_behind he h (fun hx => by omega) fun _ q h hqp => ?_
    have hqadv : q.advance.advance.ahead.length = q.ahead.length - 1 - 1 := by
      rw [ahead_advance, ahead_advance, List.length_tail, List.length_tail]
    have hqlen := List.length_pos_iff.2 h.ahead_ne
    refine holds_expect (fun _ => h.reaches.broken _) fun hp => ?_
    have h := h.token hp (by decide) rfl
    rw [advance_bind]
    refine holds_expression_behind he h (fun hx => by omega) fun _ r h hrq => ?_
    have hrest : ∀ (pair : Expr × Expr) (t : Parser), s.Phrase 1 t → t.ahead.length ≤ r.ahead.length →
        ((hashPairs (expression k) n >>= fun rest => pure (pair :: rest)) t).Holds (fun _ q => s.Phrase 1 q) s.Broken
          (n + 1 < p.ahead.length ∨ k < p.ahead.length) := fun pair t ht htr =>
      holds_bind (holds_hashPairs n s t ht) (fun _ hb => hb) (fun hx => by omega) fun _ _ hu => hu
    refine holds_peekIs_bind (fun _ => ?_) fun _ => ?_
    · exact hrest _ r h (Nat.le_refl _)
    · refine holds_expect (fun _ => h.reaches.broken _) fun hp => ?_
      exact hrest _ r.advance (h.token hp (by decide) rfl) (by rw [ahead_advance, List.length_tail]; omega)

theorem holds_hash {p : Parser} (hc : p.cur.kind = .lbrace) :
    (hash (expression k) n p).Holds (fun _ q => p.Phrase 0 q) p.Broken (n < p.ahead.length ∨ k < p.ahead.length) := by
  have h : p.Phrase 1 p := .single (by rw [hc]; decide) (by rw [hc]; rfl)
  rw [hash, cur_bind]
  refine holds_then (holds_hashPairs he n p p h) fun _ q hq => ?_
  refine holds_expect (fun _ => hq.reaches.broken _) fun hp => ?_
  exact hq.token hp (by decide) rfl

theorem holds_operand (p : Parser) :
    (operand (expression k) k p).Holds (fun _ q => p.Phrase 0 q) p.Broken (k < p.ahead.length) := by
  have hx : ∀ {α : Type} {o : Outcome α}, o.Holds (fun _ q => p.Phrase 0 q) p.Broken
      (k < p.ahead.length ∨ k < p.ahead.length) → o.Holds (fun _ q => p.Phrase 0 q) p.Broken (k < p.ahead.length) :=
    fun h => h.imp (fun _ _ h => h) (fun _ h => h) fun h => h.elim id id
  have single : ∀ {kind : Kind}, p.cur.kind = kind → kind ≠ .eof → kind.braces = 0 → p.Phrase 0 p :=
    fun hk he hb => .single (hk ▸ he) (by rw [hk, hb]; rfl)
  rw [operand, cur_bind]
  generalize hk : p.cur.kind = kind
  split
  · exact single hk (by decide) rfl
  · rw [integer, cur_bind]
    generalize integer? p.cur.literal = value?
    split
    · exact single hk (by decide) rfl
    · exact (Reaches.refl p).broken _
  · exact single hk (by decide) rfl
  · exact single hk (by decide) rfl
  · exact single hk (by decide) rfl
  · exact holds_unary he (by rw [hk]; decide) (by rw [hk]; rfl) _
  · exact holds_unary he (by rw [hk]; decide) (by rw [hk]; rfl) _
  · exact holds_grouped he (single hk (by decide) rfl)
  · exact hx (holds_cond he (single hk (by decide) rfl))
  · exact hx (holds_fn he (single hk (by decide) rfl))
  · exact hx (holds_array he (single hk (by decide) rfl))
  · exact hx (holds_hash he hk)
  · exact (Reaches.refl p).broken _

/-! ### Operators -/

theorem holds_binary {p : Parser} (hc : p.cur.kind ≠ .eof) (hb : p.cur.kind.braces = 0) (op : BinaryOp) (left : Expr) :
    (binary (expression k) op left p).Holds (fun _ q => p.Phrase 0 q) p.Broken (k < p.ahead.length) := by
  rw [binary]
  refine holds_traced_phrase ?_
  have h := Phrase.single (k := 0) (p := p.mark (.enter .binary p.cur)) hc hb
  have hlen := h.length_lt
  rw [cur_bind, advance_bind]
  exact holds_expression_behind he h (fun hx => Nat.lt_of_le_of_lt hx hlen) fun _ q hq _ => hq

theorem holds_index {p : Parser} (h : p.Phrase 0 p) (left : Expr) :
    (index (expression k) left p).Holds (fun _ q => p.Phrase 0 q) p.Broken (k < p.ahead.length) := by
  have hlen := h.length_lt
  rw [index, cur_bind, advance_bind]
  refine holds_expression_behind he h (fun hx => by omega) fun _ q h _ => ?_
  refine holds_expect (fun _ => h.reaches.broken _) fun hp => ?_
  exact h.token hp (by decide) rfl

theorem holds_extend {p : Parser} (hc : p.cur.kind ≠ .eof) (hb : p.cur.kind.braces = 0) (left : Expr) :
    (extend (expression k) n left p).Holds (fun _ q => p.Phrase 0 q) p.Broken
      (n < p.ahead.length ∨ k < p.ahead.length) := by
  have h : p.Phrase 0 p := .single hc hb
  rw [extend, cur_bind]
  generalize p.cur.kind = kind
  split
  · rw [call, cur_bind]
    exact holds_then (holds_expressions he (by decide) rfl h) fun _ q hq => hq
  · exact (holds_index he h left).imp (fun _ _ h => h) (fun _ h => h) .inr
  · generalize BinaryOp.ofKind? kind = op?
    split
    · exact (holds_binary he hc hb _ left).imp (fun _ _ h => h) (fun _ h => h) .inr
    · exact h

theorem holds_climb (precedence : Precedence) : ∀ (n : Nat) (s p : Parser) (left : Expr), s.Phrase 0 p →
    (climb (expression k) precedence n left p).Holds (fun _ q => s.Phrase 0 q) s.Broken
      (n < p.ahead.length ∨ k < p.ahead.length)
  | 0, _, _, _, h => Or.inl (List.length_pos_iff.2 h.ahead_ne)
  | n + 1, s, p, left, h => by
    have hlen := List.length_pos_iff.2 h.ahead_ne
    have hadv : p.advance.ahead.length = p.ahead.length - 1 := by rw [ahead_advance, List.length_tail]
    rw [climb, peek_bind]
    by_cases hlt : precedence.rank < p.peek.kind.precedence.rank
    · obtain ⟨hb, hend, -⟩ := Kind.operator_of_rank hlt
      rw [if_pos hlt, advance_bind]
      refine holds_bind (holds_extend he (p := p.advance) hend hb left) (fun q hb => hb.of_reaches h.opens.reaches)
        (fun hx => by omega) fun e q hq => ?_
      have hqlen := hq.reaches.length_le
      refine (holds_climb precedence n s q e (h.append hq)).imp (fun _ _ hr => hr) (fun _ hb => hb) fun hx => ?_
      omega
    · rw [if_neg hlt]
      exact h

end

/-- **Every expression is a phrase.** -/
theorem isPhrase_expression : ∀ (k : Nat) (precedence : Precedence), IsPhrase k (expression k precedence)
  | 0, _ => fun _ => Nat.zero_le _
  | k + 1, precedence => fun p => by
    rw [expression]
    refine holds_traced_phrase ?_
    have he := isPhrase_expression k
    refine holds_bind (holds_operand he _) (fun _ hb => hb) (fun hx => hx) fun left q hq => ?_
    have hqlen : q.ahead.length ≤ p.ahead.length := hq.reaches.length_le
    refine (holds_climb he precedence k _ q left hq).imp (fun _ _ hr => hr) (fun _ hb => hb) fun hx => ?_
    show k + 1 ≤ p.ahead.length
    omega

theorem isPhrase_statement_all (k : Nat) : IsPhrase k (statement k) := isPhrase_statement (isPhrase_expression k)

/-! ## Whole texts -/

/-- The statements of a whole text are read to its end, whatever is wrong with them. -/
theorem holds_programStatements {k : Nat} : ∀ (n : Nat) (p : Parser),
    (programStatements (statement k) n p).Holds
      (fun _ q => q.cur.kind = .eof ∧ p.diagnostics.length ≤ q.diagnostics.length) (fun _ => False)
      (n ≤ p.ahead.length ∨ k ≤ p.ahead.length)
  | 0, _ => Or.inl (Nat.zero_le _)
  | n + 1, p => by
    rw [programStatements, cur_bind]
    by_cases hend : p.cur.kind = .eof
    · rw [if_pos hend]
      exact ⟨hend, Nat.le_refl _⟩
    · have hlen := List.length_pos_iff.2 (ahead_ne_of_cur hend)
      rw [if_neg hend, look_bind]
      refine holds_attempt (isPhrase_statement_all k p) .inr (fun _ q _ hq => ?_) fun r _ hr => ?_
      · have hqlen := hq.length_lt
        have hcount := hq.reaches.count_le
        dsimp only
        rw [advance_bind]
        refine holds_bind (holds_programStatements n q.advance) (fun _ hb => hb) (fun hx => by omega) fun _ t ht => ?_
        exact ⟨ht.1, Nat.le_trans hcount ht.2⟩
      · have hpr := hr.reaches.resume
        have hrlen := hpr.length_le
        have hcount := hpr.count_le
        dsimp only
        rw [resume_bind, advance_bind]
        refine (holds_programStatements n _).imp (fun _ t ht => ⟨ht.1, Nat.le_trans hcount ht.2⟩) (fun _ hb => hb)
          fun hx => ?_
        rw [ahead_advance, List.length_tail] at hx
        omega

/-- **With its budget, the parser always reads a text to its end.** -/
theorem program_budget (p : Parser) :
    ∃ statements q, programStatements (statement p.budget) p.budget p = .done statements q ∧ q.cur.kind = .eof ∧
      program p.budget p = .done ⟨p.cur, statements⟩ q := by
  have h := holds_programStatements (k := p.budget) p.budget p
  cases hrun : programStatements (statement p.budget) p.budget p with
  | done statements q =>
    rw [hrun] at h
    refine ⟨statements, q, rfl, h.1, ?_⟩
    rw [program, cur_bind]
    exact bind_eq_done.2 ⟨statements, q, hrun, rfl⟩
  | malformed q => rw [hrun] at h; exact h.elim
  | exhausted =>
    rw [hrun] at h
    have : p.budget ≤ p.ahead.length ∨ p.budget ≤ p.ahead.length := h
    unfold Parser.budget at this
    omega

end Parse

/-- What parsing gives is what the run of the parser leaves. -/
theorem Parsed.ofStream_eq (s : TokenStream) :
    ∃ statements q, Parse.programStatements (Parse.statement (Parser.ofStream s).budget) (Parser.ofStream s).budget
      (.ofStream s) = .done statements q ∧ q.cur.kind = .eof ∧
      Parsed.ofStream s = ⟨⟨(Parser.ofStream s).cur, statements⟩, q.diagnostics, q.marks.reverse⟩ := by
  obtain ⟨statements, q, hrun, hend, hprogram⟩ := Parse.program_budget (.ofStream s)
  refine ⟨statements, q, hrun, hend, ?_⟩
  simp only [Parsed.ofStream, Parser.run, hprogram, Option.getD_some]

end Monkey
