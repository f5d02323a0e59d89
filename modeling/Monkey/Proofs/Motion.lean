import Monkey.Proofs.Phrases
/-!
# Rules from any place

What a rule does when it is asked for somewhere in the tokens, whether or not its phrase begins there.  A relation that
every move of a parser keeps (`Parser.Law`) holds between the parser before a rule and the parser behind it, however the
rule ends; and since each repetition of a loop leaves a token behind, a rule runs out of budget only if more tokens lie
ahead than the budget allows (`Parse.Proceeds`).  A diagnostic is recorded only where what it says is the case
(`Diagnostic.FoundAt`).  The first of these relations is the way of the cursor itself, `Parser.Moves`.
-/
namespace Monkey

/-- What a rule finds wrong where the cursor is: the next token is not the one that is wanted, a block has no end, no
operand begins with the token under the cursor, or this token is a number out of range. -/
inductive Diagnostic.FoundAt (p : Parser) : Diagnostic → Prop
  | expected {want : Kind} (h : p.peek.kind ≠ want) : FoundAt p (.expected want p.peek.kind)
  | unclosed (h : p.cur.kind = .eof) : FoundAt p (.expected .rbrace .eof)
  | noOperand : FoundAt p (.noOperand p.cur.kind)
  | badInteger (h : p.cur.kind = .int) (hvalue : Parse.integer? p.cur.literal = none) :
      FoundAt p (.badInteger p.cur.literal)

namespace Parser

/-- A relation that the moves of a parser keep: the cursor moves on, something found wrong is recorded, a rule is
traced. -/
class Law (R : Parser → Parser → Prop) : Prop where
  refl : ∀ p, R p p
  trans : ∀ {p q r}, R p q → R q r → R p r
  advance : ∀ p, R p p.advance
  report : ∀ {p d}, d.FoundAt p → R p (p.report d)
  traced : ∀ {p q} (rule : Rule) (accepted : Bool), R (p.mark (.enter rule p.cur)) q →
    R p (q.mark (.leave rule accepted))
  length_le : ∀ {p q}, R p q → q.ahead.length ≤ p.ahead.length

theorem Law.resumeWithin {R : Parser → Parser → Prop} [Law R] : ∀ (n : Nat) (p : Parser) (depth : Int),
    R p (resumeWithin n p depth)
  | 0, p, _ => refl p
  | n + 1, p, depth => by
    rw [Parser.resumeWithin]
    split
    · exact refl p
    · exact trans (advance p) (resumeWithin n p.advance depth)

theorem length_advance (p : Parser) : p.advance.ahead.length = p.ahead.length - 1 := by
  rw [ahead_advance, List.length_tail]

/-- The way of the cursor: it moves on over tokens of the same text, the braces of these tokens are counted, and no
diagnostic is lost. -/
structure Moves (p q : Parser) : Prop where
  tokens : ∃ ts, p.ahead = ts ++ q.ahead ∧ q.depth = p.depth + braces ts
  endPos : q.endPos = p.endPos
  diagnostics : p.diagnostics <+: q.diagnostics

theorem moves_advance (p : Parser) : p.Moves p.advance := by
  refine ⟨?_, rfl, List.prefix_rfl⟩
  cases hp : p.ahead with
  | nil =>
    -- at the end the cursor stays where it is
    refine ⟨[], by rw [ahead_advance, hp]; rfl, ?_⟩
    rw [depth_advance, cur_of_ahead_nil hp]
    rfl
  | cons t ts =>
    refine ⟨[t], by rw [ahead_advance, hp]; rfl, ?_⟩
    rw [depth_advance, cur_of_ahead hp, braces_singleton]

theorem moves_report (p : Parser) (d : Diagnostic) : p.Moves (p.report d) :=
  ⟨⟨[], rfl, by simp [braces, report]⟩, rfl, List.prefix_append _ _⟩

instance : Law Moves where
  refl _ := ⟨⟨[], rfl, by simp [braces]⟩, rfl, List.prefix_rfl⟩
  trans {p q r} h h' := by
    obtain ⟨ts, hts, hdt⟩ := h.tokens
    obtain ⟨us, hus, hdu⟩ := h'.tokens
    refine ⟨⟨ts ++ us, by rw [hts, hus, List.append_assoc], ?_⟩, h'.endPos.trans h.endPos,
      h.diagnostics.trans h'.diagnostics⟩
    rw [hdu, hdt, braces_append, Int.add_assoc]
  advance := moves_advance
  report _ := moves_report _ _
  traced _ _ h := ⟨h.tokens, h.endPos, h.diagnostics⟩
  length_le h := by
    obtain ⟨ts, hts, -⟩ := h.tokens
    rw [hts, List.length_append]
    exact Nat.le_add_left _ _

end Parser

namespace Parse

open Monkey.Parser

/-- Wherever the cursor is, the rule keeps the relation, and runs out of budget only if `k` tokens lie ahead. -/
def Proceeds (R : Parser → Parser → Prop) (k : Nat) {α : Type} (x : Parse α) : Prop :=
  ∀ p, (x p).Holds (fun _ q => R p q) (R p) (k ≤ p.ahead.length)

/-- The same of a rule that leaves the cursor on a token when it has a result. -/
def Consumes (R : Parser → Parser → Prop) (k : Nat) {α : Type} (x : Parse α) : Prop :=
  ∀ p, (x p).Holds (fun _ q => R p q ∧ q.ahead ≠ []) (R p) (k ≤ p.ahead.length)

section

variable {α β : Type} {R : Parser → Parser → Prop} [Law R] {j k n : Nat} {x : Parse α}

omit [Law R] in
theorem Proceeds.mono (hx : Proceeds R k x) (hj : j ≤ k) : Proceeds R j x := fun p =>
  (hx p).imp (fun _ _ h => h) (fun _ h => h) fun h => Nat.le_trans hj h

omit [Law R] in
theorem Consumes.proceeds (hx : Consumes R k x) : Proceeds R k x := fun p =>
  (hx p).imp (fun _ _ h => h.1) (fun _ h => h) id

/-! ## Primitives -/

/-- A rule asked for from a place on the way. -/
theorem Proceeds.behind (hx : Proceeds R j x) {p q : Parser} (hq : R p q)
    (hj : j ≤ q.ahead.length → k ≤ p.ahead.length) : (x q).Holds (fun _ r => R p r) (R p) (k ≤ p.ahead.length) :=
  (hx q).imp (fun _ _ h => Law.trans hq h) (fun _ h => Law.trans hq h) hj

theorem Proceeds.bind {f : α → Parse β} (hx : Proceeds R k x) (hf : ∀ a, Proceeds R k (f a)) :
    Proceeds R k (x >>= f) := fun p =>
  holds_then (hx p) fun a _ hq => (hf a).behind hq fun h => Nat.le_trans h (Law.length_le hq)

theorem proceeds_pure (a : α) : Proceeds R k (pure a) := fun p => Law.refl p

theorem proceeds_look (f : Parser → α) : Proceeds R k (look f) := fun p => Law.refl p

theorem proceeds_cur : Proceeds R k cur := proceeds_look _

theorem proceeds_peek : Proceeds R k peek := proceeds_look _

theorem proceeds_peekIs (kind : Kind) : Proceeds R k (peekIs kind) := proceeds_look _

theorem proceeds_name : Proceeds R k name := proceeds_look _

theorem proceeds_advance : Proceeds R k advance := fun p => Law.advance p

theorem proceeds_resume (depth : Int) : Proceeds R k (resume depth) := fun p => Law.resumeWithin _ p depth

theorem proceeds_expect (kind : Kind) : Proceeds R k (expect kind) := fun p => by
  unfold expect
  split
  · exact Law.advance p
  · exact Law.report (.expected ‹_›)

omit [Law R] in
theorem proceeds_ite {c : Prop} [Decidable c] {y : Parse α} (hx : Proceeds R k x) (hy : Proceeds R k y) :
    Proceeds R k (if c then x else y) := by
  split
  · exact hx
  · exact hy

theorem Proceeds.traced (rule : Rule) (hx : Proceeds R k x) : Proceeds R k (traced rule x) := fun _ =>
  holds_traced (hx _) (fun _ _ h => Law.traced rule true h) fun _ h => Law.traced rule false h

omit [Law R] in
theorem Proceeds.attempt (hx : Proceeds R k x) : Proceeds R k (attempt x) := fun p => by
  have h := hx p
  unfold Parse.attempt
  cases hxp : x p with
  | done a q => rw [hxp] at h; exact h
  | malformed q => rw [hxp] at h; exact h
  | exhausted => rw [hxp] at h; exact h

/-- A rule asked for one token further: there is a token less ahead. -/
theorem Proceeds.advance (hx : Proceeds R (min n k) x) {p q : Parser} (hq : R p q) (hp : p.ahead ≠ []) :
    ((advance >>= fun _ => x) q).Holds (fun _ r => R p r) (R p) (min (n + 1) k ≤ p.ahead.length) := by
  have hlen := Law.length_le hq
  have hpos := List.length_pos_iff.2 hp
  rw [advance_bind]
  refine hx.behind (Law.trans hq (Law.advance q)) fun h => ?_
  rw [length_advance] at h
  omega

theorem proceeds_skipSemicolon : Proceeds R k skipSemicolon :=
  (proceeds_peekIs _).bind fun _ => proceeds_ite proceeds_advance (proceeds_pure _)

theorem holds_integer {p : Parser} (hp : p.cur.kind = .int) :
    (integer p).Holds (fun _ q => R p q) (R p) (k ≤ p.ahead.length) := by
  rw [integer, cur_bind]
  cases hvalue : integer? p.cur.literal with
  | some value => exact Law.refl p
  | none => exact Law.report (.badInteger hp hvalue)

/-- Asked for anywhere, the rule for numbers also finds fault with what is no number. -/
theorem proceeds_integer (hfree : ∀ p d, R p (p.report d)) : Proceeds R k integer := by
  refine proceeds_cur.bind fun token => ?_
  split
  · exact proceeds_pure _
  · exact fun p => hfree p _

/-! ## Lists and blocks -/

theorem proceeds_moreItems (hx : Proceeds R k x) : ∀ n, Proceeds R (min n k) (moreItems x n)
  | 0 => fun _ => Nat.le_trans (Nat.min_le_left _ _) (Nat.zero_le _)
  | n + 1 => fun p => by
    rw [moreItems]
    refine holds_peekIs (fun hp => ?_) fun _ => Law.refl p
    have htail : p.ahead.tail ≠ [] := ahead_ne_of_peek (by rw [hp]; decide)
    have hrest : Proceeds R (min n k) (x >>= fun item => moreItems x n >>= fun rest => pure (item :: rest)) :=
      (hx.mono (Nat.min_le_right _ _)).bind fun _ => (proceeds_moreItems hx n).bind fun _ => proceeds_pure _
    exact hrest.advance (Law.refl p) fun hnil => htail (by rw [hnil]; rfl)

theorem proceeds_items (hx : Proceeds R k x) (close : Kind) (hn : k ≤ n) : Proceeds R k (items x close n) := by
  have hmore := (proceeds_moreItems hx n).mono (Nat.le_min.2 ⟨hn, Nat.le_refl k⟩)
  refine (proceeds_peekIs _).bind fun _ => proceeds_ite (proceeds_advance.bind fun _ => proceeds_pure _) ?_
  exact hx.bind fun _ => hmore.bind fun _ => (proceeds_expect _).bind fun _ => proceeds_pure _

theorem proceeds_params (hn : k ≤ n) : Proceeds R k (params n) :=
  proceeds_items ((proceeds_expect _).bind fun _ => proceeds_name) _ hn

section

variable {stmt : Parse Stmt} (hs : Proceeds R k stmt)
include hs

theorem proceeds_blockStatements : ∀ n, Proceeds R (min n k) (blockStatements stmt n)
  | 0 => fun _ => Nat.le_trans (Nat.min_le_left _ _) (Nat.zero_le _)
  | n + 1 => fun p => by
    have ih := proceeds_blockStatements n
    rw [blockStatements, cur_bind]
    generalize hk : p.cur.kind = kind
    split
    · exact Law.refl p
    · exact Law.report (.unclosed hk)
    · rename_i hend
      have hp : p.ahead ≠ [] := ahead_ne_of_cur (hk ▸ hend)
      rw [look_bind]
      refine holds_bind (hs.attempt p) (fun _ h => h) (Nat.le_trans (Nat.min_le_right _ _)) fun s? q hq => ?_
      cases s? with
      | some s => exact (ih.bind fun _ => proceeds_pure _).advance hq hp
      | none =>
        have hr := Law.trans hq (Law.resumeWithin q.ahead.length q p.depth)
        dsimp only
        rw [resume_bind, cur_bind]
        split
        · exact hr
        · exact ih.advance hr hp

theorem proceeds_block (hn : k ≤ n) : Proceeds R k (block stmt n) := by
  have hloop := (proceeds_blockStatements hs n).mono (Nat.le_min.2 ⟨hn, Nat.le_refl k⟩)
  exact proceeds_cur.bind fun _ => proceeds_advance.bind fun _ => hloop.bind fun _ => proceeds_pure _

theorem proceeds_programStatements : ∀ n, Proceeds R (min n k) (programStatements stmt n)
  | 0 => fun _ => Nat.le_trans (Nat.min_le_left _ _) (Nat.zero_le _)
  | n + 1 => fun p => by
    have ih := proceeds_programStatements n
    rw [programStatements, cur_bind]
    by_cases hend : p.cur.kind = .eof
    · rw [if_pos hend]
      exact Law.refl p
    · have hp : p.ahead ≠ [] := ahead_ne_of_cur hend
      rw [if_neg hend, look_bind]
      refine holds_bind (hs.attempt p) (fun _ h => h) (Nat.le_trans (Nat.min_le_right _ _)) fun s? q hq => ?_
      cases s? with
      | some s => exact (ih.bind fun _ => proceeds_pure _).advance hq hp
      | none => exact ih.advance (Law.trans hq (Law.resumeWithin q.ahead.length q p.depth)) hp

end

/-! ## The rules over a rule for expressions -/

section

variable {expr : Precedence → Parse Expr} (he : ∀ precedence, Consumes R k (expr precedence))
include he

theorem proceeds_bindStatement : Proceeds R k (bindStatement expr) :=
  proceeds_cur.bind fun _ => (proceeds_expect _).bind fun _ => proceeds_name.bind fun _ =>
    (proceeds_expect _).bind fun _ => proceeds_advance.bind fun _ => (he _).proceeds.bind fun _ =>
      proceeds_skipSemicolon.bind fun _ => proceeds_pure _

theorem proceeds_returnStatement : Proceeds R k (returnStatement expr) := by
  have hbare (s : Stmt) : Proceeds R k (skipSemicolon >>= fun _ => pure s) :=
    proceeds_skipSemicolon.bind fun _ => proceeds_pure _
  refine proceeds_cur.bind fun _ => proceeds_peek.bind fun token => ?_
  split
  · exact hbare _
  · exact hbare _
  · exact hbare _
  · exact proceeds_advance.bind fun _ => (he _).proceeds.bind fun _ => hbare _

theorem proceeds_expressionStatement : Proceeds R k (expressionStatement expr) :=
  proceeds_cur.bind fun _ => (he _).proceeds.bind fun _ => proceeds_skipSemicolon.bind fun _ => proceeds_pure _

theorem proceeds_statementWith : Proceeds R k (statementWith expr) := by
  refine .traced _ (proceeds_cur.bind fun token => ?_)
  split
  · exact proceeds_bindStatement he
  · exact proceeds_returnStatement he
  · exact proceeds_expressionStatement he

theorem proceeds_unary (op : UnaryOp) : Proceeds R k (unary expr op) :=
  .traced _ <| proceeds_cur.bind fun _ => proceeds_advance.bind fun _ => (he _).proceeds.bind fun _ => proceeds_pure _

theorem proceeds_binary (op : BinaryOp) (left : Expr) : Proceeds R k (binary expr op left) :=
  .traced _ <| proceeds_cur.bind fun _ => proceeds_advance.bind fun _ => (he _).proceeds.bind fun _ => proceeds_pure _

theorem proceeds_grouped : Proceeds R k (grouped expr) :=
  proceeds_advance.bind fun _ => (he _).proceeds.bind fun _ => (proceeds_expect _).bind fun _ => proceeds_pure _

theorem proceeds_index (left : Expr) : Proceeds R k (index expr left) :=
  proceeds_cur.bind fun _ => proceeds_advance.bind fun _ => (he _).proceeds.bind fun _ =>
    (proceeds_expect _).bind fun _ => proceeds_pure _

variable (hn : k ≤ n)
include hn

theorem proceeds_cond : Proceeds R k (Parse.cond expr n) := by
  have hblock := proceeds_block (proceeds_statementWith he) hn
  refine proceeds_cur.bind fun _ => (proceeds_expect _).bind fun _ => proceeds_advance.bind fun _ => ?_
  refine (he _).proceeds.bind fun _ => (proceeds_expect _).bind fun _ => (proceeds_expect _).bind fun _ => ?_
  refine hblock.bind fun _ => (proceeds_peekIs _).bind fun _ => proceeds_ite ?_ (proceeds_pure _)
  exact proceeds_advance.bind fun _ => (proceeds_expect _).bind fun _ => hblock.bind fun _ => proceeds_pure _

theorem proceeds_fn : Proceeds R k (fn expr n) := by
  refine proceeds_cur.bind fun _ => (proceeds_expect _).bind fun _ => (proceeds_params hn).bind fun _ => ?_
  exact (proceeds_expect _).bind fun _ => (proceeds_block (proceeds_statementWith he) hn).bind fun _ => proceeds_pure _

theorem proceeds_expressions (close : Kind) : Proceeds R k (expressions expr close n) :=
  proceeds_items (proceeds_advance.bind fun _ => (he _).proceeds) close hn

theorem proceeds_array : Proceeds R k (array expr n) :=
  proceeds_cur.bind fun _ => (proceeds_expressions he hn _).bind fun _ => proceeds_pure _

theorem proceeds_call (callee : Expr) : Proceeds R k (call expr n callee) :=
  proceeds_cur.bind fun _ => (proceeds_expressions he hn _).bind fun _ => proceeds_pure _

omit hn in
/-- A key is an expression, so a pair that has been read has left a token behind, also at the end of the text. -/
theorem proceeds_hashPairs : ∀ n, Proceeds R (min n k) (hashPairs expr n)
  | 0 => fun _ => Nat.le_trans (Nat.min_le_left _ _) (Nat.zero_le _)
  | n + 1 => fun p => by
    have hrest (pair : Expr × Expr) : Proceeds R (min n k) (hashPairs expr n >>= fun rest => pure (pair :: rest)) :=
      (proceeds_hashPairs n).bind fun _ => proceeds_pure _
    have hexpr (precedence : Precedence) : Proceeds R (min n k) (expr precedence) :=
      (he precedence).proceeds.mono (Nat.min_le_right _ _)
    rw [hashPairs]
    refine holds_peekIs (fun _ => Law.refl p) fun _ => ?_
    rw [advance_bind]
    refine holds_bind (he .lowest p.advance) (fun _ h => Law.trans (Law.advance p) h) (fun h => ?_) fun key q hq => ?_
    · rw [length_advance] at h
      omega
    · obtain ⟨hq, hne⟩ := hq
      have hlen := Law.length_le hq
      have hpos := List.length_pos_iff.2 hne
      rw [length_advance] at hlen
      refine Proceeds.behind (j := min n k) ?_ (Law.trans (Law.advance p) hq) fun h => by omega
      refine (proceeds_expect _).bind fun _ => proceeds_advance.bind fun _ => (hexpr _).bind fun _ => ?_
      exact (proceeds_peekIs _).bind fun _ => proceeds_ite ((proceeds_expect _).bind fun _ => hrest _) (hrest _)

theorem proceeds_hash : Proceeds R k (hash expr n) := by
  have hloop := (proceeds_hashPairs he n).mono (Nat.le_min.2 ⟨hn, Nat.le_refl k⟩)
  exact proceeds_cur.bind fun _ => hloop.bind fun _ => (proceeds_expect _).bind fun _ => proceeds_pure _

theorem proceeds_operand : Proceeds R k (operand expr n) := by
  intro p
  rw [operand, cur_bind]
  generalize hkind : p.cur.kind = kind
  split
  · exact Law.refl p
  · exact holds_integer hkind
  · exact Law.refl p
  · exact Law.refl p
  · exact Law.refl p
  · exact proceeds_unary he _ p
  · exact proceeds_unary he _ p
  · exact proceeds_grouped he p
  · exact proceeds_cond he hn p
  · exact proceeds_fn he hn p
  · exact proceeds_array he hn p
  · exact proceeds_hash he hn p
  · exact Law.report (hkind ▸ .noOperand)

theorem proceeds_extend (left : Expr) : Proceeds R k (extend expr n left) := by
  refine proceeds_cur.bind fun token => ?_
  dsimp only
  split
  · exact proceeds_call he hn left
  · exact proceeds_index he left
  · split
    · exact proceeds_binary he _ left
    · exact proceeds_pure _

omit hn in
/-- An operator stands behind every operand but the last. -/
theorem proceeds_climb (precedence : Precedence) : ∀ n left, Proceeds R (min n k) (climb expr precedence n left)
  | 0, _ => fun _ => Nat.le_trans (Nat.min_le_left _ _) (Nat.zero_le _)
  | n + 1, left => fun p => by
    rw [climb, peek_bind]
    by_cases hlt : precedence.rank < p.peek.kind.precedence.rank
    · have htail : p.ahead.tail ≠ [] := ahead_ne_of_peek (Kind.operator_of_rank hlt).2.1
      have he' (precedence : Precedence) : Consumes R (min n k) (expr precedence) := fun q =>
        (he precedence q).imp (fun _ _ h => h) (fun _ h => h) fun h => Nat.le_trans (Nat.min_le_right _ _) h
      have hrest : Proceeds R (min n k) (extend expr n left >>= fun e => climb expr precedence n e) :=
        (proceeds_extend he' (Nat.min_le_left _ _) left).bind fun e => proceeds_climb precedence n e
      rw [if_pos hlt]
      exact hrest.advance (Law.refl p) fun hnil => htail (by rw [hnil]; rfl)
    · rw [if_neg hlt]
      exact Law.refl p

end

/-- **An expression keeps every law of motion**, wherever it is read, within a budget of one for each token. -/
theorem consumes_expression : ∀ (k : Nat) (precedence : Precedence), Consumes R k (expression k precedence)
  | 0, _ => fun _ => Nat.zero_le _
  | k + 1, precedence => fun p => by
    have he := consumes_expression k
    have hclimb (left : Expr) : Proceeds R k (climb (expression k) precedence k left) :=
      (proceeds_climb he precedence k left).mono (Nat.le_min.2 ⟨Nat.le_refl k, Nat.le_refl k⟩)
    have hrule : Proceeds R k (expression (k + 1) precedence) :=
      .traced _ ((proceeds_operand he (Nat.le_refl k)).bind hclimb)
    -- that a token is read, and that the budget has one to spare, is known of phrases
    exact ((hrule p).and (isPhrase_expression (k + 1) precedence p)).imp (fun _ _ h => ⟨h.1, h.2.ahead_ne⟩)
      (fun _ h => h.1) fun h => h.2

theorem proceeds_statement (k : Nat) : Proceeds R k (statement k) := proceeds_statementWith (consumes_expression k)

theorem proceeds_program (k : Nat) : Proceeds R k (program k) := by
  have hloop := (proceeds_programStatements (proceeds_statement (R := R) k) k).mono
    (Nat.le_min.2 ⟨Nat.le_refl k, Nat.le_refl k⟩)
  exact proceeds_cur.bind fun _ => hloop.bind fun _ => proceeds_pure _

end

end Parse

end Monkey
