import Monkey.Proofs.Derivation
import Monkey.Proofs.Phrases
/-!
# What an accepted source yields

A rule that has a result and has found nothing wrong has read just the tokens that its result yields, each once and in
order: one statement for each rule of the grammar, by induction on the budget.  Recovery skips tokens, but only behind a
diagnostic.  So a source without diagnostics is what its program yields (`yields_of_no_diagnostics`).
-/
namespace Monkey

theorem Expr.Yields.ne_nil {e : Expr} {ts : List Token} (h : e.Yields ts) : ts ≠ [] := by
  cases h <;> simp

/-- Items with a comma between each and the next, and perhaps one behind the last. -/
def Trailing {α : Type} (R : α → List Token → Prop) (as : List α) (ts : List Token) : Prop :=
  Separated R as ts ∨ ∃ us c, ts = us ++ [c] ∧ c.kind = .comma ∧ as ≠ [] ∧ Separated R as us

theorem Trailing.nil {α : Type} {R : α → List Token → Prop} {ts : List Token} (h : Trailing R [] ts) : ts = [] := by
  rcases h with h | ⟨_, _, _, _, hne, _⟩
  · cases h; rfl
  · exact absurd rfl hne

theorem Trailing.cons {α : Type} {R : α → List Token → Prop} {a : α} {as : List α} {ts us : List Token} {c : Token}
    (h : R a ts) (hc : c.kind = .comma) (hrest : Trailing R as us) : Trailing R (a :: as) (ts ++ c :: us) := by
  cases as with
  | nil => rw [hrest.nil]; exact .inr ⟨ts, c, rfl, hc, by simp, .one h⟩
  | cons b as =>
    rcases hrest with hrest | ⟨vs, d, rfl, hd, -, hrest⟩
    · exact .inl (.cons h hc hrest)
    · exact .inr ⟨ts ++ c :: vs, d, by simp, hd, by simp, .cons h hc hrest⟩

theorem BinaryOp.kind_of_ofKind {kind : Kind} {op : BinaryOp} (h : BinaryOp.ofKind? kind = some op) :
    kind = op.kind := by
  have := List.find?_some h
  simpa using (beq_iff_eq.1 this).symm

/-- A token that binds an operand opens a list or an index, or it spells an operator. -/
theorem Kind.operator_cases {kind : Kind} {precedence : Precedence} (h : precedence.rank < kind.precedence.rank) :
    kind = .lparen ∨ kind = .lbracket ∨ ∃ op, BinaryOp.ofKind? kind = some op := by
  have hp : 1 ≤ precedence.rank := by cases precedence <;> decide
  have hk : 1 < kind.precedence.rank := by omega
  cases kind <;>
    first
      | exact .inl rfl
      | exact .inr (.inl rfl)
      | exact .inr (.inr ⟨_, rfl⟩)
      | exact absurd hk (by decide)

namespace Parser

variable {R S : List Token → Prop} {p q r s : Parser}

/-- The tokens from `p` to `q` are in `R`, unless a diagnostic has been found on the way. -/
structure Reads (R : List Token → Prop) (p q : Parser) : Prop where
  count_le : p.diagnostics.length ≤ q.diagnostics.length
  tokens : q.diagnostics.length = p.diagnostics.length → ∃ ts, p.ahead = ts ++ q.ahead ∧ R ts

theorem Reads.imp (h : p.Reads R q) (hRS : ∀ ts, R ts → S ts) : p.Reads S q :=
  ⟨h.count_le, fun hc => by obtain ⟨ts, hts, hR⟩ := h.tokens hc; exact ⟨ts, hts, hRS ts hR⟩⟩

theorem Reads.nil (h : R []) (p : Parser) : p.Reads R p := ⟨Nat.le_refl _, fun _ => ⟨[], rfl, h⟩⟩

theorem Reads.trans (h : p.Reads R q) (h' : q.Reads S r) :
    p.Reads (fun ts => ∃ us vs, ts = us ++ vs ∧ R us ∧ S vs) r := by
  have hpq := h.count_le
  have hqr := h'.count_le
  refine ⟨Nat.le_trans hpq hqr, fun hc => ?_⟩
  obtain ⟨us, hus, hR⟩ := h.tokens (by omega)
  obtain ⟨vs, hvs, hS⟩ := h'.tokens (by omega)
  exact ⟨us ++ vs, by rw [hus, hvs, List.append_assoc], us, vs, rfl, hR, hS⟩

theorem ahead_eq_cons (h : p.cur.kind ≠ .eof) : p.ahead = p.cur :: p.ahead.tail := by
  cases hp : p.ahead with
  | nil => exact absurd (cur_of_ahead_nil hp) h
  | cons t ts => rw [cur_of_ahead hp]; rfl

theorem Reads.single (h : p.cur.kind ≠ .eof) : p.Reads (· = [p.cur]) p.advance :=
  ⟨Nat.le_refl _, fun _ => ⟨[p.cur], ahead_eq_cons h, rfl⟩⟩

/-- One token further. -/
theorem Reads.token {kind : Kind} (h : p.Reads R q) (hq : q.cur.kind = kind) (he : kind ≠ .eof) :
    p.Reads (fun ts => ∃ us, ts = us ++ [q.cur] ∧ R us) q.advance :=
  (h.trans (.single (hq ▸ he))).imp fun _ ⟨us, _, hts, hR, hv⟩ => ⟨us, hv ▸ hts, hR⟩

theorem Reads.of_mark {m m' : Mark} (h : (p.mark m).Reads R q.advance) : p.Reads R (q.mark m').advance :=
  ⟨h.count_le, h.tokens⟩

/-- Behind a diagnostic nothing is promised. -/
theorem Reads.of_reported (h : p.diagnostics.length < q.diagnostics.length) (hqr : q.Reads S r) : p.Reads R r := by
  have := hqr.count_le
  exact ⟨by omega, fun hc => by omega⟩

theorem diagnostics_resumeWithin : ∀ (n : Nat) (p : Parser) (d : Int), (resumeWithin n p d).diagnostics = p.diagnostics
  | 0, _, _ => rfl
  | n + 1, p, d => by
    rw [resumeWithin]
    split
    · rfl
    · exact diagnostics_resumeWithin n p.advance d

theorem diagnostics_resume (p : Parser) (d : Int) : (p.resume d).diagnostics = p.diagnostics :=
  diagnostics_resumeWithin _ p d

end Parser

namespace Parse

open Monkey.Parser

/-- What a rule has read is what its result yields. -/
def Sound {α : Type} (R : α → List Token → Prop) (x : Parse α) : Prop :=
  ∀ p, (x p).Gives (fun a q => p.Reads (R a) q.advance)

/-- The same of a rule that starts on the token before its phrase. -/
def SoundBehind {α : Type} (R : α → List Token → Prop) (x : Parse α) : Prop :=
  ∀ p, (x p).Gives (fun a q => p.advance.Reads (R a) q.advance)

theorem sound_traced {α : Type} {R : α → List Token → Prop} {rule : Rule} {x : Parse α} {p : Parser}
    (hx : (x (p.mark (.enter rule p.cur))).Gives (fun a q => (p.mark (.enter rule p.cur)).Reads (R a) q.advance)) :
    (traced rule x p).Gives (fun a q => p.Reads (R a) q.advance) :=
  holds_traced hx (fun _ _ h => h.of_mark) fun _ h => h

theorem yields_skipSemicolon {s p : Parser} (statement : Stmt) (h : s.Reads statement.Yields p.advance) :
    (skipSemicolon p).Gives (fun _ q => s.Reads statement.YieldsEnded q.advance) := by
  rw [skipSemicolon]
  refine holds_peekIs (fun hp => ?_) fun _ => ?_
  · refine (h.token hp (by decide)).imp ?_
    rintro _ ⟨us, rfl, hR⟩
    exact .semicolon hR hp
  · exact h.imp fun _ hR => .bare hR

/-! ## Lists -/

theorem soundBehind_param : SoundBehind Ident.Yields (do expect .ident; name) := by
  intro p
  refine holds_expect (fun _ => trivial) fun hp => ?_
  exact (Reads.single (p := p.advance) (hp ▸ by decide)).imp fun _ hts => hts ▸ .mk hp

section

variable {α : Type} {R : α → List Token → Prop} {item : Parse α} (hi : SoundBehind R item)
include hi

theorem yields_moreItems : ∀ (n : Nat) (s p : Parser) (a : α), s.Reads (R a) p.advance →
    (moreItems item n p).Gives (fun as q => s.Reads (Separated R (a :: as)) q.advance)
  | 0, _, _, _, _ => trivial
  | n + 1, s, p, a, h => by
    rw [moreItems]
    refine holds_peekIs (fun hp => ?_) fun _ => ?_
    · rw [advance_bind]
      refine holds_then (hi p.advance) fun x q hq => ?_
      refine holds_then (yields_moreItems n _ q x hq) fun rest r hr => ?_
      refine ((h.token hp (by decide)).trans hr).imp ?_
      rintro _ ⟨_, us, rfl, ⟨ts, rfl, hts⟩, hus⟩
      simpa using Separated.cons hts hp hus
    · exact h.imp fun _ hts => .one hts

/-- The items, and the token that closes their list. -/
theorem yields_items {close : Kind} (hc : close ≠ .eof) (n : Nat) (p : Parser) :
    (items item close n p).Gives
      (fun as q =>
        p.advance.Reads (fun ts => ∃ us r, ts = us ++ [r] ∧ Separated R as us ∧ r.kind = close) q.advance) := by
  rw [items]
  refine holds_peekIs (fun hp => ?_) fun _ => ?_
  · refine ((Reads.nil (R := Separated R []) Separated.nil p.advance).token hp hc).imp ?_
    rintro _ ⟨us, hts, hR⟩
    exact ⟨us, _, hts, hR, hp⟩
  · refine holds_then (hi p) fun x q hq => ?_
    refine holds_then (yields_moreItems hi n _ q x hq) fun rest r hr => ?_
    refine holds_expect (fun _ => trivial) fun hp => (hr.token hp hc).imp ?_
    rintro _ ⟨us, hts, hR⟩
    exact ⟨us, _, hts, hR, hp⟩

end

/-! ## The rules over a rule for expressions -/

section

variable {k n : Nat} (he : ∀ precedence, Sound Expr.Yields (expression k precedence))
include he

theorem soundBehind_expression : SoundBehind Expr.Yields (do advance; expression k .lowest) := by
  intro p
  rw [advance_bind]
  exact he .lowest p.advance

/-! ### Statements -/

theorem yields_bindStatement {p : Parser} (hc : p.cur.kind = .letWord) :
    (bindStatement (expression k) p).Gives (fun s q => p.Reads s.YieldsEnded q.advance) := by
  have h := Reads.single (p := p) (hc ▸ by decide)
  rw [bindStatement, cur_bind]
  refine holds_expect (fun _ => trivial) fun hn => ?_
  have h := h.token hn (by decide)
  rw [name_bind]
  refine holds_expect (fun _ => trivial) fun ha => ?_
  have h := h.token ha (by decide)
  rw [advance_bind]
  refine holds_then (he .lowest _) fun e q hq => ?_
  refine holds_then (yields_skipSemicolon (.bind p.cur.pos ⟨p.peek.pos, p.peek.literal⟩ e)
    ((h.trans hq).imp ?_)) fun _ r hr => hr
  rintro _ ⟨_, ts, rfl, ⟨_, rfl, _, rfl, rfl⟩, hts⟩
  exact .bind hc hn ha hts

theorem yields_returnStatement {p : Parser} (hc : p.cur.kind = .returnWord) :
    (returnStatement (expression k) p).Gives (fun s q => p.Reads s.YieldsEnded q.advance) := by
  have h := Reads.single (p := p) (hc ▸ by decide)
  have hbare : ((skipSemicolon >>= fun _ => pure (.ret p.cur.pos none)) p).Gives
      (fun s q => p.Reads (Stmt.YieldsEnded s) q.advance) :=
    holds_then (yields_skipSemicolon (.ret p.cur.pos none) (h.imp fun _ hts => hts ▸ .ret hc)) fun _ _ hr => hr
  rw [returnStatement, cur_bind, peek_bind]
  generalize p.peek.kind = kind
  split
  · exact hbare
  · exact hbare
  · exact hbare
  · rw [advance_bind]
    refine holds_then (he .lowest _) fun e q hq => ?_
    refine holds_then (yields_skipSemicolon (.ret p.cur.pos (some e)) ((h.trans hq).imp ?_)) fun _ r hr => hr
    rintro _ ⟨_, ts, rfl, rfl, hts⟩
    exact .retValue hc hts

theorem yields_expressionStatement (p : Parser) :
    (expressionStatement (expression k) p).Gives (fun s q => p.Reads s.YieldsEnded q.advance) := by
  rw [expressionStatement, cur_bind]
  refine holds_then (he .lowest p) fun e q hq => ?_
  refine holds_then (yields_skipSemicolon (.expr p.cur e) ⟨hq.count_le, fun hc => ?_⟩) fun _ r hr => hr
  obtain ⟨ts, hts, hR⟩ := hq.tokens hc
  cases ts with
  | nil => exact absurd rfl hR.ne_nil
  | cons t ts => exact ⟨t :: ts, hts, by rw [cur_of_ahead hts]; exact .expr hR⟩

theorem sound_statement : Sound Stmt.YieldsEnded (statement k) := by
  intro p
  rw [statement, statementWith]
  refine sound_traced ?_
  rw [cur_bind]
  generalize hk : (p.mark _).cur.kind = kind
  split
  · exact yields_bindStatement he hk
  · exact yields_returnStatement he hk
  · exact yields_expressionStatement he _

/-! ### Blocks -/

theorem yields_blockStatements : ∀ (n : Nat) (p : Parser),
    (blockStatements (statement k) n p).Gives
      (fun statements q => q.cur.kind = .rbrace ∧ p.Reads (Sequence Stmt.YieldsEnded statements) q)
  | 0, _ => trivial
  | n + 1, p => by
    rw [blockStatements, cur_bind]
    generalize hk : p.cur.kind = kind
    split
    · exact ⟨hk, .nil .nil p⟩
    · trivial
    · rw [look_bind]
      refine holds_attempt (sound_statement he p) id (fun s q _ hq => ?_) fun r hrun _ => ?_
      · dsimp only
        rw [advance_bind]
        refine holds_then (yields_blockStatements n q.advance) fun rest t ht => ?_
        refine ⟨ht.1, (hq.trans ht.2).imp ?_⟩
        rintro _ ⟨us, vs, rfl, hus, hvs⟩
        exact .cons hus hvs
      · -- a statement is dropped only after a report, and then nothing is said of the tokens
        have hbroken := ((isPhrase_statement_all k p).of_malformed hrun).reported
        rw [← diagnostics_resume r p.depth] at hbroken
        dsimp only
        rw [resume_bind, cur_bind]
        by_cases hc : (r.resume p.depth).cur.kind = .rbrace
        · rw [if_pos hc]
          exact ⟨hc, .of_reported hbroken (.nil (R := fun _ => True) trivial _)⟩
        · rw [if_neg hc, advance_bind]
          exact (yields_blockStatements n (r.resume p.depth).advance).imp
            (fun _ _ h => ⟨h.1, .of_reported (q := (r.resume p.depth).advance) hbroken h.2⟩) (fun _ h => h) id

theorem yields_block {p : Parser} (hc : p.cur.kind = .lbrace) :
    (block (statement k) n p).Gives (fun b q => p.Reads b.Yields q.advance) := by
  rw [block, cur_bind, advance_bind]
  refine holds_then (yields_blockStatements he n p.advance) fun statements q hq => ?_
  refine (((Reads.single (hc ▸ by decide)).trans hq.2).token hq.1 (by decide)).imp ?_
  rintro _ ⟨_, rfl, _, ts, rfl, rfl, hts⟩
  exact .mk hc hts hq.1

/-! ### Operands -/

theorem yields_unary {p : Parser} {op : UnaryOp} (hc : p.cur.kind = op.kind) :
    (unary (expression k) op p).Gives (fun e q => p.Reads e.Yields q.advance) := by
  rw [unary]
  refine sound_traced ?_
  have h := Reads.single (p := p.mark (.enter .unary p.cur)) (hc ▸ op.kind_ne_eof)
  rw [cur_bind, advance_bind]
  refine holds_then (he .unary _) fun e q hq => ?_
  refine (h.trans hq).imp ?_
  rintro _ ⟨_, ts, rfl, rfl, hts⟩
  exact .unary hc hts

theorem yields_grouped {p : Parser} (hc : p.cur.kind = .lparen) :
    (grouped (expression k) p).Gives (fun e q => p.Reads e.Yields q.advance) := by
  have h := Reads.single (p := p) (hc ▸ by decide)
  rw [grouped, advance_bind]
  refine holds_then (he .lowest _) fun e q hq => ?_
  refine holds_expect (fun _ => trivial) fun hr => ?_
  refine ((h.trans hq).token hr (by decide)).imp ?_
  rintro _ ⟨_, rfl, _, ts, rfl, rfl, hts⟩
  exact .grouped hc hts hr

theorem yields_cond {p : Parser} (hc : p.cur.kind = .ifWord) :
    (Parse.cond (expression k) n p).Gives (fun e q => p.Reads e.Yields q.advance) := by
  have h := Reads.single (p := p) (hc ▸ by decide)
  rw [Parse.cond, cur_bind]
  refine holds_expect (fun _ => trivial) fun hl => ?_
  have h := h.token hl (by decide)
  rw [advance_bind]
  refine holds_then (he .lowest _) fun c q hq => ?_
  have h := h.trans hq
  refine holds_expect (fun _ => trivial) fun hr => ?_
  have h := h.token hr (by decide)
  refine holds_expect (fun _ => trivial) fun hb => ?_
  refine holds_then (yields_block he hb) fun b t ht => ?_
  have h := h.trans ht
  refine holds_peekIs (fun hw => ?_) fun _ => ?_
  · have h := h.token hw (by decide)
    rw [advance_bind]
    refine holds_expect (fun _ => trivial) fun hb => ?_
    refine holds_then (yields_block he hb) fun a u hu => ?_
    refine (h.trans hu).imp ?_
    rintro _ ⟨_, vs, rfl, ⟨_, rfl, _, us, rfl, ⟨_, rfl, _, ts, rfl, ⟨_, rfl, rfl⟩, hts⟩, hus⟩, hvs⟩
    simpa using Expr.Yields.condElse hc hl hts hr hus hw hvs
  · refine h.imp ?_
    rintro _ ⟨_, us, rfl, ⟨_, rfl, _, ts, rfl, ⟨_, rfl, rfl⟩, hts⟩, hus⟩
    simpa using Expr.Yields.cond hc hl hts hr hus

theorem yields_fn {p : Parser} (hc : p.cur.kind = .fnWord) :
    (fn (expression k) n p).Gives (fun e q => p.Reads e.Yields q.advance) := by
  have h := Reads.single (p := p) (hc ▸ by decide)
  rw [fn, cur_bind]
  refine holds_expect (fun _ => trivial) fun hl => ?_
  have h := h.token hl (by decide)
  refine holds_then (yields_items soundBehind_param (by decide) n _) fun params q hq => ?_
  refine holds_expect (fun _ => trivial) fun hb => ?_
  refine holds_then (yields_block he hb) fun b r hr => ?_
  refine ((h.trans hq).trans hr).imp ?_
  rintro _ ⟨_, us, rfl, ⟨_, _, rfl, ⟨_, rfl, rfl⟩, ts, t, rfl, hts, ht⟩, hus⟩
  simpa using Expr.Yields.fn hc hl hts ht hus

theorem yields_array {p : Parser} (hc : p.cur.kind = .lbracket) :
    (array (expression k) n p).Gives (fun e q => p.Reads e.Yields q.advance) := by
  have h := Reads.single (p := p) (hc ▸ by decide)
  rw [array, cur_bind, expressions]
  refine holds_then (yields_items (soundBehind_expression he) (by decide) n p) fun es q hq => ?_
  refine (h.trans hq).imp ?_
  rintro _ ⟨_, _, rfl, rfl, ts, r, rfl, hts, hr⟩
  exact .array hc hts hr

theorem yields_hashPairs : ∀ (n : Nat) (p : Parser),
    (hashPairs (expression k) n p).Gives
      (fun pairs q => q.peek.kind = .rbrace ∧ (p.peek.kind = .rbrace → pairs = [] ∧ q = p) ∧
        p.advance.Reads (Trailing Expr.YieldsPair pairs) q.advance)
  | 0, _ => trivial
  | n + 1, p => by
    rw [hashPairs]
    refine holds_peekIs (fun hp => ⟨hp, fun _ => ⟨rfl, rfl⟩, .nil (.inl .nil) _⟩) fun hp => ?_
    rw [advance_bind]
    refine holds_then (he .lowest _) fun key q hq => ?_
    refine holds_expect (fun _ => trivial) fun hc => ?_
    rw [advance_bind]
    refine holds_then (he .lowest _) fun value r hr => ?_
    have h : p.advance.Reads (Expr.YieldsPair (key, value)) r.advance := by
      refine ((hq.token hc (by decide)).trans hr).imp ?_
      rintro _ ⟨_, us, rfl, ⟨ts, rfl, hts⟩, hus⟩
      simpa using Expr.YieldsPair.mk hts hc hus
    refine holds_peekIs_bind (fun hb => ?_) fun _ => ?_
    · refine holds_then (yields_hashPairs n r) fun rest t ht => ?_
      obtain ⟨rfl, rfl⟩ := ht.2.1 hb
      exact ⟨hb, fun h => absurd h hp, h.imp fun _ hts => .inl (.one hts)⟩
    · refine holds_expect (fun _ => trivial) fun hcomma => ?_
      refine holds_then (yields_hashPairs n r.advance) fun rest t ht => ?_
      refine ⟨ht.1, fun h => absurd h hp, ((h.token hcomma (by decide)).trans ht.2.2).imp ?_⟩
      rintro _ ⟨_, us, rfl, ⟨ts, rfl, hts⟩, hus⟩
      simpa using Trailing.cons hts hcomma hus

theorem yields_hash {p : Parser} (hc : p.cur.kind = .lbrace) :
    (hash (expression k) n p).Gives (fun e q => p.Reads e.Yields q.advance) := by
  have h := Reads.single (p := p) (hc ▸ by decide)
  rw [hash, cur_bind]
  refine holds_then (yields_hashPairs he n p) fun pairs q hpairs => ?_
  obtain ⟨hr, -, hq⟩ := hpairs
  refine holds_expect (fun _ => trivial) fun _ => ?_
  refine ((h.trans hq).token hr (by decide)).imp ?_
  rintro _ ⟨_, rfl, _, ts, rfl, rfl, hts | ⟨us, c, rfl, hcomma, hne, hus⟩⟩
  · exact .hash hc hts hr
  · simpa using Expr.Yields.hashComma hc hus hne hcomma hr

theorem sound_operand (n : Nat) : Sound Expr.Yields (operand (expression k) n) := by
  intro p
  rw [operand, cur_bind]
  generalize hk : p.cur.kind = kind
  have single : kind ≠ .eof → p.Reads (· = [p.cur]) p.advance := fun h => .single (hk ▸ h)
  split
  · exact (single (by decide)).imp fun _ hts => hts ▸ .ident hk
  · rw [integer, cur_bind]
    generalize hv : integer? p.cur.literal = value?
    split
    · exact (single (by decide)).imp fun _ hts => hts ▸ .int hk hv
    · trivial
  · exact (single (by decide)).imp fun _ hts => hts ▸ .str hk
  · exact (single (by decide)).imp fun _ hts => hts ▸ .bool hk
  · exact (single (by decide)).imp fun _ hts => hts ▸ .bool hk
  · exact yields_unary he hk
  · exact yields_unary he hk
  · exact yields_grouped he hk
  · exact yields_cond he hk
  · exact yields_fn he hk
  · exact yields_array he hk
  · exact yields_hash he hk
  · trivial

/-! ### Operators -/

theorem yields_extend {s p : Parser} {left : Expr} (h : s.Reads left.Yields p)
    (hc : p.cur.kind = .lparen ∨ p.cur.kind = .lbracket ∨ ∃ op, BinaryOp.ofKind? p.cur.kind = some op) :
    (extend (expression k) n left p).Gives (fun e q => s.Reads e.Yields q.advance) := by
  rw [extend, cur_bind]
  generalize hk : p.cur.kind = kind at hc
  split
  · rw [call, cur_bind, expressions]
    refine holds_then (yields_items (soundBehind_expression he) (by decide) n p) fun es q hq => ?_
    refine ((h.token hk (by decide)).trans hq).imp ?_
    rintro _ ⟨_, _, rfl, ⟨ts, rfl, hts⟩, us, r, rfl, hus, hr⟩
    simpa using Expr.Yields.call hts hk hus hr
  · rw [index, cur_bind, advance_bind]
    refine holds_then (he .lowest _) fun i q hq => ?_
    refine holds_expect (fun _ => trivial) fun hr => ?_
    refine (((h.token hk (by decide)).trans hq).token hr (by decide)).imp ?_
    rintro _ ⟨_, rfl, _, us, rfl, ⟨ts, rfl, hts⟩, hus⟩
    simpa using Expr.Yields.index hts hk hus hr
  · rename_i hparen hbracket
    obtain ⟨op, hop⟩ := (hc.resolve_left hparen).resolve_left hbracket
    rw [hop]
    have hcur := hk.trans (BinaryOp.kind_of_ofKind hop)
    refine holds_traced (C := fun e q => s.Reads e.Yields q.advance) (N := fun _ => True) ?_
      (fun _ _ h => ⟨h.count_le, h.tokens⟩) fun _ h => h
    rw [cur_bind, advance_bind]
    refine holds_then (he _ _) fun right q hq => ?_
    refine ((h.token hcur op.kind_ne_eof).trans ⟨hq.count_le, hq.tokens⟩).imp ?_
    rintro _ ⟨_, us, rfl, ⟨ts, rfl, hts⟩, hus⟩
    rw [List.append_assoc]
    exact .binary hts hcur hus

theorem yields_climb (precedence : Precedence) : ∀ (n : Nat) (s p : Parser) (left : Expr),
    s.Reads left.Yields p.advance →
      (climb (expression k) precedence n left p).Gives (fun e q => s.Reads e.Yields q.advance)
  | 0, _, _, _, _ => trivial
  | n + 1, s, p, left, h => by
    rw [climb, peek_bind]
    by_cases hlt : precedence.rank < p.peek.kind.precedence.rank
    · rw [if_pos hlt, advance_bind]
      refine holds_then (yields_extend he h (Kind.operator_cases hlt)) fun e q hq => ?_
      exact yields_climb precedence n s q e hq
    · rw [if_neg hlt]
      exact h

end

theorem sound_expression : ∀ (k : Nat) (precedence : Precedence), Sound Expr.Yields (expression k precedence)
  | 0, _ => fun _ => trivial
  | k + 1, precedence => fun p => by
    rw [expression]
    refine sound_traced ?_
    have he := sound_expression k
    refine holds_then (sound_operand he k _) fun left q hq => ?_
    exact yields_climb he precedence k _ q left hq

/-! ## Whole texts -/

theorem yields_programStatements {k : Nat} : ∀ (n : Nat) (p : Parser),
    (programStatements (statement k) n p).Gives (fun statements q => p.Reads (Sequence Stmt.YieldsEnded statements) q)
  | 0, _ => trivial
  | n + 1, p => by
    rw [programStatements, cur_bind]
    by_cases hend : p.cur.kind = .eof
    · rw [if_pos hend]
      exact .nil .nil p
    · rw [if_neg hend, look_bind]
      refine holds_attempt (sound_statement (sound_expression k) p) id (fun s q _ hq => ?_) fun r hrun _ => ?_
      · dsimp only
        rw [advance_bind]
        refine holds_then (yields_programStatements n q.advance) fun rest t ht => ?_
        refine (hq.trans ht).imp ?_
        rintro _ ⟨us, vs, rfl, hus, hvs⟩
        exact .cons hus hvs
      · have hbroken := ((isPhrase_statement_all k p).of_malformed hrun).reported
        rw [← diagnostics_resume r p.depth] at hbroken
        dsimp only
        rw [resume_bind, advance_bind]
        exact (yields_programStatements n (r.resume p.depth).advance).imp
          (fun _ _ h => .of_reported (q := (r.resume p.depth).advance) hbroken h) (fun _ h => h) id

end Parse

/-- Without diagnostics, the tokens in front of an end are what the program yields. -/
theorem Parsed.derivation_of_no_diagnostics {s : TokenStream} (h : (Parsed.ofStream s).diagnostics = []) :
    ∃ (ts : List Token) (q : Parser), s.ahead = ts ++ q.ahead ∧ q.cur.kind = .eof ∧
      (Parsed.ofStream s).program.Yields ts := by
  obtain ⟨statements, q, hrun, hend, hs⟩ := Parsed.ofStream_eq s
  rw [hs] at h ⊢
  have hreads := (Parse.yields_programStatements _ _).of_done hrun
  obtain ⟨ts, hts, hyields⟩ := hreads.tokens (congrArg List.length h)
  exact ⟨ts, q, hts, hend, hyields⟩

/-- **An error-free parse is a derivation**: the tokens up to the end are what the program yields. -/
theorem Parsed.yields_of_no_diagnostics {s : TokenStream} (h : (Parsed.ofStream s).diagnostics = []) :
    (Parsed.ofStream s).program.Yields (s.ahead.takeWhile (·.kind ≠ .eof)) := by
  obtain ⟨ts, q, hahead, hend, hyields⟩ := derivation_of_no_diagnostics h
  have htake : s.ahead.takeWhile (·.kind ≠ .eof) = ts := by
    rw [hahead, List.takeWhile_append_of_pos fun t ht => decide_eq_true (Stmt.noEnd_of_sequence hyields t ht)]
    cases hq : q.ahead with
    | nil => simp
    | cons t us => rw [Parser.cur_of_ahead hq] at hend; simp [hend]
  rw [htake]
  exact hyields

/-- Parentheses, a comma behind the last pair and a semicolon are read and leave no trace in the tree. -/
theorem Parsed.yields_of_no_diagnostics_hash :
    (parse "(\x7b1: a,\x7d);").diagnostics = [] ∧
      (parse "(\x7b1: a,\x7d);").program.Yields (TokenStream.ofSource "(\x7b1: a,\x7d);").ahead :=
  ⟨rfl, Parsed.yields_of_no_diagnostics (s := .ofSource "(\x7b1: a,\x7d);") rfl⟩

end Monkey
