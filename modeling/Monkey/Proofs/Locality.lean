import Monkey.Proofs.Twin
/-!
# Errors stay local

A rule that starts inside the tokens of a run does the same whatever stands behind their last semicolon, whatever has
been found before, and with more budget: one statement for each rule, by induction on the budget.  A text whose braces
are well nested and that ends on a semicolon is therefore parsed alone, and so is what stands behind it, however
malformed either of them is (`ofStream_append`).
-/
namespace Monkey

open Monkey.Parser

namespace Parse

variable {f : Frame}

theorem mirrors_skipSemicolon {p p' : Parser} (h : f.Twin p p') (hs : f.Inside p) :
    (skipSemicolon p).Mirrors f f.Safe (skipSemicolon p') := by
  rw [skipSemicolon]
  refine mirrors_peekIs h hs (fun _ => ?_) fun _ => ?_
  · exact ⟨hs.advance, _, rfl, h.advance hs.1⟩
  · exact ⟨hs.1, _, rfl, h⟩

/-! ## Lists -/

/-- Two rules that do the same inside the tokens of a run. -/
def Local {α : Type} (f : Frame) (x x' : Parse α) : Prop :=
  ∀ p p', f.Twin p p' → f.Inside p → (x p).Mirrors f f.Inside (x' p')

theorem local_param : Local f (do expect .ident; name) (do expect .ident; name) := by
  intro p p' h hs
  refine mirrors_expect h hs (by decide) fun _ hs h => ?_
  refine ⟨hs, p'.advance, ?_, h⟩
  show Outcome.done (⟨p'.advance.cur.pos, p'.advance.cur.literal⟩ : Ident) p'.advance = .done ⟨p.advance.cur.pos, _⟩ _
  rw [h.cur hs.1]

section

variable {α : Type} {item item' : Parse α} (hi : Local f item item')
include hi

theorem local_moreItems : ∀ (n n' : Nat), n ≤ n' → Local f (moreItems item n) (moreItems item' n')
  | 0, _, _ => fun _ _ _ _ => trivial
  | n + 1, n' + 1, hn => fun p p' h hs => by
    rw [moreItems, moreItems]
    refine mirrors_peekIs h hs (fun hp => ?_) fun _ => ⟨hs, _, rfl, h⟩
    rw [advance_bind, advance_bind]
    have hs' : f.Inside p.advance := ⟨hs.advance, by rw [cur_advance, hp]; decide⟩
    refine mirrors_bind (hi _ _ (h.advance hs.1) hs') fun x q q' hq hqq' => ?_
    refine mirrors_bind (local_moreItems n n' (Nat.le_of_succ_le_succ hn) q q' hqq' hq) fun xs r r' hr hrr' => ?_
    exact ⟨hr, _, rfl, hrr'⟩

theorem local_items {close : Kind} (hc : close ≠ .semicolon) {n n' : Nat} (hn : n ≤ n') :
    Local f (items item close n) (items item' close n') := by
  intro p p' h hs
  rw [items, items]
  refine mirrors_peekIs h hs (fun hp => ?_) fun _ => ?_
  · exact ⟨⟨hs.advance, by rw [cur_advance, hp]; exact hc⟩, _, rfl, h.advance hs.1⟩
  · refine mirrors_bind (hi p p' h hs) fun x q q' hq hqq' => ?_
    refine mirrors_bind (local_moreItems hi n n' hn q q' hqq' hq) fun xs r r' hr hrr' => ?_
    exact mirrors_expect hrr' hr hc fun _ hs h => ⟨hs, _, rfl, h⟩

end

/-! ## The rules over a rule for expressions -/

section

variable {k k' n n' : Nat} (hn : n ≤ n')
  (he : ∀ precedence p p', f.Twin p p' → f.Safe p →
    (expression k precedence p).Mirrors f f.Inside (expression k' precedence p'))
include he

/-! ### Statements -/

theorem local_bindStatement : ∀ p p', f.Twin p p' → f.Inside p →
    (bindStatement (expression k) p).Mirrors f f.Safe (bindStatement (expression k') p') := by
  intro p p' h hs
  rw [bindStatement, bindStatement, cur_bind, cur_bind, h.cur hs.1]
  refine mirrors_expect h hs (by decide) fun _ hs h => ?_
  rw [name_bind, name_bind, h.cur hs.1]
  refine mirrors_expect h hs (by decide) fun _ hs h => ?_
  rw [advance_bind, advance_bind]
  refine mirrors_bind (he .lowest _ _ (h.advance hs.1) hs.advance) fun e q q' hq hqq' => ?_
  exact mirrors_bind (mirrors_skipSemicolon hqq' hq) fun _ r r' hr hrr' => ⟨hr, _, rfl, hrr'⟩

theorem local_returnStatement : ∀ p p', f.Twin p p' → f.Inside p →
    (returnStatement (expression k) p).Mirrors f f.Safe (returnStatement (expression k') p') := by
  intro p p' h hs
  have hbare : ∀ s : Stmt, ((skipSemicolon >>= fun _ => pure s) p).Mirrors f f.Safe
      ((skipSemicolon >>= fun _ => pure s) p') := fun s =>
    mirrors_bind (mirrors_skipSemicolon h hs) fun _ r r' hr hrr' => ⟨hr, _, rfl, hrr'⟩
  rw [returnStatement, returnStatement, cur_bind, cur_bind, h.cur hs.1, peek_bind, peek_bind, h.peek hs]
  generalize p.peek.kind = kind
  split
  · exact hbare _
  · exact hbare _
  · exact hbare _
  · rw [advance_bind, advance_bind]
    refine mirrors_bind (he .lowest _ _ (h.advance hs.1) hs.advance) fun e q q' hq hqq' => ?_
    exact mirrors_bind (mirrors_skipSemicolon hqq' hq) fun _ r r' hr hrr' => ⟨hr, _, rfl, hrr'⟩

theorem mirrors_expressionStatement {p p' : Parser} (h : f.Twin p p') (hs : f.Safe p) :
    (expressionStatement (expression k) p).Mirrors f f.Safe (expressionStatement (expression k') p') := by
  rw [expressionStatement, expressionStatement, cur_bind, cur_bind, h.cur hs]
  refine mirrors_bind (he .lowest _ _ h hs) fun e q q' hq hqq' => ?_
  exact mirrors_bind (mirrors_skipSemicolon hqq' hq) fun _ r r' hr hrr' => ⟨hr, _, rfl, hrr'⟩

theorem mirrors_statement {p p' : Parser} (h : f.Twin p p') (hs : f.Safe p) :
    (statement k p).Mirrors f f.Safe (statement k' p') := by
  rw [statement, statement, statementWith, statementWith]
  refine mirrors_traced (fun _ m h => h.mark m) ?_
  rw [h.cur hs]
  have h := h.mark (.enter .statement p.cur) (.enter .statement p.cur)
  have hs := hs.mark (.enter .statement p.cur)
  rw [cur_bind, cur_bind, h.cur hs]
  generalize hk : (p.mark _).cur.kind = kind
  split
  · exact local_bindStatement he _ _ h ⟨hs, by rw [hk]; decide⟩
  · exact local_returnStatement he _ _ h ⟨hs, by rw [hk]; decide⟩
  · exact mirrors_expressionStatement he h hs

/-! ### Blocks -/

/-- Between the braces of a block the cursor never comes to the last semicolon. -/
theorem mirrors_blockStatements : ∀ (n n' : Nat) (p p' : Parser), n ≤ n' → f.Twin p p' → f.Safe p → f.Deep p →
    (blockStatements (statement k) n p).Mirrors f f.Inside (blockStatements (statement k') n' p')
  | 0, _, _, _, _, _, _, _ => trivial
  | n + 1, n' + 1, p, p', hn, h, hs, hd => by
    have hn := Nat.le_of_succ_le_succ hn
    have deep : ∀ {q : Parser}, p.Reaches q → f.Deep q := fun hq => hd.imp id fun hd => by
      have := hq.depth_le
      omega
    rw [blockStatements, blockStatements, cur_bind, cur_bind, h.cur hs]
    generalize hk : p.cur.kind = kind
    split
    · exact ⟨⟨hs, by rw [hk]; decide⟩, _, rfl, h⟩
    · exact mirrors_refuse h hs _
    · rw [look_bind, look_bind, h.depth]
      refine mirrors_attempt (mirrors_statement he h hs) (fun s q q' hrun hq hqq' => ?_) fun r r' hrun hr hrr' => ?_
      · have hreach := ((isPhrase_statement_all k p).of_done hrun).opens.reaches
        dsimp only
        rw [advance_bind, advance_bind]
        refine mirrors_bind (mirrors_blockStatements n n' _ _ hn (hqq'.advance hq)
          (hq.advance_of_depth (deep hreach)) (deep hreach)) fun rest t t' ht htt' => ?_
        exact ⟨ht, _, rfl, htt'⟩
      · have hreach := ((isPhrase_statement_all k p).of_malformed hrun).reaches.resume
        obtain ⟨h, hs⟩ := Frame.Twin.resume hs.depth_nonneg r r' hrr' hr
        dsimp only
        rw [resume_bind, resume_bind, cur_bind, cur_bind, h.cur hs]
        by_cases hc : (r.resume p.depth).cur.kind = .rbrace
        · rw [if_pos hc, if_pos hc]
          exact ⟨⟨hs, by rw [hc]; decide⟩, _, rfl, h⟩
        · have hadv : p.Reaches (r.resume p.depth).advance := hreach.advance fun h => absurd h hc
          rw [if_neg hc, if_neg hc, advance_bind, advance_bind]
          exact mirrors_blockStatements n n' _ _ hn (h.advance hs) (hs.advance_of_depth (deep hadv)) (deep hadv)

include hn

/-- A block starts where no brace is missing. -/
theorem mirrors_block {p p' : Parser} (h : f.Twin p p') (hs : f.Safe p) (hc : p.cur.kind = .lbrace) :
    (block (statement k) n p).Mirrors f f.Inside (block (statement k') n' p') := by
  have hd : f.Deep p.advance := hs.depth_nonneg.imp id fun hd => by
    rw [depth_advance, hc]
    exact Int.lt_add_one_of_le hd
  rw [block, block, cur_bind, cur_bind, h.cur hs, advance_bind, advance_bind]
  refine mirrors_bind (mirrors_blockStatements he n n' _ _ hn (h.advance hs) (hs.advance_of_depth hd) hd)
    fun statements q q' hq hqq' => ?_
  exact ⟨hq, _, rfl, hqq'⟩

/-! ### Operands -/

omit hn in
theorem mirrors_unary {p p' : Parser} (h : f.Twin p p') (hs : f.Inside p) (op : UnaryOp) :
    (unary (expression k) op p).Mirrors f f.Inside (unary (expression k') op p') := by
  rw [unary, unary]
  refine mirrors_traced (fun _ m h => h.mark m) ?_
  rw [h.cur hs.1]
  have h := h.mark (.enter .unary p.cur) (.enter .unary p.cur)
  have hs := hs.mark (.enter .unary p.cur)
  rw [cur_bind, cur_bind, h.cur hs.1, advance_bind, advance_bind]
  exact mirrors_bind (he .unary _ _ (h.advance hs.1) hs.advance) fun e q q' hq hqq' => ⟨hq, _, rfl, hqq'⟩

omit hn in
theorem local_grouped : Local f (grouped (expression k)) (grouped (expression k')) := by
  intro p p' h hs
  rw [grouped, grouped, advance_bind, advance_bind]
  refine mirrors_bind (he .lowest _ _ (h.advance hs.1) hs.advance) fun e q q' hq hqq' => ?_
  exact mirrors_expect hqq' hq (by decide) fun _ hs h => ⟨hs, _, rfl, h⟩

theorem local_cond : Local f (Parse.cond (expression k) n) (Parse.cond (expression k') n') := by
  intro p p' h hs
  rw [Parse.cond, Parse.cond, cur_bind, cur_bind, h.cur hs.1]
  refine mirrors_expect h hs (by decide) fun _ hs h => ?_
  rw [advance_bind, advance_bind]
  refine mirrors_bind (he .lowest _ _ (h.advance hs.1) hs.advance) fun c q q' hq hqq' => ?_
  refine mirrors_expect hqq' hq (by decide) fun _ hs h => ?_
  refine mirrors_expect h hs (by decide) fun hb hs h => ?_
  refine mirrors_bind (mirrors_block hn he h hs.1 hb) fun b r r' hr hrr' => ?_
  refine mirrors_peekIs hrr' hr (fun hw => ?_) fun _ => ⟨hr, _, rfl, hrr'⟩
  rw [advance_bind, advance_bind]
  have hs : f.Inside r.advance := ⟨hr.advance, by rw [cur_advance, hw]; decide⟩
  refine mirrors_expect (hrr'.advance hr.1) hs (by decide) fun hb hs h => ?_
  exact mirrors_bind (mirrors_block hn he h hs.1 hb) fun a t t' ht htt' => ⟨ht, _, rfl, htt'⟩

theorem local_fn : Local f (fn (expression k) n) (fn (expression k') n') := by
  intro p p' h hs
  rw [fn, fn, cur_bind, cur_bind, h.cur hs.1]
  refine mirrors_expect h hs (by decide) fun _ hs h => ?_
  refine mirrors_bind (local_items local_param (by decide) hn _ _ h hs) fun params q q' hq hqq' => ?_
  refine mirrors_expect hqq' hq (by decide) fun hb hs h => ?_
  exact mirrors_bind (mirrors_block hn he h hs.1 hb) fun b r r' hr hrr' => ⟨hr, _, rfl, hrr'⟩

theorem local_expressions {close : Kind} (hc : close ≠ .semicolon) :
    Local f (expressions (expression k) close n) (expressions (expression k') close n') := by
  refine local_items (fun p p' h hs => ?_) hc hn
  rw [advance_bind, advance_bind]
  exact he .lowest _ _ (h.advance hs.1) hs.advance

theorem local_array : Local f (array (expression k) n) (array (expression k') n') := by
  intro p p' h hs
  rw [array, array, cur_bind, cur_bind, h.cur hs.1]
  exact mirrors_bind (local_expressions hn he (by decide) p p' h hs) fun es q q' hq hqq' => ⟨hq, _, rfl, hqq'⟩

omit hn in
theorem local_hashPairs : ∀ (n n' : Nat), n ≤ n' → Local f (hashPairs (expression k) n) (hashPairs (expression k') n')
  | 0, _, _ => fun _ _ _ _ => trivial
  | n + 1, n' + 1, hn => fun p p' h hs => by
    rw [hashPairs, hashPairs]
    refine mirrors_peekIs h hs (fun _ => ⟨hs, _, rfl, h⟩) fun _ => ?_
    rw [advance_bind, advance_bind]
    refine mirrors_bind (he .lowest _ _ (h.advance hs.1) hs.advance) fun key q q' hq hqq' => ?_
    refine mirrors_expect hqq' hq (by decide) fun _ hs h => ?_
    rw [advance_bind, advance_bind]
    refine mirrors_bind (he .lowest _ _ (h.advance hs.1) hs.advance) fun value r r' hr hrr' => ?_
    have hrest : Local f (hashPairs (expression k) n >>= fun rest => pure ((key, value) :: rest))
        (hashPairs (expression k') n' >>= fun rest => pure ((key, value) :: rest)) := fun t t' htt' ht =>
      mirrors_bind (local_hashPairs n n' (Nat.le_of_succ_le_succ hn) t t' htt' ht) fun rest u u' hu huu' =>
        ⟨hu, _, rfl, huu'⟩
    refine mirrors_peekIs_bind hrr' hr (fun _ => ?_) fun _ => ?_
    · exact hrest r r' hrr' hr
    · exact mirrors_expect hrr' hr (by decide) fun _ hs h => hrest _ _ h hs

theorem local_hash : Local f (hash (expression k) n) (hash (expression k') n') := by
  intro p p' h hs
  rw [hash, hash, cur_bind, cur_bind, h.cur hs.1]
  refine mirrors_bind (local_hashPairs he n n' hn p p' h hs) fun pairs q q' hq hqq' => ?_
  exact mirrors_expect hqq' hq (by decide) fun _ hs h => ⟨hs, _, rfl, h⟩

/-- An operand is chosen before anything behind its first token is looked at. -/
theorem mirrors_operand {p p' : Parser} (h : f.Twin p p') (hs : f.Safe p) :
    (operand (expression k) n p).Mirrors f f.Inside (operand (expression k') n' p') := by
  rw [operand, operand, cur_bind, cur_bind, h.cur hs]
  generalize hk : p.cur.kind = kind
  have inside : kind ≠ .semicolon → f.Inside p := fun hne => ⟨hs, hk ▸ hne⟩
  split
  · exact ⟨inside (by decide), _, rfl, h⟩
  · rw [integer, cur_bind, cur_bind, h.cur hs]
    generalize integer? p.cur.literal = value?
    split
    · exact ⟨inside (by decide), _, rfl, h⟩
    · exact mirrors_refuse h hs _
  · exact ⟨inside (by decide), _, rfl, h⟩
  · exact ⟨inside (by decide), _, rfl, h⟩
  · exact ⟨inside (by decide), _, rfl, h⟩
  · exact mirrors_unary he h (inside (by decide)) _
  · exact mirrors_unary he h (inside (by decide)) _
  · exact local_grouped he p p' h (inside (by decide))
  · exact local_cond hn he p p' h (inside (by decide))
  · exact local_fn hn he p p' h (inside (by decide))
  · exact local_array hn he p p' h (inside (by decide))
  · exact local_hash hn he p p' h (inside (by decide))
  · exact mirrors_refuse h hs _

/-! ### Operators -/

theorem local_extend (left : Expr) : Local f (extend (expression k) n left) (extend (expression k') n' left) := by
  intro p p' h hs
  rw [extend, extend, cur_bind, cur_bind, h.cur hs.1]
  generalize p.cur.kind = kind
  split
  · rw [call, call, cur_bind, cur_bind, h.cur hs.1]
    exact mirrors_bind (local_expressions hn he (by decide) p p' h hs) fun es q q' hq hqq' => ⟨hq, _, rfl, hqq'⟩
  · rw [index, index, cur_bind, cur_bind, h.cur hs.1, advance_bind, advance_bind]
    refine mirrors_bind (he .lowest _ _ (h.advance hs.1) hs.advance) fun i q q' hq hqq' => ?_
    exact mirrors_expect hqq' hq (by decide) fun _ hs h => ⟨hs, _, rfl, h⟩
  · generalize BinaryOp.ofKind? kind = op?
    split
    · rw [binary, binary]
      refine mirrors_traced (fun _ m h => h.mark m) ?_
      rw [h.cur hs.1]
      have h := h.mark (.enter .binary p.cur) (.enter .binary p.cur)
      have hs := hs.mark (.enter .binary p.cur)
      rw [cur_bind, cur_bind, h.cur hs.1, advance_bind, advance_bind]
      exact mirrors_bind (he _ _ _ (h.advance hs.1) hs.advance) fun e q q' hq hqq' => ⟨hq, _, rfl, hqq'⟩
    · exact ⟨hs, _, rfl, h⟩

omit hn in
theorem local_climb (precedence : Precedence) : ∀ (n n' : Nat) (left : Expr), n ≤ n' →
    Local f (climb (expression k) precedence n left) (climb (expression k') precedence n' left)
  | 0, _, _, _ => fun _ _ _ _ => trivial
  | n + 1, n' + 1, left, hn => fun p p' h hs => by
    have hn := Nat.le_of_succ_le_succ hn
    rw [climb, climb, peek_bind, peek_bind, h.peek hs]
    by_cases hlt : precedence.rank < p.peek.kind.precedence.rank
    · obtain ⟨-, -, hne⟩ := Kind.operator_of_rank hlt
      rw [if_pos hlt, if_pos hlt, advance_bind, advance_bind]
      refine mirrors_bind (local_extend hn he left _ _ (h.advance hs.1) ⟨hs.advance, hne⟩) fun e q q' hq hqq' => ?_
      exact local_climb precedence n n' e hn q q' hqq' hq
    · rw [if_neg hlt, if_neg hlt]
      exact ⟨hs, _, rfl, h⟩

end

theorem mirrors_expression : ∀ (k k' : Nat) (precedence : Precedence) (p p' : Parser), k ≤ k' → f.Twin p p' →
    f.Safe p → (expression k precedence p).Mirrors f f.Inside (expression k' precedence p')
  | 0, _, _, _, _, _, _, _ => trivial
  | k + 1, k' + 1, precedence, p, p', hk, h, hs => by
    have hk := Nat.le_of_succ_le_succ hk
    have he : ∀ precedence p p', f.Twin p p' → f.Safe p →
        (expression k precedence p).Mirrors f f.Inside (expression k' precedence p') := fun precedence p p' =>
      mirrors_expression k k' precedence p p' hk
    rw [expression, expression]
    refine mirrors_traced (fun _ m h => h.mark m) ?_
    rw [h.cur hs]
    refine mirrors_bind (mirrors_operand hk he (h.mark _ _) (hs.mark _)) fun left q q' hq hqq' => ?_
    exact local_climb he precedence k k' left hk q q' hqq' hq

/-! ## Whole texts -/

/-- One step of the loop over the statements of a text. -/
theorem programStatements_done_iff {stmt : Parse Stmt} {n : Nat} {p q : Parser} {statements : List Stmt}
    (hend : p.cur.kind ≠ .eof) :
    programStatements stmt (n + 1) p = .done statements q ↔
      (∃ s r rest, stmt p = .done s r ∧ programStatements stmt n r.advance = .done rest q ∧ statements = s :: rest) ∨
        ∃ r, stmt p = .malformed r ∧ programStatements stmt n (r.resume p.depth).advance = .done statements q := by
  rw [programStatements, cur_bind, if_neg hend, look_bind, bind_eq_done]
  constructor
  · rintro ⟨s?, r, hattempt, h⟩
    rcases attempt_done hattempt with ⟨s, rfl, hrun⟩ | ⟨rfl, hrun⟩
    · dsimp only at h
      rw [advance_bind, bind_eq_done] at h
      obtain ⟨rest, t, hrest, h⟩ := h
      cases h
      exact .inl ⟨s, r, rest, hrun, hrest, rfl⟩
    · exact .inr ⟨r, hrun, h⟩
  · rintro (⟨s, r, rest, hrun, hrest, rfl⟩ | ⟨r, hrun, hrest⟩)
    · refine ⟨some s, r, by rw [attempt, hrun], ?_⟩
      dsimp only
      rw [advance_bind]
      exact bind_eq_done.2 ⟨rest, q, hrest, rfl⟩
    · exact ⟨none, r, by rw [attempt, hrun], hrest⟩

/-- What is read behind a sealed run is read from a parser that shows nothing of the run but its diagnostics. -/
structure Behind (f : Frame) (q r : Parser) : Prop where
  ahead : r.ahead = f.behind.getD []
  depth : r.depth = 0
  diagnostics : r.diagnostics = f.front ++ q.diagnostics
  endPos : r.endPos = f.endPos

/-- **The statements of a sealed run are read as if nothing stood behind it**, and then what stands behind it. -/
theorem programStatements_sealed {k k' : Nat} (hk : k ≤ k') (hb : f.behind ≠ none) : ∀ (n n' : Nat) (p p' q : Parser)
    (statements : List Stmt), n ≤ n' → p'.ahead.length + 2 ≤ n' → f.Twin p p' → p.Sealed →
      programStatements (statement k) n p = .done statements q →
        ∃ m r, (f.behind.getD []).length + 2 ≤ m ∧ Behind f q r ∧
          ∀ rest t, programStatements (statement k') m r = .done rest t →
            programStatements (statement k') n' p' = .done (statements ++ rest) t
  | n + 1, n' + 1, p, p', q, statements, hn, hlen, h, hp, hrun => by
    have hn := Nat.le_of_succ_le_succ hn
    have hs : f.Safe p := .of_some hb hp
    have hend : p.cur.kind ≠ .eof := fun hc => hp.ahead_ne (ahead_eq_nil_of_cur hp.noEnd hc)
    have hend' : p'.cur.kind ≠ .eof := by rw [h.cur hs]; exact hend
    have hmirror := mirrors_statement (fun precedence p p' => mirrors_expression k k' precedence p p' hk) h hs
    -- behind the statement the cursor is on the last semicolon, or the run goes on
    have next : ∀ (r r' : Parser) (ss : List Stmt), f.Twin r r' → f.Safe r → r.advance.ahead.length < p.ahead.length →
        programStatements (statement k) n r.advance = .done ss q →
          ∃ m t, (f.behind.getD []).length + 2 ≤ m ∧ Behind f q t ∧
            ∀ rest u, programStatements (statement k') m t = .done rest u →
              programStatements (statement k') n' r'.advance = .done (ss ++ rest) u := by
      intro r r' ss hrr' hr hlt hrest
      have hadv := hrr'.advance hr
      have hlen' : r'.advance.ahead.length + 2 ≤ n' := by
        rw [h.ahead, List.length_append] at hlen
        rw [hadv.ahead, List.length_append]; omega
      rcases hr.cases with ⟨hb', -⟩ | ⟨-, hsealed⟩
      · exact absurd hb' hb
      · rcases hsealed.cases with ⟨htail, hc, hd⟩ | ⟨-, hsealed⟩
        · have hnil : r.advance.ahead = [] := htail
          have hdone : ss = [] ∧ q = r.advance := by
            cases n with
            | zero => cases hrest
            | succ n =>
              rw [programStatements, cur_bind, if_pos (cur_of_ahead_nil hnil)] at hrest
              cases hrest
              exact ⟨rfl, rfl⟩
          obtain ⟨rfl, rfl⟩ := hdone
          have hahead : r'.advance.ahead = f.behind.getD [] := by rw [hadv.ahead, hnil]; rfl
          refine ⟨n', r'.advance, hahead ▸ hlen', ⟨hahead, ?_, hadv.diagnostics, hadv.endPos⟩, fun rest u hu => hu⟩
          rw [hadv.depth, depth_advance, hc, hd]; rfl
        · exact programStatements_sealed hk hb n n' _ _ q ss hn hlen' hadv hsealed hrest
    rcases (programStatements_done_iff hend).1 hrun with ⟨s, r, ss, hs₁, hrest, rfl⟩ | ⟨r, hs₁, hrest⟩
    · have hphrase := (isPhrase_statement_all k p).of_done hs₁
      rw [hs₁] at hmirror
      obtain ⟨hr, r', hs₂, hrr'⟩ := hmirror
      obtain ⟨m, t, hm, ht, hnext⟩ := next r r' ss hrr' hr hphrase.length_lt hrest
      refine ⟨m, t, hm, ht, fun rest u hu => ?_⟩
      exact (programStatements_done_iff hend').2 (.inl ⟨s, r', ss ++ rest, hs₂, hnext rest u hu, rfl⟩)
    · have hreach := ((isPhrase_statement_all k p).of_malformed hs₁).reaches.resume
      rw [hs₁] at hmirror
      obtain ⟨hr, r', hs₂, hrr'⟩ := hmirror
      obtain ⟨hrr', hr⟩ := Frame.Twin.resume (d := p.depth) (.inr hp.depth_nonneg) r r' hrr' hr
      have hlt : (r.resume p.depth).advance.ahead.length < p.ahead.length := by
        have := hreach.length_le
        have := List.length_pos_iff.2 hp.ahead_ne
        rw [ahead_advance, List.length_tail]; omega
      obtain ⟨m, t, hm, ht, hnext⟩ := next _ _ statements hrr' hr hlt hrest
      refine ⟨m, t, hm, ht, fun rest u hu => ?_⟩
      refine (programStatements_done_iff hend').2 (.inr ⟨r', hs₂, ?_⟩)
      rw [h.depth]
      exact hnext rest u hu

/-- A run to the end of the text does not depend on what has been found before, nor on the budget if there is enough. -/
theorem programStatements_front {k k' : Nat} (hk : k ≤ k') (hb : f.behind = none) : ∀ (n n' : Nat) (p p' q : Parser)
    (statements : List Stmt), n ≤ n' → f.Twin p p' → p.endPos = f.endPos →
      programStatements (statement k) n p = .done statements q →
        ∃ q', programStatements (statement k') n' p' = .done statements q' ∧ f.Twin q q'
  | n + 1, n' + 1, p, p', q, statements, hn, h, hp, hrun => by
    have hn := Nat.le_of_succ_le_succ hn
    have hs : f.Safe p := .of_none hb hp
    have hcur := h.cur hs
    by_cases hend : p.cur.kind = .eof
    · have hend' : p'.cur.kind = .eof := by rw [hcur]; exact hend
      rw [programStatements, cur_bind, if_pos hend] at hrun
      rw [programStatements, cur_bind, if_pos hend']
      cases hrun
      exact ⟨p', rfl, h⟩
    have hend' : p'.cur.kind ≠ .eof := by rw [hcur]; exact hend
    have hmirror := mirrors_statement (fun precedence p p' => mirrors_expression k k' precedence p p' hk) h hs
    have endPos : ∀ {r}, f.Safe r → r.advance.endPos = f.endPos := fun hr =>
      hr.cases.elim (fun h => h.2) fun h => absurd hb h.1
    rcases (programStatements_done_iff hend).1 hrun with ⟨s, r, ss, hs₁, hrest, rfl⟩ | ⟨r, hs₁, hrest⟩
    · rw [hs₁] at hmirror
      obtain ⟨hr, r', hs₂, hrr'⟩ := hmirror
      obtain ⟨q', hq', hqq'⟩ := programStatements_front hk hb n n' _ _ q ss hn (hrr'.advance hr) (endPos hr) hrest
      exact ⟨q', (programStatements_done_iff hend').2 (.inl ⟨s, r', ss, hs₂, hq', rfl⟩), hqq'⟩
    · rw [hs₁] at hmirror
      obtain ⟨hr, r', hs₂, hrr'⟩ := hmirror
      obtain ⟨hrr', hr⟩ := Frame.Twin.resume (d := p.depth) (.inl hb) r r' hrr' hr
      obtain ⟨q', hq', hqq'⟩ :=
        programStatements_front hk hb n n' _ _ q statements hn (hrr'.advance hr) (endPos hr) hrest
      refine ⟨q', (programStatements_done_iff hend').2 (.inr ⟨r', hs₂, ?_⟩), hqq'⟩
      rw [h.depth]
      exact hq'

end Parse

/-- What ends on a semicolon outside all braces is read as if nothing stood behind it. -/
theorem Parsed.ofStream_of_sealed {ts us : List Token} {e e' : Pos} (hsealed : (Parser.ofStream ⟨ts, e'⟩).Sealed) :
    (ofStream ⟨ts ++ us, e⟩).program.statements =
        (ofStream ⟨ts, e'⟩).program.statements ++ (ofStream ⟨us, e⟩).program.statements ∧
      (ofStream ⟨ts ++ us, e⟩).diagnostics = (ofStream ⟨ts, e'⟩).diagnostics ++ (ofStream ⟨us, e⟩).diagnostics := by
  obtain ⟨ss, q, hts, -, hq⟩ := ofStream_eq ⟨ts, e'⟩
  obtain ⟨ss', r, hus, -, hr⟩ := ofStream_eq ⟨us, e⟩
  obtain ⟨ss'', t, hall, -, ht⟩ := ofStream_eq ⟨ts ++ us, e⟩
  -- the whole text beside the first part, up to the semicolon that ends it
  have hfirst : Frame.Twin ⟨[], some us, e⟩ (.ofStream ⟨ts, e'⟩) (.ofStream ⟨ts ++ us, e⟩) := ⟨rfl, rfl, rfl, rfl⟩
  have hbudget : (Parser.ofStream ⟨ts, e'⟩).budget ≤ (Parser.ofStream ⟨ts ++ us, e⟩).budget := by
    show ts.length + 2 ≤ (ts ++ us).length + 2
    rw [List.length_append]; omega
  obtain ⟨m, p, hm, hp, hfollow⟩ :=
    Parse.programStatements_sealed hbudget (by simp) _ _ _ _ q ss hbudget (Nat.le_refl _) hfirst hsealed hts
  -- and from there on beside the second part
  have hsecond : Frame.Twin ⟨q.diagnostics, none, e⟩ (.ofStream ⟨us, e⟩) p :=
    ⟨hp.ahead.trans (List.append_nil us).symm, hp.depth, hp.diagnostics.trans (List.append_nil _).symm, hp.endPos⟩
  have hbudget' : (Parser.ofStream ⟨us, e⟩).budget ≤ (Parser.ofStream ⟨ts ++ us, e⟩).budget := by
    show us.length + 2 ≤ (ts ++ us).length + 2
    rw [List.length_append]; omega
  obtain ⟨r', hr', hrr'⟩ := Parse.programStatements_front hbudget' rfl _ _ _ _ r ss' hm hsecond rfl hus
  have hsame := hall.symm.trans (hfollow ss' r' hr')
  cases hsame
  rw [hq, hr, ht]
  exact ⟨rfl, hrr'.diagnostics⟩

theorem Parser.sealed_ofStream {ts : List Token} {e : Pos} (hnested : Nested ts) (hbraces : braces ts = 0)
    (hend : ∀ t ∈ ts, t.kind ≠ .eof) (hlast : ts.getLast?.map (·.kind) = some .semicolon) :
    (Parser.ofStream ⟨ts, e⟩).Sealed := by
  obtain ⟨t₁, ht₁, hkind⟩ := Option.map_eq_some_iff.1 hlast
  obtain ⟨init, hinit⟩ := List.getLast?_eq_some_iff.1 ht₁
  refine ⟨⟨init, t₁, hinit, hkind⟩, hend, fun vs hvs => ?_, (Int.zero_add _).trans hbraces⟩
  exact (Int.zero_add _).symm ▸ hnested vs hvs

/-- **Errors stay local.**  If the braces of a text are well nested and it ends on a semicolon, then parsing it with
another text behind it gives the statements of the one and those of the other, and the diagnostics likewise. -/
theorem Parsed.ofStream_append {ts us : List Token} {e e' : Pos} (hnested : Nested ts) (hbraces : braces ts = 0)
    (hend : ∀ t ∈ ts, t.kind ≠ .eof) (hlast : ts.getLast?.map (·.kind) = some .semicolon) :
    (ofStream ⟨ts ++ us, e⟩).program.statements =
        (ofStream ⟨ts, e'⟩).program.statements ++ (ofStream ⟨us, e⟩).program.statements ∧
      (ofStream ⟨ts ++ us, e⟩).diagnostics = (ofStream ⟨ts, e'⟩).diagnostics ++ (ofStream ⟨us, e⟩).diagnostics :=
  ofStream_of_sealed (Parser.sealed_ofStream hnested hbraces hend hlast)

/-- Behind two malformed statements a third is read, and a fault behind it reported, as if the two were not there. -/
theorem Parsed.ofStream_append_malformed :
    let ts := (TokenStream.ofSource "let \x7b a b \x7d; f(;").ahead
    let us := (TokenStream.ofSource "g; \x7d").ahead
    (Nested ts ∧ braces ts = 0) ∧
      (ofStream ⟨ts ++ us, .start⟩).program.statements =
        (ofStream ⟨ts, .start⟩).program.statements ++ (ofStream ⟨us, .start⟩).program.statements ∧
      (ofStream ⟨ts ++ us, .start⟩).diagnostics =
        (ofStream ⟨ts, .start⟩).diagnostics ++ (ofStream ⟨us, .start⟩).diagnostics := by
  intro ts us
  have hnested : Nested ts := by decide
  have hbraces : braces ts = 0 := by decide
  exact ⟨⟨hnested, hbraces⟩, ofStream_append hnested hbraces (by decide) rfl⟩

end Monkey
