import Monkey.Proofs.Readback
/-!
# Reading at a precedence

What the parser makes of lexemes that spell an expression, a statement or a block, whichever of several spellings they
are.  A spelling of an expression has a precedence (`Expr.Climbs`), that of the loosest operator outside all its
brackets; at any looser precedence the parser reads it whole, and up to no operator that binds tighter.  There is one
statement for each kind of node, from the spellings of its parts to that of the node.
-/
namespace Monkey

open Monkey.Parser Parse

/-- The kinds that an expression may begin with. -/
def Kind.begins : Kind → Bool
  | .ident | .int | .string | .trueWord | .falseWord | .bang | .minus | .lparen | .ifWord | .fnWord | .lbracket
  | .lbrace => true
  | _ => false

/-- The parser comes to stand behind an expression that these lexemes spell, and climbs on from there.  A prefix
operator reads its operand at its own precedence, so a spelling of this precedence is read whole wherever operators
are. -/
structure Expr.Climbs (e : Expr) (level : Precedence) (ls : List Lexeme) : Prop where
  bound : Precedence.lowest.rank < level.rank
  begins : ∀ rest, (leading (ls ++ rest)).begins = true
  climbs : ∀ (k n m : Nat) (precedence : Precedence) (p : Parser) (rest : List Lexeme) (D : Expr → Parser → Prop),
    precedence.rank < Precedence.call.rank → (precedence.rank < level.rank ∨ level = .unary) →
    (leading rest).precedence.rank ≤ level.rank → leading rest ≠ .elseWord → p.Shows (ls ++ rest) →
      (∀ e' q n, e'.erase = e.erase → q.advance.Shows rest →
        (climb (expression k) precedence n e' q).Succeeds D) →
      ((operand (expression k) m >>= fun left => climb (expression k) precedence n left) p).Succeeds D

/-- The parser reads an expression back from lexemes that spell it, at some precedence. -/
def Expr.ReadsBack (e : Expr) (ls : List Lexeme) : Prop := ∃ level, e.Climbs level ls

/-! ## Expressions -/

theorem UnaryOp.begins (op : UnaryOp) : op.kind.begins = true := by cases op <;> rfl

theorem UnaryOp.operand_eq {op : UnaryOp} {k m : Nat} {p : Parser} (hp : p.cur.kind = op.kind) :
    operand (expression k) m p = Parse.unary (expression k) op p := by
  rw [operand, cur_bind, hp]
  cases op <;> rfl

theorem BinaryOp.extend_eq {op : BinaryOp} {k n : Nat} {e : Expr} {p : Parser} (hp : p.cur.kind = op.kind) :
    extend (expression k) n e p = Parse.binary (expression k) op e p := by
  rw [extend, cur_bind, hp]
  cases op <;> rfl

namespace Parse

theorem holds_climb_stop {k : Nat} {precedence : Precedence} {n : Nat} {e : Expr} {q : Parser} {rest : List Lexeme}
    {D : Expr → Parser → Prop} (hstop : (leading rest).precedence.rank ≤ precedence.rank) (h : q.advance.Shows rest)
    (hD : D e q) : (climb (expression k) precedence n e q).Succeeds D := by
  cases n with
  | zero => trivial
  | succ n =>
    have hpeek : q.peek.kind = leading rest := h.cur
    rw [climb, peek_bind, if_neg (by rw [hpeek]; exact Nat.not_lt.2 hstop)]
    exact hD

end Parse

theorem Expr.Climbs.expression {e : Expr} {level : Precedence} {ls : List Lexeme} (he : e.Climbs level ls) {k : Nat}
    {precedence : Precedence} {p : Parser} {rest : List Lexeme} (hp : precedence.rank < Precedence.call.rank)
    (hlevel : precedence.rank < level.rank ∨ level = .unary) (hstop : (leading rest).precedence.rank ≤ precedence.rank)
    (hrest : leading rest ≠ .elseWord) (h : p.Shows (ls ++ rest)) :
    Parse.ReadsBack Expr.erase e rest (Parse.expression k precedence p) := by
  have hle : (leading rest).precedence.rank ≤ level.rank := by
    rcases hlevel with hlt | rfl
    · omega
    · exact Nat.le_trans hstop (Nat.le_of_lt_succ hp)
  cases k with
  | zero => trivial
  | succ k =>
    rw [Parse.expression]
    refine shows_traced ?_
    refine he.climbs k k k precedence _ rest _ hp hlevel hle hrest (h.mark _) fun e' q n he' hq => ?_
    exact holds_climb_stop hstop hq ⟨he', hq⟩

/-- At the lowest precedence a spelling is read up to what ends an expression. -/
theorem Expr.ReadsBack.expression {e : Expr} {ls : List Lexeme} (he : e.ReadsBack ls) {k : Nat} {p : Parser}
    {rest : List Lexeme} (hends : Ends rest) (h : p.Shows (ls ++ rest)) :
    Parse.ReadsBack Expr.erase e rest (Parse.expression k .lowest p) := by
  obtain ⟨level, he⟩ := he
  exact he.expression (by decide) (.inl he.bound) (Nat.le_of_eq (congrArg _ hends.1)) hends.2 h

theorem Expr.ReadsBack.begins {e : Expr} {ls : List Lexeme} (he : e.ReadsBack ls) (rest : List Lexeme) :
    (leading (ls ++ rest)).begins = true := by
  obtain ⟨level, he⟩ := he
  exact he.begins rest

/-- An operand that is read back whole. -/
theorem Expr.climbs_of_operand {e : Expr} {ls : List Lexeme} (hbegins : ∀ rest, (leading (ls ++ rest)).begins = true)
    (he : ∀ (k m : Nat) (p : Parser) (rest : List Lexeme), leading rest ≠ .elseWord → p.Shows (ls ++ rest) →
      Parse.ReadsBack Expr.erase e rest (operand (Parse.expression k) m p)) : e.Climbs .index ls where
  bound := by decide
  begins := hbegins
  climbs k n m _ p rest _ _ _ _ hrest h hD := holds_then (he k m p rest hrest h) fun e' q hq => hD e' q n hq.1 hq.2

section

variable {pos : Pos} {e f : Expr} {level level' : Precedence} {ls ls' : List Lexeme}

theorem Expr.ReadsBack.grouped (he : e.ReadsBack ls) : e.Climbs .index (.fixed .lparen :: (ls ++ [.fixed .rparen])) := by
  refine Expr.climbs_of_operand (fun _ => rfl) fun k m p rest _ h => ?_
  rw [List.cons_append, List.append_assoc] at h
  rw [operand, cur_bind, h.cur]
  show (Parse.grouped (Parse.expression k) p).Holds _ _ _
  rw [Parse.grouped, advance_bind]
  refine holds_then (he.expression (ends_cons (by decide)) h.advance) fun e' q hq => ?_
  exact shows_expect hq.2 fun h => ⟨hq.1, h⟩

theorem Expr.Climbs.unary {op : UnaryOp} (he : e.Climbs level ls) (hlevel : Precedence.unary.rank ≤ level.rank) :
    (Expr.unary pos op e).Climbs .unary (.fixed op.kind :: ls) where
  bound := by decide
  begins _ := op.begins
  climbs k n m precedence p rest D _ _ hle hrest h hD := by
    have htight : Precedence.unary.rank < level.rank ∨ level = .unary := by
      revert hlevel
      cases level <;> decide
    refine holds_then (C := fun g r => g.erase = (Expr.unary pos op e).erase ∧ r.advance.Shows rest) ?_
      fun g r hr => hD g r n hr.1 hr.2
    rw [op.operand_eq h.cur, Parse.unary]
    refine shows_traced ?_
    rw [cur_bind, advance_bind]
    refine holds_then (he.expression (by decide) htight hle hrest (h.mark _).advance) fun e' q hq => ?_
    exact ⟨by rw [Expr.erase, Expr.erase, hq.1], hq.2⟩

theorem Expr.Climbs.binary {op : BinaryOp} (he : e.Climbs level ls) (hf : f.Climbs level' ls')
    (hlevel : op.kind.precedence.rank ≤ level.rank) (hlevel' : op.kind.precedence.rank < level'.rank) :
    (Expr.binary pos op e f).Climbs op.kind.precedence (ls ++ .fixed op.kind :: ls') where
  bound := by cases op <;> decide
  begins rest := by
    rw [List.append_assoc]
    exact he.begins _
  climbs k n m precedence p rest D hp htight hle hrest h hD := by
    have hlt : precedence.rank < op.kind.precedence.rank := by
      refine htight.resolve_right ?_
      cases op <;> decide
    have hop : op.kind.precedence.rank < Precedence.call.rank := by cases op <;> decide
    rw [List.append_assoc, List.cons_append] at h
    -- the climb behind the left operand reads this operator and goes on behind the right one
    refine he.climbs k n m precedence p (.fixed op.kind :: (ls' ++ rest)) D hp (.inl (Nat.lt_of_lt_of_le hlt hlevel))
      hlevel (by cases op <;> exact nofun) h fun e' q n he' hq => ?_
    cases n with
    | zero => trivial
    | succ n =>
      have hpeek : q.peek.kind = op.kind := hq.cur
      rw [climb, peek_bind, if_pos (by rw [hpeek]; exact hlt), advance_bind]
      refine holds_then (C := fun g r => g.erase = (Expr.binary pos op e f).erase ∧ r.advance.Shows rest) ?_
        fun g r hr => hD g r n hr.1 hr.2
      rw [op.extend_eq ((cur_advance q).symm ▸ hpeek), Parse.binary]
      refine shows_traced ?_
      rw [cur_bind, advance_bind]
      refine holds_then (hf.expression hop (.inl hlevel') hle hrest (hq.mark _).advance) fun f' r hr => ?_
      exact ⟨by rw [Expr.erase, Expr.erase, he', hr.1], hr.2⟩

theorem Expr.Climbs.index (he : e.Climbs .index ls) (hf : f.ReadsBack ls') :
    (Expr.index pos e f).Climbs .index (ls ++ .fixed .lbracket :: (ls' ++ [.fixed .rbracket])) where
  bound := by decide
  begins rest := by
    rw [List.append_assoc]
    exact he.begins _
  climbs k n m precedence p rest D hp htight _ _ h hD := by
    rw [List.append_assoc, List.cons_append, List.append_assoc] at h
    refine he.climbs k n m precedence p _ D hp htight (Nat.le_refl _) (by exact nofun) h fun e' q n he' hq => ?_
    cases n with
    | zero => trivial
    | succ n =>
      have hpeek : q.peek.kind = .lbracket := hq.cur
      rw [climb, peek_bind, if_pos (by rw [hpeek]; exact Nat.lt_succ_of_lt hp), advance_bind]
      refine holds_then (C := fun g r => g.erase = (Expr.index pos e f).erase ∧ r.advance.Shows rest) ?_
        fun g r hr => hD g r n hr.1 hr.2
      rw [extend, cur_bind, cur_advance, hpeek]
      show (Parse.index (Parse.expression k) e' q.advance).Holds _ _ _
      rw [Parse.index, cur_bind, advance_bind]
      refine holds_then (hf.expression (ends_cons (by decide)) hq.advance) fun f' r hr => ?_
      refine shows_expect hr.2 fun h => ?_
      exact ⟨by rw [Expr.erase, Expr.erase, he', hr.1], h⟩

end

section

variable {spell : Expr → List Lexeme}

/-- The lexemes of a pair of a hash literal. -/
def spelledPair (spell : Expr → List Lexeme) (pair : Expr × Expr) : List Lexeme :=
  spell pair.1 ++ .fixed .colon :: spell pair.2

theorem readsBack_expressions {close : Kind} (hclose : close.precedence = .lowest ∧ close ≠ .elseWord)
    (hcomma : close ≠ .comma) (hbegins : close.begins = false) {es : List Expr}
    (he : ∀ e ∈ es, e.ReadsBack (spell e)) (k n : Nat) {p : Parser} {rest : List Lexeme}
    (h : p.advance.Shows (joined .comma (es.map spell) ++ .fixed close :: rest)) :
    (expressions (expression k) close n p).Succeeds
      (fun es' q => Expr.eraseAll es' = Expr.eraseAll es ∧ q.advance.Shows rest) := by
  simp only [Expr.eraseAll_eq]
  refine readsBack_items hclose hcomma (fun e hmem p rest hends h => ?_) (fun e hmem rest hc => ?_) n h
  · rw [advance_bind]
    exact (he e hmem).expression hends h
  · have := (he e hmem).begins rest
    rw [hc, hbegins] at this
    cases this

theorem Expr.climbs_array {pos : Pos} {es : List Expr} (he : ∀ e ∈ es, e.ReadsBack (spell e)) :
    (Expr.array pos es).Climbs .index (.fixed .lbracket :: (joined .comma (es.map spell) ++ [.fixed .rbracket])) := by
  refine Expr.climbs_of_operand (fun _ => rfl) fun k m p rest _ h => ?_
  rw [List.cons_append, List.append_assoc] at h
  rw [operand, cur_bind, h.cur]
  show (Parse.array (expression k) m p).Holds _ _ _
  rw [Parse.array, cur_bind]
  refine holds_then (readsBack_expressions (by decide) (by decide) rfl he k m h.advance) fun es' q hq => ?_
  exact ⟨by rw [Expr.erase, Expr.erase, hq.1], hq.2⟩

theorem Expr.Climbs.call {pos : Pos} {e : Expr} {ls : List Lexeme} {es : List Expr} (he : e.Climbs .index ls)
    (hes : ∀ e ∈ es, e.ReadsBack (spell e)) : (Expr.call pos e es).Climbs .index
      (ls ++ .fixed .lparen :: (joined .comma (es.map spell) ++ [.fixed .rparen])) where
  bound := by decide
  begins rest := by
    rw [List.append_assoc]
    exact he.begins _
  climbs k n m precedence p rest D hp htight _ _ h hD := by
    rw [List.append_assoc, List.cons_append, List.append_assoc] at h
    refine he.climbs k n m precedence p _ D hp htight (Nat.le_succ _) (by exact nofun) h fun e' q n he' hq => ?_
    cases n with
    | zero => trivial
    | succ n =>
      have hpeek : q.peek.kind = .lparen := hq.cur
      rw [climb, peek_bind, if_pos (by rw [hpeek]; exact hp), advance_bind]
      refine holds_then (C := fun g r => g.erase = (Expr.call pos e es).erase ∧ r.advance.Shows rest) ?_
        fun g r hr => hD g r n hr.1 hr.2
      rw [extend, cur_bind, cur_advance, hpeek]
      show (Parse.call (Parse.expression k) n e' q.advance).Holds _ _ _
      rw [Parse.call, cur_bind]
      refine holds_then (readsBack_expressions (by decide) (by decide) rfl hes k n hq.advance) fun es' r hr => ?_
      exact ⟨by rw [Expr.erase, Expr.erase, he', hr.1], hr.2⟩

theorem readsBack_hashPairs (k : Nat) : ∀ (pairs : List (Expr × Expr))
    (_ : ∀ pair ∈ pairs, pair.1.ReadsBack (spell pair.1) ∧ pair.2.ReadsBack (spell pair.2)) (n : Nat) (p : Parser)
    (rest : List Lexeme),
    p.advance.Shows (joined .comma (pairs.map (spelledPair spell)) ++ .fixed .rbrace :: rest) →
      (hashPairs (expression k) n p).Succeeds
        (fun pairs' q => Expr.erasePairs pairs' = Expr.erasePairs pairs ∧ q.advance.Shows (.fixed .rbrace :: rest))
  | _, _, 0, _, _, _ => trivial
  | [], _, n + 1, p, rest, h => by
    rw [hashPairs]
    exact holds_peekIs (fun _ => ⟨rfl, h⟩) fun hp => absurd h.cur hp
  | (key, value) :: pairs, hpairs, n + 1, p, rest, h => by
    obtain ⟨hkey, hvalue⟩ := hpairs (key, value) List.mem_cons_self
    have hrest := readsBack_hashPairs k pairs (fun pair hpair => hpairs pair (List.mem_cons_of_mem _ hpair)) n
    have done : ∀ (key' value' : Expr) (t : Parser), key'.erase = key.erase → value'.erase = value.erase →
        t.advance.Shows (joined .comma (pairs.map (spelledPair spell)) ++ .fixed .rbrace :: rest) →
        ((hashPairs (expression k) n >>= fun rest => pure ((key', value') :: rest)) t).Succeeds
          (fun pairs' q => Expr.erasePairs pairs' = Expr.erasePairs ((key, value) :: pairs) ∧
            q.advance.Shows (.fixed .rbrace :: rest)) := fun key' value' t hk hv ht => by
      refine holds_then (hrest t rest ht) fun pairs' u hu => ?_
      exact ⟨by rw [Expr.erasePairs, Expr.erasePairs, hk, hv, hu.1], hu.2⟩
    rw [List.map_cons, joined_cons, spelledPair, List.append_assoc, List.append_assoc, List.cons_append] at h
    have hbegins := hkey.begins (.fixed .colon :: (spell value ++
      ((pairs.map (spelledPair spell)).flatMap (fun y => .fixed .comma :: y) ++ .fixed .rbrace :: rest)))
    rw [hashPairs]
    refine holds_peekIs (fun hp => ?_) fun _ => ?_
    · rw [← h.cur, cur_advance, hp] at hbegins; cases hbegins
    rw [advance_bind]
    refine holds_then (hkey.expression (ends_cons (by decide)) h) fun key' q hq => ?_
    refine shows_expect hq.2 fun h => ?_
    rw [advance_bind]
    -- a comma behind the value is read with the pair before it, not with the one behind it
    cases pairs with
    | nil =>
      refine holds_then (hvalue.expression (ends_cons (by decide)) h) fun value' r hr => ?_
      exact holds_peekIs_bind (fun _ => done _ _ r hq.1 hr.1 hr.2) fun hp => absurd hr.2.cur hp
    | cons pair pairs =>
      rw [List.map_cons, List.flatMap_cons, List.cons_append, List.cons_append] at h
      refine holds_then (hvalue.expression (ends_cons (by decide)) h) fun value' r hr => ?_
      refine holds_peekIs_bind (fun hp => ?_) fun _ => ?_
      · have := hr.2.cur.symm.trans hp
        cases this
      · refine shows_expect hr.2 fun h => done _ _ _ hq.1 hr.1 ?_
        rw [List.map_cons, joined_cons]
        exact h

theorem Expr.climbs_hash {pos : Pos} {pairs : List (Expr × Expr)}
    (hpairs : ∀ pair ∈ pairs, pair.1.ReadsBack (spell pair.1) ∧ pair.2.ReadsBack (spell pair.2)) :
    (Expr.hash pos pairs).Climbs .index
      (.fixed .lbrace :: (joined .comma (pairs.map (spelledPair spell)) ++ [.fixed .rbrace])) := by
  refine Expr.climbs_of_operand (fun _ => rfl) fun k m p rest _ h => ?_
  rw [List.cons_append, List.append_assoc] at h
  rw [operand, cur_bind, h.cur]
  show (Parse.hash (expression k) m p).Holds _ _ _
  rw [Parse.hash, cur_bind]
  refine holds_then (readsBack_hashPairs k pairs hpairs m p rest h.advance) fun pairs' q hq => ?_
  refine shows_expect hq.2 fun h => ?_
  exact ⟨by rw [Expr.erase, Expr.erase, hq.1], h⟩

end

/-! ## Statements and blocks -/

/-- What a statement leaves: a semicolon behind it belongs to it. -/
def afterSemicolon : List Lexeme → List Lexeme
  | [] => []
  | l :: ls => if l.kind = .semicolon then ls else l :: ls

/-- A statement ends here. -/
def StatementEnds (ls : List Lexeme) : Prop := leading ls = .semicolon ∨ leading ls = .rbrace ∨ leading ls = .eof

theorem StatementEnds.ends {ls : List Lexeme} (h : StatementEnds ls) : Ends ls := by
  unfold Ends
  rcases h with h | h | h <;> rw [h] <;> decide

theorem shows_skipSemicolon {q : Parser} {rest : List Lexeme} (h : q.advance.Shows rest) :
    (skipSemicolon q).Succeeds (fun _ r => r.advance.Shows (afterSemicolon rest)) := by
  rw [skipSemicolon]
  have hpeek : q.peek.kind = leading rest := h.cur
  cases rest with
  | nil =>
    refine holds_peekIs (fun hp => ?_) fun _ => h
    rw [hpeek] at hp; cases hp
  | cons l rest =>
    refine holds_peekIs (fun hp => ?_) fun hp => ?_
    · rw [show afterSemicolon (l :: rest) = rest from if_pos (hpeek.symm.trans hp)]; exact h.advance
    · rw [show afterSemicolon (l :: rest) = l :: rest from if_neg fun hk => hp (hpeek.trans hk)]; exact h

/-- The parser reads a statement back from lexemes that spell it. -/
structure Stmt.ReadsBack (s : Stmt) (ls : List Lexeme) : Prop where
  begins : ∀ rest, leading (ls ++ rest) = .letWord ∨ leading (ls ++ rest) = .returnWord ∨
    (leading (ls ++ rest)).begins = true
  statement : ∀ (k : Nat) (p : Parser) (rest : List Lexeme), StatementEnds rest → p.Shows (ls ++ rest) →
    Parse.ReadsBack Stmt.erase s (afterSemicolon rest) (statement k p)

/-- The parser reads a block back from lexemes that spell it. -/
structure Block.ReadsBack (b : Block) (ls : List Lexeme) : Prop where
  begins : ∀ rest, leading (ls ++ rest) = .lbrace
  block : ∀ (k n : Nat) (p : Parser) (rest : List Lexeme), p.Shows (ls ++ rest) →
    Parse.ReadsBack Block.erase b rest (block (statement k) n p)

theorem Expr.ReadsBack.statement {t : Token} {e : Expr} {ls : List Lexeme} (he : e.ReadsBack ls) :
    (Stmt.expr t e).ReadsBack ls where
  begins rest := .inr (.inr (he.begins rest))
  statement k p rest hends h := by
    rw [Parse.statement, statementWith]
    refine shows_traced ?_
    have h := h.mark (.enter .statement p.cur)
    have hbegins := he.begins rest
    have hcur : (p.mark (.enter .statement p.cur)).cur.kind = leading (ls ++ rest) := h.cur
    rw [cur_bind]
    generalize (p.mark (.enter .statement p.cur)).cur.kind = kind at hcur
    rw [← hcur] at hbegins
    split
    · cases hbegins
    · cases hbegins
    · rw [expressionStatement, cur_bind]
      refine holds_then (he.expression hends.ends h) fun e' q hq => ?_
      refine holds_then (shows_skipSemicolon hq.2) fun _ r hr => ?_
      exact ⟨by rw [Stmt.erase, Stmt.erase, hq.1], hr⟩

theorem Expr.ReadsBack.bind {pos : Pos} {x : Ident} {e : Expr} {ls : List Lexeme} (he : e.ReadsBack ls) :
    (Stmt.bind pos x e).ReadsBack (.fixed .letWord :: x.lexeme :: .fixed .assign :: ls) where
  begins _ := .inl rfl
  statement k p rest hends h := by
    rw [Parse.statement, statementWith]
    refine shows_traced ?_
    have h := h.mark (.enter .statement p.cur)
    rw [cur_bind, h.cur]
    show (bindStatement (Parse.expression k) _).Holds _ _ _
    rw [bindStatement, cur_bind]
    refine holds_expect (fun hne => hne h.advance.cur) fun _ => ?_
    rw [name_bind]
    have hname : (p.mark (.enter .statement p.cur)).advance.cur.literal = x.name := h.advance.literal
    refine shows_expect h.advance.advance fun h => ?_
    rw [advance_bind]
    refine holds_then (he.expression hends.ends h) fun e' q hq => ?_
    refine holds_then (shows_skipSemicolon hq.2) fun _ r hr => ?_
    exact ⟨by rw [Stmt.erase, Stmt.erase, hq.1, Ident.erase, Ident.erase, hname], hr⟩

theorem Stmt.readsBack_ret {pos : Pos} : (Stmt.ret pos none).ReadsBack [.fixed .returnWord] where
  begins _ := .inr (.inl rfl)
  statement k p rest hends h := by
    rw [Parse.statement, statementWith]
    refine shows_traced ?_
    have h := h.mark (.enter .statement p.cur)
    have hpeek : (p.mark (.enter .statement p.cur)).peek.kind = leading rest := h.advance.cur
    rw [cur_bind, h.cur]
    show (returnStatement (expression k) _).Holds _ _ _
    rw [returnStatement, cur_bind, peek_bind, hpeek]
    have hbare := holds_then (f := fun _ => pure (Stmt.ret (p.mark (.enter .statement p.cur)).cur.pos none))
      (D := fun s' q => s'.erase = (Stmt.ret pos none).erase ∧ q.advance.Shows (afterSemicolon rest))
      (shows_skipSemicolon h.advance) fun _ r hr => ⟨by rw [Stmt.erase, Stmt.erase], hr⟩
    rcases hends with hk | hk | hk
    · rw [hk]; exact hbare
    · rw [hk]; exact hbare
    · rw [hk]; exact hbare

theorem Expr.ReadsBack.ret {pos : Pos} {e : Expr} {ls : List Lexeme} (he : e.ReadsBack ls) :
    (Stmt.ret pos (some e)).ReadsBack (.fixed .returnWord :: ls) where
  begins _ := .inr (.inl rfl)
  statement k p rest hends h := by
    rw [Parse.statement, statementWith]
    refine shows_traced ?_
    have h := h.mark (.enter .statement p.cur)
    have hpeek : (p.mark (.enter .statement p.cur)).peek.kind = leading (ls ++ rest) := h.advance.cur
    have hbegins := he.begins rest
    rw [cur_bind, h.cur]
    show (returnStatement (Parse.expression k) _).Holds _ _ _
    rw [returnStatement, cur_bind, peek_bind]
    rw [← hpeek] at hbegins
    generalize (p.mark (.enter .statement p.cur)).peek.kind = kind at hbegins
    split
    · cases hbegins
    · cases hbegins
    · cases hbegins
    · rw [advance_bind]
      refine holds_then (he.expression hends.ends h.advance) fun e' q hq => ?_
      refine holds_then (shows_skipSemicolon hq.2) fun _ r hr => ?_
      exact ⟨by rw [Stmt.erase, Stmt.erase, hq.1], hr⟩

/-- Behind a statement comes the next one, or what ends the sequence. -/
theorem afterSemicolon_flatMap {xs : List (List Lexeme)} {tail : List Lexeme} (h : leading tail ≠ .semicolon) :
    afterSemicolon (xs.flatMap (fun y => .fixed .semicolon :: y) ++ tail) = joined .semicolon xs ++ tail := by
  cases xs with
  | nil =>
    cases tail with
    | nil => rfl
    | cons l tail => exact if_neg h
  | cons x xs =>
    rw [joined_cons, List.flatMap_cons, List.cons_append, List.cons_append, List.append_assoc]
    rfl

theorem statementEnds_flatMap {xs : List (List Lexeme)} {tail : List Lexeme}
    (h : leading tail = .rbrace ∨ leading tail = .eof) :
    StatementEnds (xs.flatMap (fun y => .fixed .semicolon :: y) ++ tail) := by
  cases xs with
  | nil => exact .inr h
  | cons x xs => exact .inl rfl

theorem readsBack_blockStatements {spell : Stmt → List Lexeme} (k : Nat) : ∀ (statements : List Stmt)
    (_ : ∀ s ∈ statements, s.ReadsBack (spell s)) (n : Nat) (p : Parser) (rest : List Lexeme),
    p.Shows (joined .semicolon (statements.map spell) ++ .fixed .rbrace :: rest) →
      (blockStatements (statement k) n p).Succeeds
        (fun ss q => ss.map Stmt.erase = statements.map Stmt.erase ∧ q.advance.Shows rest)
  | _, _, 0, _, _, _ => trivial
  | [], _, n + 1, p, rest, h => by
    rw [blockStatements, cur_bind, h.cur]
    exact ⟨rfl, h.advance⟩
  | s :: statements, hs, n + 1, p, rest, h => by
    rw [List.map_cons, joined_cons, List.append_assoc] at h
    have hread := hs s List.mem_cons_self
    have hbegins := hread.begins ((statements.map spell).flatMap (fun y => .fixed .semicolon :: y) ++
      .fixed .rbrace :: rest)
    rw [← h.cur] at hbegins
    have hread := hread.statement k p _ (statementEnds_flatMap (.inl rfl)) h
    rw [afterSemicolon_flatMap (by rintro ⟨⟩)] at hread
    rw [blockStatements, cur_bind]
    generalize p.cur.kind = kind at hbegins
    split
    · rcases hbegins with hk | hk | hk <;> cases hk
    · rcases hbegins with hk | hk | hk <;> cases hk
    · rw [look_bind]
      refine holds_attempt hread id (fun s' q _ hq => ?_) fun _ _ hf => hf.elim
      dsimp only
      rw [advance_bind]
      refine holds_then (readsBack_blockStatements k statements (fun t ht => hs t (List.mem_cons_of_mem _ ht)) n _ rest
        hq.2) fun ss r hr => ?_
      exact ⟨by rw [List.map_cons, List.map_cons, hq.1, hr.1], hr.2⟩

theorem Block.readsBack_mk {spell : Stmt → List Lexeme} {pos : Pos} {statements : List Stmt}
    (hs : ∀ s ∈ statements, s.ReadsBack (spell s)) : (Block.mk pos statements).ReadsBack
      (.fixed .lbrace :: (joined .semicolon (statements.map spell) ++ [.fixed .rbrace])) where
  begins _ := rfl
  block k n p rest h := by
    rw [List.cons_append, List.append_assoc] at h
    rw [Parse.block, cur_bind, advance_bind]
    refine holds_then (readsBack_blockStatements k statements hs n _ rest h.advance) fun ss q hq => ?_
    exact ⟨by rw [Block.erase, Block.erase, Stmt.eraseAll_eq, Stmt.eraseAll_eq, hq.1], hq.2⟩

/-! ## Conditionals and functions -/

/-- An opening brace and the block that it opens. -/
theorem shows_block {α : Type} {k n : Nat} {p : Parser} {b : Block} {ls rest : List Lexeme} {f : Block → Parse α}
    {D : α → Parser → Prop} (hb : b.ReadsBack ls) (h : p.advance.Shows (ls ++ rest))
    (hf : ∀ b' q, b'.erase = b.erase → q.advance.Shows rest → (f b' q).Succeeds D) :
    ((expect .lbrace >>= fun _ => block (statement k) n >>= f) p).Succeeds D := by
  refine holds_expect (fun hne => hne (h.cur.trans (hb.begins rest))) fun _ => ?_
  exact holds_then (hb.block k n p.advance rest h) fun b' q hq => hf b' q hq.1 hq.2

section

variable {pos : Pos} {c : Expr} {b a : Block} {cs bs as : List Lexeme}

theorem Expr.climbs_cond (hc : c.ReadsBack cs) (hb : b.ReadsBack bs) : (Expr.cond pos c b none).Climbs .index
    (.fixed .ifWord :: .fixed .lparen :: (cs ++ .fixed .rparen :: bs)) := by
  refine Expr.climbs_of_operand (fun _ => rfl) fun k m p rest hrest h => ?_
  rw [List.cons_append, List.cons_append, List.append_assoc, List.cons_append] at h
  rw [operand, cur_bind, h.cur]
  show (Parse.cond (expression k) m p).Holds _ _ _
  rw [Parse.cond, cur_bind]
  refine shows_expect h.advance fun h => ?_
  rw [advance_bind]
  refine holds_then (hc.expression (ends_cons (by decide)) h) fun c' q hq => ?_
  refine shows_expect hq.2 fun h => ?_
  refine shows_block hb h fun b' r hb' hr => ?_
  refine holds_peekIs (fun hp => absurd (hr.cur.symm.trans hp) hrest) fun _ => ?_
  exact ⟨by rw [Expr.erase, Expr.erase, hq.1, hb'], hr⟩

theorem Expr.climbs_condElse (hc : c.ReadsBack cs) (hb : b.ReadsBack bs) (ha : a.ReadsBack as) :
    (Expr.cond pos c b (some a)).Climbs .index
      (.fixed .ifWord :: .fixed .lparen :: (cs ++ .fixed .rparen :: (bs ++ .fixed .elseWord :: as))) := by
  refine Expr.climbs_of_operand (fun _ => rfl) fun k m p rest _ h => ?_
  rw [List.cons_append, List.cons_append, List.append_assoc, List.cons_append, List.append_assoc, List.cons_append] at h
  rw [operand, cur_bind, h.cur]
  show (Parse.cond (expression k) m p).Holds _ _ _
  rw [Parse.cond, cur_bind]
  refine shows_expect h.advance fun h => ?_
  rw [advance_bind]
  refine holds_then (hc.expression (ends_cons (by decide)) h) fun c' q hq => ?_
  refine shows_expect hq.2 fun h => ?_
  refine shows_block hb h fun b' r hb' hr => ?_
  refine holds_peekIs (fun _ => ?_) fun hp => absurd hr.cur hp
  rw [advance_bind]
  refine shows_block ha hr.advance fun a' t ha' ht => ?_
  exact ⟨by rw [Expr.erase, Expr.erase, hq.1, hb', ha'], ht⟩

theorem Expr.climbs_fn {params : List Ident} (hb : b.ReadsBack bs) : (Expr.fn pos params b).Climbs .index
    (.fixed .fnWord :: .fixed .lparen :: (joined .comma (params.map fun id => [id.lexeme]) ++ .fixed .rparen :: bs)) := by
  refine Expr.climbs_of_operand (fun _ => rfl) fun k m p rest _ h => ?_
  rw [List.cons_append, List.cons_append, List.append_assoc, List.cons_append] at h
  rw [operand, cur_bind, h.cur]
  show (Parse.fn (expression k) m p).Holds _ _ _
  rw [Parse.fn, cur_bind]
  refine shows_expect h.advance fun h => ?_
  have hparams : (Parse.params m (p.advance)).Succeeds
      (fun xs q => xs.map Ident.erase = params.map Ident.erase ∧ q.advance.Shows (bs ++ rest)) :=
    readsBack_items (by decide) (by decide) (fun x _ p rest _ h => readsBack_param h) (fun _ _ _ => by rintro ⟨⟩) m h
  refine holds_then hparams fun xs q hq => ?_
  refine shows_block hb hq.2 fun b' r hb' hr => ?_
  exact ⟨by rw [Expr.erase, Expr.erase, hq.1, hb'], hr⟩

end

/-! ## Atoms -/

theorem Expr.climbs_ident {x : Ident} : (Expr.ident x).Climbs .index [x.lexeme] :=
  Expr.climbs_of_operand (fun _ => rfl) fun k m p rest _ h => by
    rw [operand, cur_bind, h.cur]
    exact ⟨congrArg (fun name => Expr.ident ⟨.start, name⟩) h.literal, h.advance⟩

theorem Expr.climbs_int {pos : Pos} {literal : String} {value : Nat} (hvalue : integer? literal = some value) :
    (Expr.int pos literal value).Climbs .index [⟨.int, literal⟩] :=
  Expr.climbs_of_operand (fun _ => rfl) fun k m p rest _ h => by
    rw [operand, cur_bind, h.cur]
    show (integer p).Holds _ _ _
    rw [integer, cur_bind, h.literal, hvalue]
    exact ⟨rfl, h.advance⟩

theorem Expr.climbs_bool {pos : Pos} {value : Bool} :
    (Expr.bool pos value).Climbs .index [.fixed (if value then .trueWord else .falseWord)] :=
  Expr.climbs_of_operand (fun _ => by cases value <;> rfl) fun k m p rest _ h => by
    rw [operand, cur_bind, h.cur]
    cases value <;> exact ⟨rfl, h.advance⟩

theorem Expr.climbs_str {pos : Pos} {text : String} : (Expr.str pos text).Climbs .index [⟨.string, text⟩] :=
  Expr.climbs_of_operand (fun _ => rfl) fun k m p rest _ h => by
    rw [operand, cur_bind, h.cur]
    exact ⟨congrArg (Expr.str .start) h.literal, h.advance⟩

end Monkey
