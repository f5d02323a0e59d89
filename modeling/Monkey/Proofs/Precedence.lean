import Monkey.Proofs.Climbing
import Monkey.Proofs.Literals
import Monkey.Proofs.Locality
/-!
# Precedence and associativity

An expression spelled with only the parentheses that it needs (`Expr.tight`), and the proof that the parser reads it
back at the lowest precedence, in front of anything that cannot continue it (`Parse.expression_tight`).  Operators of
one precedence associate to the left, so a right operand needs parentheses where a left one does not.
-/
namespace Monkey

open Monkey.Parser Parse

/-- How tightly the outermost operator of an expression binds; what is not a prefix or infix operation binds tightest. -/
def Expr.level : Expr → Precedence
  | .binary _ op _ _ => op.kind.precedence
  | .unary _ _ _ => .unary
  | _ => .index

/-- The lexemes of an operand, in parentheses if its outermost operator binds more loosely than a rank. -/
def Expr.enclose (rank : Nat) (e : Expr) (ls : List Lexeme) : List Lexeme :=
  if e.level.rank < rank then .fixed .lparen :: (ls ++ [.fixed .rparen]) else ls

mutual

/-- The lexemes of an expression with only the parentheses that it needs: around a left operand that binds more loosely
than the operator, a right operand that does not bind more tightly, an infix operation behind a prefix operator, and a
prefix or infix operation that is called or indexed. -/
def Expr.tight : Expr → List Lexeme
  | .ident id => [id.lexeme]
  | .int _ literal _ => [⟨.int, literal⟩]
  | .bool _ value => [.fixed (if value then .trueWord else .falseWord)]
  | .str _ text => [⟨.string, text⟩]
  | .array _ elements => .fixed .lbracket :: (joined .comma (Expr.tightAll elements) ++ [.fixed .rbracket])
  | .hash _ pairs => .fixed .lbrace :: (joined .comma (Expr.tightPairs pairs) ++ [.fixed .rbrace])
  | .unary _ op operand => .fixed op.kind :: operand.enclose Precedence.unary.rank operand.tight
  | .binary _ op left right =>
    left.enclose op.kind.precedence.rank left.tight ++
      .fixed op.kind :: right.enclose (op.kind.precedence.rank + 1) right.tight
  | .cond _ condition consequence none =>
    .fixed .ifWord :: .fixed .lparen :: (condition.tight ++ .fixed .rparen :: consequence.tight)
  | .cond _ condition consequence (some alternative) =>
    .fixed .ifWord :: .fixed .lparen ::
      (condition.tight ++ .fixed .rparen :: (consequence.tight ++ .fixed .elseWord :: alternative.tight))
  | .fn _ params body =>
    .fixed .fnWord :: .fixed .lparen ::
      (joined .comma (params.map fun id => [id.lexeme]) ++ .fixed .rparen :: body.tight)
  | .call _ callee args =>
    callee.enclose Precedence.call.rank callee.tight ++
      .fixed .lparen :: (joined .comma (Expr.tightAll args) ++ [.fixed .rparen])
  | .index _ left index =>
    left.enclose Precedence.call.rank left.tight ++ .fixed .lbracket :: (index.tight ++ [.fixed .rbracket])

def Expr.tightAll : List Expr → List (List Lexeme)
  | [] => []
  | e :: rest => e.tight :: Expr.tightAll rest

def Expr.tightPairs : List (Expr × Expr) → List (List Lexeme)
  | [] => []
  | (key, value) :: rest => (key.tight ++ .fixed .colon :: value.tight) :: Expr.tightPairs rest

def Stmt.tight : Stmt → List Lexeme
  | .expr _ value => value.tight
  | .bind _ name value => .fixed .letWord :: name.lexeme :: .fixed .assign :: value.tight
  | .ret _ none => [.fixed .returnWord]
  | .ret _ (some value) => .fixed .returnWord :: value.tight

def Stmt.tightAll : List Stmt → List (List Lexeme)
  | [] => []
  | s :: rest => s.tight :: Stmt.tightAll rest

/-- The lexemes of a block: a semicolon stands between each statement and the next. -/
def Block.tight : Block → List Lexeme
  | .mk _ statements => .fixed .lbrace :: (joined .semicolon (Stmt.tightAll statements) ++ [.fixed .rbrace])

end

theorem Expr.tightAll_eq (es : List Expr) : Expr.tightAll es = es.map Expr.tight := by
  induction es with
  | nil => rfl
  | cons e es ih => rw [Expr.tightAll, ih, List.map_cons]

theorem Expr.tightPairs_eq (pairs : List (Expr × Expr)) :
    Expr.tightPairs pairs = pairs.map (spelledPair Expr.tight) := by
  induction pairs with
  | nil => rfl
  | cons pair pairs ih => rw [Expr.tightPairs, ih, List.map_cons]; rfl

theorem Stmt.tightAll_eq (statements : List Stmt) : Stmt.tightAll statements = statements.map Stmt.tight := by
  induction statements with
  | nil => rfl
  | cons s statements ih => rw [Stmt.tightAll, ih, List.map_cons]

/-! ## Operands -/

/-- The precedence of an operand, in parentheses or not. -/
def Expr.enclosedLevel (rank : Nat) (e : Expr) : Precedence := if e.level.rank < rank then .index else e.level

theorem Expr.le_enclosedLevel {rank : Nat} (hrank : rank ≤ Precedence.index.rank) (e : Expr) :
    rank ≤ (e.enclosedLevel rank).rank := by
  unfold Expr.enclosedLevel
  split
  · exact hrank
  · rename_i h
    exact Nat.not_lt.1 h

/-- No operator is as tight as a call, so what is called or indexed binds tightest. -/
theorem Expr.enclosedLevel_call (e : Expr) : e.enclosedLevel Precedence.call.rank = .index := by
  cases e with
  | binary pos op left right => cases op <;> rfl
  | _ => rfl

theorem Expr.Climbs.enclose {e : Expr} {ls : List Lexeme} (he : e.Climbs e.level ls) (rank : Nat) :
    e.Climbs (e.enclosedLevel rank) (e.enclose rank ls) := by
  unfold Expr.enclosedLevel Expr.enclose
  split
  · exact Expr.ReadsBack.grouped ⟨_, he⟩
  · exact he

mutual

/-- **The parser reads every expression back from its tight spelling**, which is as tight as its outermost operator. -/
theorem Expr.climbs_tight : ∀ {e : Expr}, (Node.expr e).Valued → e.Climbs e.level e.tight
  | .ident _, _ => Expr.climbs_ident
  | .int _ _ _, h => Expr.climbs_int h.number
  | .bool _ _, _ => Expr.climbs_bool
  | .str _ _, _ => Expr.climbs_str
  | .array _ elements, h => by
    rw [Expr.tight, Expr.tightAll_eq]
    exact Expr.climbs_array (Expr.readsBack_tightAll fun e he => h.child (List.mem_map_of_mem he))
  | .hash _ pairs, h => by
    rw [Expr.tight, Expr.tightPairs_eq]
    exact Expr.climbs_hash (Expr.readsBack_tightPairs (valuedPairs_of_hash h))
  | .unary _ op operand, h => by
    have hoperand := Expr.climbs_tight (h.child List.mem_cons_self)
    rw [Expr.tight]
    exact (hoperand.enclose _).unary (operand.le_enclosedLevel (by decide))
  | .binary _ op left right, h => by
    have hleft := Expr.climbs_tight (h.child List.mem_cons_self)
    have hright := Expr.climbs_tight (h.child (List.mem_cons_of_mem _ List.mem_cons_self))
    have hop : op.kind.precedence.rank < Precedence.index.rank := by cases op <;> decide
    rw [Expr.tight]
    exact (hleft.enclose _).binary (hright.enclose _) (left.le_enclosedLevel (Nat.le_of_lt hop))
      (right.le_enclosedLevel hop)
  | .cond _ condition consequence none, h => by
    have hcondition := Expr.climbs_tight (h.child List.mem_cons_self)
    have hconsequence := Block.readsBack_tight (h.child (List.mem_cons_of_mem _ List.mem_cons_self))
    rw [Expr.tight]
    exact Expr.climbs_cond ⟨_, hcondition⟩ hconsequence
  | .cond _ condition consequence (some alternative), h => by
    have hcondition := Expr.climbs_tight (h.child List.mem_cons_self)
    have hconsequence := Block.readsBack_tight (h.child (List.mem_cons_of_mem _ List.mem_cons_self))
    have halternative := Block.readsBack_tight
      (h.child (List.mem_cons_of_mem _ (List.mem_cons_of_mem _ List.mem_cons_self)))
    rw [Expr.tight]
    exact Expr.climbs_condElse ⟨_, hcondition⟩ hconsequence halternative
  | .fn _ _ body, h => by
    have hbody := Block.readsBack_tight (h.child (List.mem_append_right _ List.mem_cons_self))
    rw [Expr.tight]
    exact Expr.climbs_fn hbody
  | .call _ callee args, h => by
    have hcallee := (Expr.climbs_tight (h.child List.mem_cons_self)).enclose Precedence.call.rank
    rw [Expr.enclosedLevel_call] at hcallee
    rw [Expr.tight, Expr.tightAll_eq]
    exact hcallee.call (Expr.readsBack_tightAll fun e he => h.child (List.mem_cons_of_mem _ (List.mem_map_of_mem he)))
  | .index _ left i, h => by
    have hleft := (Expr.climbs_tight (h.child List.mem_cons_self)).enclose Precedence.call.rank
    have hi := Expr.climbs_tight (h.child (List.mem_cons_of_mem _ List.mem_cons_self))
    rw [Expr.enclosedLevel_call] at hleft
    rw [Expr.tight]
    exact hleft.index ⟨_, hi⟩

theorem Expr.readsBack_tightAll : ∀ {es : List Expr}, (∀ e ∈ es, (Node.expr e).Valued) → ∀ e ∈ es, e.ReadsBack e.tight
  | [], _ => List.forall_mem_nil _
  | e :: es, h => by
    have h := List.forall_mem_cons.1 h
    exact List.forall_mem_cons.2 ⟨⟨_, Expr.climbs_tight h.1⟩, Expr.readsBack_tightAll h.2⟩

theorem Expr.readsBack_tightPairs : ∀ {pairs : List (Expr × Expr)}, ValuedPairs pairs →
    ∀ pair ∈ pairs, pair.1.ReadsBack pair.1.tight ∧ pair.2.ReadsBack pair.2.tight
  | [], _ => List.forall_mem_nil _
  | (key, value) :: pairs, h => by
    have h := List.forall_mem_cons.1 h
    exact List.forall_mem_cons.2
      ⟨⟨⟨_, Expr.climbs_tight h.1.1⟩, ⟨_, Expr.climbs_tight h.1.2⟩⟩, Expr.readsBack_tightPairs h.2⟩

theorem Stmt.readsBack_tight : ∀ {s : Stmt}, (Node.stmt s).Valued → s.ReadsBack s.tight
  | .expr _ _, h => Expr.ReadsBack.statement ⟨_, Expr.climbs_tight (h.child List.mem_cons_self)⟩
  | .bind _ _ _, h =>
    Expr.ReadsBack.bind ⟨_, Expr.climbs_tight (h.child (List.mem_cons_of_mem _ List.mem_cons_self))⟩
  | .ret _ none, _ => Stmt.readsBack_ret
  | .ret _ (some _), h => Expr.ReadsBack.ret ⟨_, Expr.climbs_tight (h.child List.mem_cons_self)⟩

theorem Stmt.readsBack_tightAll : ∀ {statements : List Stmt}, (∀ s ∈ statements, (Node.stmt s).Valued) →
    ∀ s ∈ statements, s.ReadsBack s.tight
  | [], _ => List.forall_mem_nil _
  | s :: statements, h => by
    have h := List.forall_mem_cons.1 h
    exact List.forall_mem_cons.2 ⟨Stmt.readsBack_tight h.1, Stmt.readsBack_tightAll h.2⟩

theorem Block.readsBack_tight : ∀ {b : Block}, (Node.block b).Valued → b.ReadsBack b.tight
  | .mk _ statements, h => by
    rw [Block.tight, Stmt.tightAll_eq]
    exact Block.readsBack_mk (Stmt.readsBack_tightAll fun s hs => h.child (List.mem_map_of_mem hs))

end

/-! ## Reading in front of anything that cannot go on -/

theorem leading_map_lexeme (ts : List Token) (pos : Pos) :
    leading (ts.map Token.lexeme) = (ts.headD (.atEnd pos)).kind := by
  cases ts <;> rfl

namespace Parser

variable {p q : Parser}

/-- A parser that has found nothing wrong yet. -/
def afresh (p : Parser) : Parser := { p with diagnostics := [] }

/-- A phrase in front of the tokens behind the cursor ends under the cursor. -/
theorem Phrase.last {k : Nat} {ts : List Token} (h : p.Phrase k q) (hahead : p.ahead = ts ++ q.advance.ahead) :
    q.ahead = q.cur :: q.advance.ahead ∧ ts.getLast? = some q.cur := by
  have hcons : q.ahead = q.cur :: q.advance.ahead := by
    cases hq : q.ahead with
    | nil => exact absurd hq h.ahead_ne
    | cons t us => rw [cur_of_ahead hq, ahead_advance, hq, List.tail_cons]
  obtain ⟨before, hbefore⟩ := h.reaches.suffix
  have hts : before ++ [q.cur] ++ q.advance.ahead = ts ++ q.advance.ahead := by
    rw [List.append_assoc, List.singleton_append, ← hcons, ← hahead]
    exact hbefore
  exact ⟨hcons, by rw [← List.append_cancel_right hts, List.getLast?_concat]⟩

end Parser

namespace Parse

/-- What has been found wrong before an expression changes nothing but the diagnostics. -/
theorem expression_afresh {k : Nat} {precedence : Precedence} {p q : Parser} {e : Expr}
    (h : expression k precedence p.afresh = .done e q) :
    ∃ q', expression k precedence p = .done e q' ∧ q'.ahead = q.ahead ∧ q'.diagnostics = p.diagnostics ++ q.diagnostics := by
  have htwin : Frame.Twin ⟨p.diagnostics, none, p.endPos⟩ p.afresh p :=
    ⟨(List.append_nil _).symm, rfl, (List.append_nil _).symm, rfl⟩
  have hmirror := mirrors_expression k k precedence p.afresh p (Nat.le_refl k) htwin (.of_none rfl rfl)
  rw [h] at hmirror
  obtain ⟨-, q', hq', hqq'⟩ := hmirror
  exact ⟨q', hq', hqq'.ahead.trans (List.append_nil _), hqq'.diagnostics⟩

/-- **Precedence and associativity**: an expression spelled with only the parentheses that it needs is read back, up to
its last token, in front of any token that cannot continue it.  The places in the result are those of the tokens, and no
diagnostic is added to those there are. -/
theorem expression_tight {e : Expr} (he : (Node.expr e).Valued) {p : Parser} {ts rest : List Token}
    (hahead : p.ahead = ts ++ rest) (hspell : ts.map Token.lexeme = e.tight)
    (hend : (rest.headD p.eof).kind.precedence = .lowest ∧ (rest.headD p.eof).kind ≠ .elseWord) {n : Nat}
    (hn : p.ahead.length < n) :
    ∃ e' q, expression n .lowest p = .done e' q ∧ e'.erase = e.erase ∧ e'.Yields ts ∧
      q.diagnostics = p.diagnostics ∧ q.ahead = q.cur :: rest ∧ ts.getLast? = some q.cur := by
  have hshows : p.afresh.Shows (e.tight ++ rest.map Token.lexeme) :=
    ⟨by rw [← hspell, ← List.map_append, ← hahead]; rfl, rfl⟩
  have hends : Ends (rest.map Token.lexeme) := by
    rw [Ends, leading_map_lexeme rest p.endPos]
    exact hend
  have hread := Expr.ReadsBack.expression (k := n) ⟨_, Expr.climbs_tight he⟩ hends hshows
  have hphrase := isPhrase_expression n .lowest p.afresh
  cases hrun : expression n .lowest p.afresh with
  | malformed q => exact (hread.of_malformed hrun).elim
  | exhausted =>
    rw [hrun] at hphrase
    exact absurd hn (Nat.not_lt.2 hphrase)
  | done e' q =>
    obtain ⟨herase, hrest⟩ := hread.of_done hrun
    have hnone : q.diagnostics = [] := hrest.diagnostics
    -- what has been read is what the result yields, and that is all but the rest
    obtain ⟨us, hus, hyields⟩ := ((sound_expression n .lowest p.afresh).of_done hrun).tokens (congrArg List.length hnone)
    have hlength : rest.length = q.advance.ahead.length := by
      have h := congrArg List.length hrest.lexemes
      rwa [List.length_map, List.length_map, eq_comm] at h
    obtain ⟨rfl, rfl⟩ := List.append_inj' (hahead.symm.trans hus) hlength
    obtain ⟨hcons, hlast⟩ := (hphrase.of_done hrun).last hus
    obtain ⟨q', hrun', hahead', hdiagnostics⟩ := expression_afresh hrun
    have hcur : q'.cur = q.cur := cur_of_ahead (hahead'.trans hcons)
    refine ⟨e', q', hrun', herase, hyields, ?_, ?_, ?_⟩
    · rw [hdiagnostics, hnone, List.append_nil]
    · rw [hcur]
      exact hahead'.trans hcons
    · rw [hcur]
      exact hlast

/-- Parentheses stand around a difference on the right of a minus sign, and none around the prefix operation in it. -/
theorem expression_tight_difference : ∃ e q,
    expression 20 .lowest (.ofSource "a - (b - -c)]") = .done e q ∧
      e.erase = .binary .start .sub (.ident ⟨.start, "a"⟩)
        (.binary .start .sub (.ident ⟨.start, "b"⟩) (.unary .start .minus (.ident ⟨.start, "c"⟩))) ∧
      q.diagnostics = [] ∧ q.cur.kind = .rparen := by
  have hc : (Node.expr (.unary .start .minus (.ident ⟨.start, "c"⟩))).Valued :=
    .parent nofun (List.forall_mem_singleton.2 (valued_ident _))
  have hb : (Node.expr (.binary .start .sub (.ident ⟨.start, "b"⟩) (.unary .start .minus (.ident ⟨.start, "c"⟩)))).Valued :=
    .parent nofun (List.forall_mem_cons.2 ⟨valued_ident _, List.forall_mem_singleton.2 hc⟩)
  have ha : (Node.expr (.binary .start .sub (.ident ⟨.start, "a"⟩)
      (.binary .start .sub (.ident ⟨.start, "b"⟩) (.unary .start .minus (.ident ⟨.start, "c"⟩))))).Valued :=
    .parent nofun (List.forall_mem_cons.2 ⟨valued_ident _, List.forall_mem_singleton.2 hb⟩)
  have hahead := (List.take_append_drop 8 (Parser.ofSource "a - (b - -c)]").ahead).symm
  obtain ⟨e, q, hrun, herase, -, hdiagnostics, -, hlast⟩ := expression_tight ha hahead (by decide +kernel)
    (by decide +kernel) (n := 20) (by decide +kernel)
  have hcur : some .rparen = some q.cur.kind := by
    rw [← Option.map_some, ← hlast]
    decide +kernel
  exact ⟨e, q, hrun, herase, hdiagnostics, (Option.some.inj hcur).symm⟩

end Parse

end Monkey
