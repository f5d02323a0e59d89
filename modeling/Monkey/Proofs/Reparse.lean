import Monkey.Proofs.Climbing
/-!
# The parser reads its trees back

The parser reads a well-formed tree back from the lexemes that its rendering consists of, by induction on the tree
(`Expr.climbs_spell`).  A rendering has parentheses around every operator and every index, so nothing in it is looser
than an operand.
-/
namespace Monkey

open Monkey.Parser Parse

theorem BinaryOp.rank_lt_index (op : BinaryOp) : op.kind.precedence.rank < Precedence.index.rank := by
  cases op <;> decide

mutual

/-- **The parser reads every well-formed expression back.** -/
theorem Expr.climbs_spell : ∀ {e : Expr}, e.wellFormed = true → e.Climbs .index e.spell
  | .ident _, _ => Expr.climbs_ident
  | .int _ literal value, h => by
    simp only [Expr.wellFormed, Bool.and_eq_true, beq_iff_eq] at h
    exact Expr.climbs_int h.2
  | .bool _ _, _ => Expr.climbs_bool
  | .str _ _, _ => Expr.climbs_str
  | .array _ elements, h => by
    rw [Expr.spell, Expr.spellAll_eq]
    exact Expr.climbs_array (Expr.readsBackAll h)
  | .hash _ pairs, h => by
    rw [Expr.spell, Expr.spellPairs_eq, show Expr.spellPair = spelledPair Expr.spell from rfl]
    exact Expr.climbs_hash (Expr.readsBackPairs h)
  | .unary pos op operand, h => by
    have hunary : (Expr.unary pos op operand).Climbs .unary (.fixed op.kind :: operand.spell) :=
      (Expr.climbs_spell (e := operand) h).unary (by decide)
    rw [Expr.spell]
    exact Expr.ReadsBack.grouped ⟨_, hunary⟩
  | .binary pos op left right, h => by
    simp only [Expr.wellFormed, Bool.and_eq_true] at h
    have hbinary : (Expr.binary pos op left right).Climbs op.kind.precedence
        (left.spell ++ .fixed op.kind :: right.spell) :=
      (Expr.climbs_spell h.1).binary (Expr.climbs_spell h.2) (Nat.le_of_lt op.rank_lt_index) op.rank_lt_index
    have hgrouped := Expr.ReadsBack.grouped ⟨_, hbinary⟩
    rw [List.append_assoc] at hgrouped
    rw [Expr.spell]
    exact hgrouped
  | .cond _ _ _ none, h => by
    simp only [Expr.wellFormed, Bool.and_eq_true] at h
    rw [Expr.spell]
    exact Expr.climbs_cond ⟨_, Expr.climbs_spell h.1⟩ (Block.readsBack_spell h.2)
  | .cond _ _ _ (some _), h => by
    simp only [Expr.wellFormed, Bool.and_eq_true] at h
    rw [Expr.spell]
    exact Expr.climbs_condElse ⟨_, Expr.climbs_spell h.1.1⟩ (Block.readsBack_spell h.1.2) (Block.readsBack_spell h.2)
  | .fn _ _ _, h => by
    simp only [Expr.wellFormed, Bool.and_eq_true] at h
    rw [Expr.spell]
    exact Expr.climbs_fn (Block.readsBack_spell h.2)
  | .call _ callee args, h => by
    simp only [Expr.wellFormed, Bool.and_eq_true] at h
    rw [Expr.spell, Expr.spellAll_eq]
    exact (Expr.climbs_spell h.1).call (Expr.readsBackAll h.2)
  | .index pos left i, h => by
    simp only [Expr.wellFormed, Bool.and_eq_true] at h
    have hindex : (Expr.index pos left i).Climbs .index
        (left.spell ++ .fixed .lbracket :: (i.spell ++ [.fixed .rbracket])) :=
      (Expr.climbs_spell h.1).index ⟨_, Expr.climbs_spell h.2⟩
    have hgrouped := Expr.ReadsBack.grouped ⟨_, hindex⟩
    rw [List.append_assoc, List.cons_append, List.append_assoc] at hgrouped
    rw [Expr.spell]
    exact hgrouped

theorem Expr.readsBackAll : ∀ {es : List Expr}, Expr.wellFormedAll es = true → ∀ e ∈ es, e.ReadsBack e.spell
  | [], _ => by simp
  | e :: es, h => by
    simp only [Expr.wellFormedAll, Bool.and_eq_true] at h
    exact List.forall_mem_cons.2 ⟨⟨_, Expr.climbs_spell h.1⟩, Expr.readsBackAll h.2⟩

theorem Expr.readsBackPairs : ∀ {pairs : List (Expr × Expr)}, Expr.wellFormedPairs pairs = true →
    ∀ pair ∈ pairs, pair.1.ReadsBack pair.1.spell ∧ pair.2.ReadsBack pair.2.spell
  | [], _ => by simp
  | (key, value) :: pairs, h => by
    simp only [Expr.wellFormedPairs, Bool.and_eq_true] at h
    exact List.forall_mem_cons.2
      ⟨⟨⟨_, Expr.climbs_spell h.1.1⟩, ⟨_, Expr.climbs_spell h.1.2⟩⟩, Expr.readsBackPairs h.2⟩

theorem Stmt.readsBack_spell : ∀ {s : Stmt}, s.wellFormed = true → s.ReadsBack s.spell
  | .expr _ value, h => Expr.ReadsBack.statement ⟨_, Expr.climbs_spell (e := value) h⟩
  | .bind _ _ _, h => by
    simp only [Stmt.wellFormed, Bool.and_eq_true] at h
    exact Expr.ReadsBack.bind ⟨_, Expr.climbs_spell h.2⟩
  | .ret _ none, _ => Stmt.readsBack_ret
  | .ret _ (some value), h => Expr.ReadsBack.ret ⟨_, Expr.climbs_spell (e := value) h⟩

theorem Stmt.readsBackAll : ∀ {statements : List Stmt}, Stmt.wellFormedAll statements = true →
    ∀ s ∈ statements, s.ReadsBack s.spell
  | [], _ => by simp
  | s :: statements, h => by
    simp only [Stmt.wellFormedAll, Bool.and_eq_true] at h
    exact List.forall_mem_cons.2 ⟨Stmt.readsBack_spell h.1, Stmt.readsBackAll h.2⟩

theorem Block.readsBack_spell : ∀ {b : Block}, b.wellFormed = true → b.ReadsBack b.spell
  | .mk _ statements, h => by
    rw [Block.spell, Stmt.spellAll_eq]
    exact Block.readsBack_mk (Stmt.readsBackAll h)

end

theorem readsBack_programStatements {spell : Stmt → List Lexeme} (k : Nat) : ∀ (statements : List Stmt)
    (_ : ∀ s ∈ statements, s.ReadsBack (spell s)) (n : Nat) (p : Parser),
    p.Shows (joined .semicolon (statements.map spell)) →
      (programStatements (statement k) n p).Succeeds
        (fun ss q => ss.map Stmt.erase = statements.map Stmt.erase ∧ q.diagnostics = [])
  | _, _, 0, _, _ => trivial
  | [], _, n + 1, p, h => by
    have hend : p.cur.kind = .eof := h.cur
    rw [programStatements, cur_bind, if_pos hend]
    exact ⟨rfl, h.diagnostics⟩
  | s :: statements, hs, n + 1, p, h => by
    have hread := hs s List.mem_cons_self
    rw [List.map_cons, joined_cons] at h
    have hbegins := hread.begins ((statements.map spell).flatMap fun y => .fixed .semicolon :: y)
    rw [← h.cur] at hbegins
    have hend : p.cur.kind ≠ .eof := fun hc => by
      rw [hc] at hbegins
      rcases hbegins with hk | hk | hk <;> cases hk
    rw [← List.append_nil (List.flatMap _ _)] at h
    have hread := hread.statement k p _ (statementEnds_flatMap (.inr rfl)) h
    rw [afterSemicolon_flatMap (by rintro ⟨⟩), List.append_nil] at hread
    rw [programStatements, cur_bind, if_neg hend, look_bind]
    refine holds_attempt hread id (fun s' q _ hq => ?_) fun _ _ hf => hf.elim
    dsimp only
    rw [advance_bind]
    refine holds_then (readsBack_programStatements k statements (fun t ht => hs t (List.mem_cons_of_mem _ ht)) n _ hq.2)
      fun ss r hr => ?_
    exact ⟨by rw [List.map_cons, List.map_cons, hq.1, hr.1], hr.2⟩

/-- Statements are read back from any tokens that show lexemes from which each of them is. -/
theorem Parsed.readsBack {spell : Stmt → List Lexeme} {statements : List Stmt} {s : TokenStream}
    (h : ∀ st ∈ statements, st.ReadsBack (spell st))
    (hs : s.ahead.map Token.lexeme = joined .semicolon (statements.map spell)) :
    (ofStream s).diagnostics = [] ∧ (ofStream s).program.erase = Stmt.eraseAll statements := by
  obtain ⟨ss, q, hrun, -, hparsed⟩ := Parsed.ofStream_eq s
  have hread := (readsBack_programStatements _ statements h _ (.ofStream s) ⟨hs, rfl⟩).of_done hrun
  rw [hparsed, Program.erase, Stmt.eraseAll_eq, Stmt.eraseAll_eq]
  exact ⟨hread.2, hread.1⟩

/-- A well-formed program is read back from any tokens that show its lexemes. -/
theorem Program.readsBack {p : Program} {s : TokenStream} (h : p.wellFormed = true)
    (hs : s.ahead.map Token.lexeme = p.spell) :
    (Parsed.ofStream s).diagnostics = [] ∧ (Parsed.ofStream s).program.erase = p.erase :=
  Parsed.readsBack (Stmt.readsBackAll h) (by rw [hs, Program.spell, Stmt.spellAll_eq])

end Monkey
