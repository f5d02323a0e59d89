import Monkey.Parser.Parsed
import Monkey.Proofs.Relocation
import Monkey.Proofs.Rule
/-!
# The grammar does not look at places

A rule that reads the same tokens at other places does the same and finds the same tree, relocated
(`Parse.Relocates`).  The statement is an equation between two runs, so it goes through a sequence step by step; a rule
that takes a tree already read is compared with the same rule on the relocated tree.
-/
namespace Monkey

variable (place : Pos → Pos)

def Mark.relocate : Mark → Mark
  | enter rule token => enter rule (token.relocate place)
  | leave rule accepted => leave rule accepted

def TokenStream.relocate (s : TokenStream) : TokenStream :=
  ⟨s.ahead.map (Token.relocate place), place s.endPos⟩

namespace Parser

/-- The parser over the relocated tokens. -/
def relocate (p : Parser) : Parser :=
  { p.toTokenStream.relocate place with
    depth := p.depth, diagnostics := p.diagnostics, marks := p.marks.map (Mark.relocate place) }

variable (p : Parser)

@[simp] theorem relocate_cur : (p.relocate place).cur = p.cur.relocate place := by
  show (p.ahead.map _).headD _ = _
  unfold cur
  cases p.ahead <;> rfl

@[simp] theorem relocate_peek : (p.relocate place).peek = p.peek.relocate place := by
  show (p.ahead.map _).tail.headD _ = _
  unfold peek
  rcases p.ahead with - | ⟨t, - | ⟨u, ts⟩⟩ <;> rfl

theorem relocate_advance : (p.relocate place).advance = p.advance.relocate place := by
  unfold advance peekDepth
  rw [relocate_cur]
  simp [relocate, TokenStream.relocate]

theorem relocate_report (d : Diagnostic) : (p.relocate place).report d = (p.report d).relocate place := rfl

theorem relocate_isResumption (depth : Int) : (p.relocate place).isResumption depth = p.isResumption depth := by
  unfold isResumption peekDepth
  rw [relocate_cur, relocate_peek]
  rfl

theorem relocate_resumeWithin (depth : Int) : ∀ (n : Nat) (p : Parser),
    resumeWithin n (p.relocate place) depth = (resumeWithin n p depth).relocate place
  | 0, _ => rfl
  | n + 1, p => by
    rw [resumeWithin, resumeWithin, relocate_isResumption, relocate_advance, relocate_resumeWithin depth n]
    split <;> rfl

theorem relocate_resume (depth : Int) : (p.relocate place).resume depth = (p.resume depth).relocate place := by
  have hlength : (p.relocate place).ahead.length = p.ahead.length := List.length_map _
  rw [resume, hlength, relocate_resumeWithin]
  rfl

end Parser

/-- The outcome over the relocated tokens; `f` relocates the result. -/
def Outcome.relocate {α : Type} (f : α → α) : Outcome α → Outcome α
  | .done a q => .done (f a) (q.relocate place)
  | .malformed q => .malformed (q.relocate place)
  | .exhausted => .exhausted

namespace Parse

variable {place}

/-- The second rule does over relocated tokens what the first does; `f` relocates its result. -/
def Relocates {α : Type} (place : Pos → Pos) (f : α → α) (x y : Parse α) : Prop :=
  ∀ p : Parser, y (p.relocate place) = (x p).relocate place f

section

variable {α β : Type} {f : α → α} {g : β → β} {x y : Parse α}

theorem Relocates.bind {k l : α → Parse β} (hx : Relocates place f x y)
    (hk : ∀ a, Relocates place g (k a) (l (f a))) : Relocates place g (x >>= k) (y >>= l) := by
  intro p
  show andThen y l _ = (andThen x k p).relocate place g
  unfold andThen
  rw [hx p]
  cases x p with
  | done a q => exact hk a q
  | malformed q => rfl
  | exhausted => rfl

theorem relocates_pure {a b : α} (h : b = f a) : Relocates place f (pure a) (pure b) := fun _ => by
  rw [h]
  rfl

theorem relocates_ite {c : Prop} [Decidable c] {x' y' : Parse α} (hx : Relocates place f x y)
    (hy : Relocates place f x' y') : Relocates place f (if c then x else x') (if c then y else y') := by
  split
  · exact hx
  · exact hy

theorem relocates_look {h : Parser → α} (hh : ∀ p : Parser, h (p.relocate place) = f (h p)) :
    Relocates place f (look h) (look h) := fun p => by
  unfold look
  rw [hh p]
  rfl

theorem relocates_depth : Relocates place id (look (·.depth)) (look (·.depth)) := relocates_look fun _ => rfl

theorem relocates_cur : Relocates place (Token.relocate place) cur cur := relocates_look fun p => by simp

theorem relocates_peek : Relocates place (Token.relocate place) peek peek := relocates_look fun p => by simp

theorem relocates_peekIs (kind : Kind) : Relocates place id (peekIs kind) (peekIs kind) :=
  relocates_look fun p => by simp

theorem relocates_name : Relocates place (Ident.relocate place) name name := relocates_cur.bind fun _ =>
  relocates_pure rfl

theorem relocates_advance : Relocates place id advance advance := fun p => by
  unfold advance
  rw [Parser.relocate_advance]
  rfl

theorem relocates_resume (depth : Int) : Relocates place id (resume depth) (resume depth) := fun p => by
  unfold resume
  rw [Parser.relocate_resume]
  rfl

theorem relocates_refuse (d : Diagnostic) : Relocates place f (refuse d) (refuse d) := fun _ => rfl

theorem relocates_outOfBudget : Relocates place f outOfBudget outOfBudget := fun _ => rfl

theorem relocates_expect (kind : Kind) : Relocates place id (expect kind) (expect kind) := fun p => by
  unfold expect
  rw [Parser.relocate_peek, Token.relocate_kind, Parser.relocate_advance, Parser.relocate_report]
  split <;> rfl

theorem Relocates.attempt (hx : Relocates place f x y) : Relocates place (Option.map f) (attempt x) (attempt y) :=
  fun p => by
    unfold Parse.attempt
    rw [hx p]
    cases x p <;> rfl

theorem Relocates.traced (rule : Rule) (hx : Relocates place f x y) :
    Relocates place f (traced rule x) (traced rule y) := fun p => by
  unfold Parse.traced
  have hmark : (p.relocate place).mark (.enter rule (p.relocate place).cur) =
      (p.mark (.enter rule p.cur)).relocate place := by
    rw [Parser.relocate_cur]
    rfl
  rw [hmark, hx]
  cases x (p.mark (.enter rule p.cur)) <;> rfl

theorem relocates_skipSemicolon : Relocates place id skipSemicolon skipSemicolon :=
  (relocates_peekIs _).bind fun _ => relocates_ite relocates_advance (relocates_pure rfl)

/-! ## Lists -/

theorem relocates_moreItems (hx : Relocates place f x y) : ∀ n, Relocates place (List.map f) (moreItems x n)
    (moreItems y n)
  | 0 => relocates_outOfBudget
  | n + 1 => (relocates_peekIs _).bind fun _ => relocates_ite
    (relocates_advance.bind fun _ => hx.bind fun _ => (relocates_moreItems hx n).bind fun _ => relocates_pure rfl)
    (relocates_pure rfl)

theorem relocates_items (hx : Relocates place f x y) (close : Kind) (n : Nat) :
    Relocates place (List.map f) (items x close n) (items y close n) :=
  (relocates_peekIs _).bind fun _ => relocates_ite
    (relocates_advance.bind fun _ => relocates_pure rfl)
    (hx.bind fun _ => (relocates_moreItems hx n).bind fun _ => (relocates_expect _).bind fun _ => relocates_pure rfl)

end

/-! ## Statements and blocks -/

section

variable {stmt : Parse Stmt} (hs : Relocates place (Stmt.relocate place) stmt stmt)
include hs

theorem relocates_blockStatements : ∀ n, Relocates place (List.map (Stmt.relocate place)) (blockStatements stmt n)
    (blockStatements stmt n)
  | 0 => relocates_outOfBudget
  | n + 1 => by
    refine relocates_cur.bind fun token => ?_
    rw [Token.relocate_kind]
    split
    · exact relocates_pure rfl
    · exact relocates_refuse _
    · refine relocates_depth.bind fun depth => hs.attempt.bind fun s? => ?_
      cases s? with
      | some s =>
        exact relocates_advance.bind fun _ => (relocates_blockStatements n).bind fun _ => relocates_pure rfl
      | none =>
        refine (relocates_resume _).bind fun _ => relocates_cur.bind fun token => ?_
        rw [Token.relocate_kind]
        exact relocates_ite (relocates_pure rfl) (relocates_advance.bind fun _ => relocates_blockStatements n)

theorem relocates_block (n : Nat) : Relocates place (Block.relocate place) (block stmt n) (block stmt n) :=
  relocates_cur.bind fun _ => relocates_advance.bind fun _ => (relocates_blockStatements hs n).bind fun _ =>
    relocates_pure (by simp [Block.relocate])

theorem relocates_programStatements : ∀ n, Relocates place (List.map (Stmt.relocate place)) (programStatements stmt n)
    (programStatements stmt n)
  | 0 => relocates_outOfBudget
  | n + 1 => by
    refine relocates_cur.bind fun token => ?_
    rw [Token.relocate_kind]
    refine relocates_ite (relocates_pure rfl) ?_
    refine relocates_depth.bind fun depth => hs.attempt.bind fun s? => ?_
    cases s? with
    | some s =>
      exact relocates_advance.bind fun _ => (relocates_programStatements n).bind fun _ => relocates_pure rfl
    | none =>
      exact (relocates_resume _).bind fun _ => relocates_advance.bind fun _ => relocates_programStatements n

end

/-! ## The rules over a rule for expressions -/

section

variable {expr : Precedence → Parse Expr}
  (he : ∀ precedence, Relocates place (Expr.relocate place) (expr precedence) (expr precedence))
include he

theorem relocates_bindStatement :
    Relocates place (Stmt.relocate place) (bindStatement expr) (bindStatement expr) :=
  relocates_cur.bind fun _ => (relocates_expect _).bind fun _ => relocates_name.bind fun _ =>
    (relocates_expect _).bind fun _ => relocates_advance.bind fun _ => (he _).bind fun _ =>
      relocates_skipSemicolon.bind fun _ => relocates_pure rfl

theorem relocates_returnStatement :
    Relocates place (Stmt.relocate place) (returnStatement expr) (returnStatement expr) := by
  have hbare : ∀ s : Stmt, Relocates place (Stmt.relocate place) (skipSemicolon >>= fun _ => pure s)
      (skipSemicolon >>= fun _ => pure (s.relocate place)) := fun _ =>
    relocates_skipSemicolon.bind fun _ => relocates_pure rfl
  refine relocates_cur.bind fun token => relocates_peek.bind fun next => ?_
  rw [Token.relocate_kind]
  split
  · exact hbare (.ret token.pos none)
  · exact hbare (.ret token.pos none)
  · exact hbare (.ret token.pos none)
  · exact relocates_advance.bind fun _ => (he _).bind fun value => hbare (.ret token.pos (some value))

theorem relocates_expressionStatement :
    Relocates place (Stmt.relocate place) (expressionStatement expr) (expressionStatement expr) :=
  relocates_cur.bind fun _ => (he _).bind fun _ => relocates_skipSemicolon.bind fun _ => relocates_pure rfl

theorem relocates_statementWith :
    Relocates place (Stmt.relocate place) (statementWith expr) (statementWith expr) := by
  refine .traced _ (relocates_cur.bind fun token => ?_)
  rw [Token.relocate_kind]
  split
  · exact relocates_bindStatement he
  · exact relocates_returnStatement he
  · exact relocates_expressionStatement he

theorem relocates_unary (op : UnaryOp) : Relocates place (Expr.relocate place) (unary expr op) (unary expr op) :=
  .traced _ <| relocates_cur.bind fun _ => relocates_advance.bind fun _ => (he _).bind fun _ => relocates_pure rfl

theorem relocates_grouped : Relocates place (Expr.relocate place) (grouped expr) (grouped expr) :=
  relocates_advance.bind fun _ => (he _).bind fun _ => (relocates_expect _).bind fun _ => relocates_pure rfl

theorem relocates_cond (n : Nat) : Relocates place (Expr.relocate place) (Parse.cond expr n) (Parse.cond expr n) := by
  have hblock := relocates_block (relocates_statementWith he) n
  refine relocates_cur.bind fun _ => (relocates_expect _).bind fun _ => relocates_advance.bind fun _ => ?_
  refine (he _).bind fun _ => (relocates_expect _).bind fun _ => (relocates_expect _).bind fun _ => ?_
  refine hblock.bind fun _ => (relocates_peekIs _).bind fun _ => relocates_ite ?_ (relocates_pure rfl)
  exact relocates_advance.bind fun _ => (relocates_expect _).bind fun _ => hblock.bind fun _ => relocates_pure rfl

theorem relocates_fn (n : Nat) : Relocates place (Expr.relocate place) (fn expr n) (fn expr n) := by
  have hparam : Relocates place (Ident.relocate place) (do expect .ident; name) (do expect .ident; name) :=
    (relocates_expect _).bind fun _ => relocates_name
  refine relocates_cur.bind fun _ => (relocates_expect _).bind fun _ => (relocates_items hparam _ n).bind fun _ => ?_
  exact (relocates_expect _).bind fun _ => (relocates_block (relocates_statementWith he) n).bind fun _ =>
    relocates_pure rfl

theorem relocates_expressions (close : Kind) (n : Nat) :
    Relocates place (List.map (Expr.relocate place)) (expressions expr close n) (expressions expr close n) :=
  relocates_items (relocates_advance.bind fun _ => he _) close n

theorem relocates_array (n : Nat) : Relocates place (Expr.relocate place) (array expr n) (array expr n) :=
  relocates_cur.bind fun _ => (relocates_expressions he _ n).bind fun _ => relocates_pure (by simp [Expr.relocate])

theorem relocates_hashPairs : ∀ n,
    Relocates place (List.map fun pair => (pair.1.relocate place, pair.2.relocate place)) (hashPairs expr n)
      (hashPairs expr n)
  | 0 => relocates_outOfBudget
  | n + 1 => by
    have hrest : ∀ key value : Expr,
        Relocates place (List.map fun pair => (pair.1.relocate place, pair.2.relocate place))
          (hashPairs expr n >>= fun rest => pure ((key, value) :: rest))
          (hashPairs expr n >>= fun rest => pure ((key.relocate place, value.relocate place) :: rest)) :=
      fun _ _ => (relocates_hashPairs n).bind fun _ => relocates_pure rfl
    refine (relocates_peekIs _).bind fun _ => relocates_ite (relocates_pure rfl) ?_
    refine relocates_advance.bind fun _ => (he _).bind fun key => (relocates_expect _).bind fun _ => ?_
    refine relocates_advance.bind fun _ => (he _).bind fun value => (relocates_peekIs _).bind fun _ => ?_
    exact relocates_ite ((relocates_expect _).bind fun _ => hrest key value) (hrest key value)

theorem relocates_hash (n : Nat) : Relocates place (Expr.relocate place) (hash expr n) (hash expr n) :=
  relocates_cur.bind fun _ => (relocates_hashPairs he n).bind fun _ => (relocates_expect _).bind fun _ =>
    relocates_pure (by simp [Expr.relocate])

omit he in
theorem relocates_integer : Relocates place (Expr.relocate place) integer integer := by
  refine relocates_cur.bind fun token => ?_
  rw [Token.relocate_literal]
  split
  · exact relocates_pure rfl
  · exact relocates_refuse _

theorem relocates_operand (n : Nat) : Relocates place (Expr.relocate place) (operand expr n) (operand expr n) := by
  refine relocates_cur.bind fun token => ?_
  rw [Token.relocate_kind]
  split
  · exact relocates_pure rfl
  · exact relocates_integer
  · exact relocates_pure rfl
  · exact relocates_pure rfl
  · exact relocates_pure rfl
  · exact relocates_unary he _
  · exact relocates_unary he _
  · exact relocates_grouped he
  · exact relocates_cond he n
  · exact relocates_fn he n
  · exact relocates_array he n
  · exact relocates_hash he n
  · exact relocates_refuse _

theorem relocates_extend (n : Nat) (left : Expr) :
    Relocates place (Expr.relocate place) (extend expr n left) (extend expr n (left.relocate place)) := by
  refine relocates_cur.bind fun token => ?_
  dsimp only
  rw [Token.relocate_kind]
  split
  · exact relocates_cur.bind fun _ => (relocates_expressions he _ n).bind fun _ =>
      relocates_pure (by simp [Expr.relocate])
  · exact relocates_cur.bind fun _ => relocates_advance.bind fun _ => (he _).bind fun _ =>
      (relocates_expect _).bind fun _ => relocates_pure rfl
  · split
    · exact .traced _ <| relocates_cur.bind fun _ => relocates_advance.bind fun _ => (he _).bind fun _ =>
        relocates_pure rfl
    · exact relocates_pure rfl

theorem relocates_climb (precedence : Precedence) : ∀ n left,
    Relocates place (Expr.relocate place) (climb expr precedence n left)
      (climb expr precedence n (left.relocate place))
  | 0, _ => relocates_outOfBudget
  | n + 1, left => relocates_peek.bind fun _ => relocates_ite
    (relocates_advance.bind fun _ => (relocates_extend he n left).bind fun e => relocates_climb precedence n e)
    (relocates_pure rfl)

end

theorem relocates_expression : ∀ n precedence,
    Relocates place (Expr.relocate place) (expression n precedence) (expression n precedence)
  | 0, _ => relocates_outOfBudget
  | n + 1, precedence => by
    have he := relocates_expression n
    exact .traced _ ((relocates_operand he n).bind fun left => relocates_climb he precedence n left)

/-- **The grammar does not look at places.** -/
theorem relocates_program (n : Nat) : Relocates place (Program.relocate place) (program n) (program n) :=
  relocates_cur.bind fun _ =>
    (relocates_programStatements (relocates_statementWith (relocates_expression n)) n).bind fun _ =>
      relocates_pure (by simp [Program.relocate])

end Parse

/-- The same tokens at other places give the same diagnostics, and the same program at other places. -/
theorem Parsed.ofStream_relocate (s : TokenStream) :
    (ofStream (s.relocate place)).program = (ofStream s).program.relocate place ∧
      (ofStream (s.relocate place)).diagnostics = (ofStream s).diagnostics := by
  have hbudget : (Parser.ofStream (s.relocate place)).budget = (Parser.ofStream s).budget :=
    congrArg (· + 2) (List.length_map _)
  have hrun : Parse.program (Parser.ofStream s).budget (Parser.ofStream (s.relocate place)) =
      (Parse.program (Parser.ofStream s).budget (Parser.ofStream s)).relocate place (Program.relocate place) :=
    Parse.relocates_program _ (Parser.ofStream s)
  have hcur : (Parser.ofStream (s.relocate place)).cur = (Parser.ofStream s).cur.relocate place :=
    Parser.relocate_cur place (Parser.ofStream s)
  unfold ofStream Parser.run
  rw [hbudget, hrun, hcur]
  cases Parse.program (Parser.ofStream s).budget (Parser.ofStream s) <;> exact ⟨rfl, rfl⟩

end Monkey
