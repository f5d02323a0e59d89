import Monkey.Proofs.Rule
/-!
# Parsing without a trace

The grammar with its tracing left out: the same primitives in the same order, and no mark.  Every rule of the grammar
has such a version (`Parse.quieted_program`), and as no primitive reads the marks, it ends as the traced rule does, with
the same result and on the same parser but for the marks (`Parse.Untraced.eq_withMarks`).
-/
namespace Monkey

namespace Parser

/-- The same parser with another trace. -/
def withMarks (p : Parser) (ms : List Mark) : Parser := { p with marks := ms }

theorem resumeWithin_withMarks (ms : List Mark) : ∀ (n : Nat) (p : Parser) (depth : Int),
    (p.withMarks ms).resumeWithin n depth = (p.resumeWithin n depth).withMarks ms
  | 0, _, _ => rfl
  | n + 1, p, depth => by
    rw [resumeWithin, resumeWithin]
    show (if p.isResumption depth then p.withMarks ms else (p.advance.withMarks ms).resumeWithin n depth) = _
    rw [resumeWithin_withMarks ms n p.advance depth]
    split <;> rfl

end Parser

/-- The same outcome on a parser with another trace. -/
def Outcome.withMarks {α : Type} (ms : List Mark) : Outcome α → Outcome α
  | .done a q => .done a (q.withMarks ms)
  | .malformed q => .malformed (q.withMarks ms)
  | .exhausted => .exhausted

namespace Parse

/-- The second rule is the first with its tracing left out. -/
inductive Untraced : {α : Type} → Parse α → Parse α → Prop where
  | pure {α : Type} (a : α) : Untraced (pure a) (pure a)
  | bind {α β : Type} {x y : Parse α} {f g : α → Parse β} :
      Untraced x y → (∀ a, Untraced (f a) (g a)) → Untraced (x >>= f) (y >>= g)
  | look {α : Type} (f : Parser → α) : (∀ p ms, f (p.withMarks ms) = f p) → Untraced (look f) (look f)
  | advance : Untraced advance advance
  | resume (depth : Int) : Untraced (resume depth) (resume depth)
  | refuse {α : Type} (d : Diagnostic) : Untraced (refuse d : Parse α) (refuse d)
  | outOfBudget {α : Type} : Untraced (outOfBudget : Parse α) outOfBudget
  | expect (kind : Kind) : Untraced (expect kind) (expect kind)
  | attempt {α : Type} {x y : Parse α} : Untraced x y → Untraced (attempt x) (attempt y)
  | traced {α : Type} (rule : Rule) {x y : Parse α} : Untraced x y → Untraced (traced rule x) y

/-- A rule without its tracing takes the same course, and leaves the trace as it is. -/
theorem Untraced.eq_withMarks {α : Type} {x y : Parse α} (h : Untraced x y) :
    ∀ p ms, y (p.withMarks ms) = (x p).withMarks ms := by
  induction h with
  | pure a => exact fun _ _ => rfl
  | @bind α β x y f g _ _ ihx ihf =>
    intro p ms
    show andThen y g (p.withMarks ms) = (andThen x f p).withMarks ms
    unfold andThen
    rw [ihx p ms]
    cases x p with
    | done a q => exact ihf a q ms
    | malformed q => rfl
    | exhausted => rfl
  | look f hf =>
    intro p ms
    show Outcome.done (f (p.withMarks ms)) _ = Outcome.done (f p) _
    rw [hf p ms]
  | advance => exact fun _ _ => rfl
  | resume depth =>
    intro p ms
    exact congrArg (Outcome.done ()) (Parser.resumeWithin_withMarks ms p.ahead.length p depth)
  | refuse d => exact fun _ _ => rfl
  | outOfBudget => exact fun _ _ => rfl
  | expect kind =>
    intro p ms
    show (if p.peek.kind = kind then _ else _) = Outcome.withMarks ms (if p.peek.kind = kind then _ else _)
    split <;> rfl
  | @attempt α x y _ ih =>
    intro p ms
    unfold Parse.attempt
    rw [ih p ms]
    cases x p <;> rfl
  | @traced α rule x y _ ih =>
    intro p ms
    -- the mark of the beginning is among those that are replaced
    refine (ih (p.mark (.enter rule p.cur)) ms).trans ?_
    unfold Parse.traced
    cases x (p.mark (.enter rule p.cur)) <;> rfl

/-- A rule that can do without its tracing. -/
def Quieted {α : Type} (x : Parse α) : Prop := ∃ y, Untraced x y

section

variable {α β : Type} {x : Parse α}

theorem Quieted.bind {f : α → Parse β} (hx : Quieted x) (hf : ∀ a, Quieted (f a)) : Quieted (x >>= f) := by
  obtain ⟨y, hy⟩ := hx
  obtain ⟨g, hg⟩ := Classical.skolem.1 hf
  exact ⟨y >>= g, .bind hy hg⟩

theorem Quieted.traced (rule : Rule) (hx : Quieted x) : Quieted (traced rule x) := hx.imp fun _ => .traced rule

theorem Quieted.attempt (hx : Quieted x) : Quieted (attempt x) := by
  obtain ⟨y, hy⟩ := hx
  exact ⟨Parse.attempt y, .attempt hy⟩

theorem quieted_pure (a : α) : Quieted (pure a) := ⟨_, .pure a⟩

theorem quieted_look (f : Parser → α) (hf : ∀ p ms, f (p.withMarks ms) = f p) : Quieted (look f) := ⟨_, .look f hf⟩

theorem quieted_cur : Quieted cur := quieted_look _ fun _ _ => rfl

theorem quieted_peek : Quieted peek := quieted_look _ fun _ _ => rfl

theorem quieted_peekIs (kind : Kind) : Quieted (peekIs kind) := quieted_look _ fun _ _ => rfl

theorem quieted_name : Quieted name := quieted_look _ fun _ _ => rfl

theorem quieted_advance : Quieted advance := ⟨_, .advance⟩

theorem quieted_resume (depth : Int) : Quieted (resume depth) := ⟨_, .resume depth⟩

theorem quieted_refuse (d : Diagnostic) : Quieted (refuse d : Parse α) := ⟨_, .refuse d⟩

theorem quieted_outOfBudget : Quieted (outOfBudget : Parse α) := ⟨_, .outOfBudget⟩

theorem quieted_expect (kind : Kind) : Quieted (expect kind) := ⟨_, .expect kind⟩

theorem quieted_ite {c : Prop} [Decidable c] {y : Parse α} (hx : Quieted x) (hy : Quieted y) :
    Quieted (if c then x else y) := by
  split
  · exact hx
  · exact hy

theorem quieted_skipSemicolon : Quieted skipSemicolon :=
  (quieted_peekIs _).bind fun _ => quieted_ite quieted_advance (quieted_pure _)

theorem quieted_integer : Quieted integer := by
  refine quieted_cur.bind fun token => ?_
  split
  · exact quieted_pure _
  · exact quieted_refuse _

/-! ## Lists and blocks -/

theorem quieted_moreItems (hx : Quieted x) : ∀ n, Quieted (moreItems x n)
  | 0 => quieted_outOfBudget
  | n + 1 => (quieted_peekIs _).bind fun _ => quieted_ite
    (quieted_advance.bind fun _ => hx.bind fun _ => (quieted_moreItems hx n).bind fun _ => quieted_pure _)
    (quieted_pure _)

theorem quieted_items (hx : Quieted x) (close : Kind) (n : Nat) : Quieted (items x close n) :=
  (quieted_peekIs _).bind fun _ => quieted_ite
    (quieted_advance.bind fun _ => quieted_pure _)
    (hx.bind fun _ => (quieted_moreItems hx n).bind fun _ => (quieted_expect _).bind fun _ => quieted_pure _)

theorem quieted_params (n : Nat) : Quieted (params n) :=
  quieted_items ((quieted_expect _).bind fun _ => quieted_name) _ n

end

section

variable {stmt : Parse Stmt} (hs : Quieted stmt)
include hs

theorem quieted_blockStatements : ∀ n, Quieted (blockStatements stmt n)
  | 0 => quieted_outOfBudget
  | n + 1 => by
    refine quieted_cur.bind fun token => ?_
    split
    · exact quieted_pure _
    · exact quieted_refuse _
    · refine (quieted_look _ fun _ _ => rfl).bind fun depth => hs.attempt.bind fun s? => ?_
      cases s? with
      | some s => exact quieted_advance.bind fun _ => (quieted_blockStatements n).bind fun _ => quieted_pure _
      | none =>
        exact (quieted_resume _).bind fun _ => quieted_cur.bind fun _ =>
          quieted_ite (quieted_pure _) (quieted_advance.bind fun _ => quieted_blockStatements n)

theorem quieted_block (n : Nat) : Quieted (block stmt n) :=
  quieted_cur.bind fun _ => quieted_advance.bind fun _ => (quieted_blockStatements hs n).bind fun _ => quieted_pure _

theorem quieted_programStatements : ∀ n, Quieted (programStatements stmt n)
  | 0 => quieted_outOfBudget
  | n + 1 => by
    refine quieted_cur.bind fun token => quieted_ite (quieted_pure _) ?_
    refine (quieted_look _ fun _ _ => rfl).bind fun depth => hs.attempt.bind fun s? => ?_
    cases s? with
    | some s => exact quieted_advance.bind fun _ => (quieted_programStatements n).bind fun _ => quieted_pure _
    | none => exact (quieted_resume _).bind fun _ => quieted_advance.bind fun _ => quieted_programStatements n

end

/-! ## The rules over a rule for expressions -/

section

variable {expr : Precedence → Parse Expr} (he : ∀ precedence, Quieted (expr precedence))
include he

theorem quieted_bindStatement : Quieted (bindStatement expr) :=
  quieted_cur.bind fun _ => (quieted_expect _).bind fun _ => quieted_name.bind fun _ => (quieted_expect _).bind fun _ =>
    quieted_advance.bind fun _ => (he _).bind fun _ => quieted_skipSemicolon.bind fun _ => quieted_pure _

theorem quieted_returnStatement : Quieted (returnStatement expr) := by
  have hbare (s : Stmt) : Quieted (skipSemicolon >>= fun _ => pure s) :=
    quieted_skipSemicolon.bind fun _ => quieted_pure _
  refine quieted_cur.bind fun _ => quieted_peek.bind fun token => ?_
  split
  · exact hbare _
  · exact hbare _
  · exact hbare _
  · exact quieted_advance.bind fun _ => (he _).bind fun _ => hbare _

theorem quieted_expressionStatement : Quieted (expressionStatement expr) :=
  quieted_cur.bind fun _ => (he _).bind fun _ => quieted_skipSemicolon.bind fun _ => quieted_pure _

theorem quieted_statementWith : Quieted (statementWith expr) := by
  refine .traced _ (quieted_cur.bind fun token => ?_)
  split
  · exact quieted_bindStatement he
  · exact quieted_returnStatement he
  · exact quieted_expressionStatement he

theorem quieted_unary (op : UnaryOp) : Quieted (unary expr op) :=
  .traced _ <| quieted_cur.bind fun _ => quieted_advance.bind fun _ => (he _).bind fun _ => quieted_pure _

theorem quieted_binary (op : BinaryOp) (left : Expr) : Quieted (binary expr op left) :=
  .traced _ <| quieted_cur.bind fun _ => quieted_advance.bind fun _ => (he _).bind fun _ => quieted_pure _

theorem quieted_grouped : Quieted (grouped expr) :=
  quieted_advance.bind fun _ => (he _).bind fun _ => (quieted_expect _).bind fun _ => quieted_pure _

theorem quieted_cond (n : Nat) : Quieted (Parse.cond expr n) := by
  have hblock := quieted_block (quieted_statementWith he) n
  refine quieted_cur.bind fun _ => (quieted_expect _).bind fun _ => quieted_advance.bind fun _ => ?_
  refine (he _).bind fun _ => (quieted_expect _).bind fun _ => (quieted_expect _).bind fun _ => hblock.bind fun _ => ?_
  refine (quieted_peekIs _).bind fun _ => quieted_ite ?_ (quieted_pure _)
  exact quieted_advance.bind fun _ => (quieted_expect _).bind fun _ => hblock.bind fun _ => quieted_pure _

theorem quieted_fn (n : Nat) : Quieted (fn expr n) := by
  refine quieted_cur.bind fun _ => (quieted_expect _).bind fun _ => (quieted_params n).bind fun _ => ?_
  exact (quieted_expect _).bind fun _ => (quieted_block (quieted_statementWith he) n).bind fun _ => quieted_pure _

theorem quieted_expressions (close : Kind) (n : Nat) : Quieted (expressions expr close n) :=
  quieted_items (quieted_advance.bind fun _ => he _) close n

theorem quieted_array (n : Nat) : Quieted (array expr n) :=
  quieted_cur.bind fun _ => (quieted_expressions he _ n).bind fun _ => quieted_pure _

theorem quieted_call (n : Nat) (callee : Expr) : Quieted (call expr n callee) :=
  quieted_cur.bind fun _ => (quieted_expressions he _ n).bind fun _ => quieted_pure _

theorem quieted_index (left : Expr) : Quieted (index expr left) :=
  quieted_cur.bind fun _ => quieted_advance.bind fun _ => (he _).bind fun _ => (quieted_expect _).bind fun _ =>
    quieted_pure _

theorem quieted_hashPairs : ∀ n, Quieted (hashPairs expr n)
  | 0 => quieted_outOfBudget
  | n + 1 => by
    have hrest (pair : Expr × Expr) : Quieted (hashPairs expr n >>= fun rest => pure (pair :: rest)) :=
      (quieted_hashPairs n).bind fun _ => quieted_pure _
    refine (quieted_peekIs _).bind fun _ => quieted_ite (quieted_pure _) ?_
    refine quieted_advance.bind fun _ => (he _).bind fun _ => (quieted_expect _).bind fun _ => ?_
    refine quieted_advance.bind fun _ => (he _).bind fun _ => (quieted_peekIs _).bind fun _ => ?_
    exact quieted_ite ((quieted_expect _).bind fun _ => hrest _) (hrest _)

theorem quieted_hash (n : Nat) : Quieted (hash expr n) :=
  quieted_cur.bind fun _ => (quieted_hashPairs he n).bind fun _ => (quieted_expect _).bind fun _ => quieted_pure _

theorem quieted_operand (n : Nat) : Quieted (operand expr n) := by
  refine quieted_cur.bind fun token => ?_
  split
  · exact quieted_pure _
  · exact quieted_integer
  · exact quieted_pure _
  · exact quieted_pure _
  · exact quieted_pure _
  · exact quieted_unary he _
  · exact quieted_unary he _
  · exact quieted_grouped he
  · exact quieted_cond he n
  · exact quieted_fn he n
  · exact quieted_array he n
  · exact quieted_hash he n
  · exact quieted_refuse _

theorem quieted_extend (n : Nat) (left : Expr) : Quieted (extend expr n left) := by
  refine quieted_cur.bind fun token => ?_
  dsimp only
  split
  · exact quieted_call he n left
  · exact quieted_index he left
  · split
    · exact quieted_binary he _ left
    · exact quieted_pure _

theorem quieted_climb (precedence : Precedence) : ∀ n left, Quieted (climb expr precedence n left)
  | 0, _ => quieted_outOfBudget
  | n + 1, left => quieted_peek.bind fun _ => quieted_ite
    (quieted_advance.bind fun _ => (quieted_extend he n left).bind fun e => quieted_climb precedence n e)
    (quieted_pure _)

end

theorem quieted_expression : ∀ n precedence, Quieted (expression n precedence)
  | 0, _ => quieted_outOfBudget
  | n + 1, precedence => by
    have he := quieted_expression n
    exact .traced _ ((quieted_operand he n).bind fun left => quieted_climb he precedence n left)

theorem quieted_program (n : Nat) : Quieted (program n) :=
  quieted_cur.bind fun _ =>
    (quieted_programStatements (quieted_statementWith (quieted_expression n)) n).bind fun _ => quieted_pure _

end Parse

end Monkey
