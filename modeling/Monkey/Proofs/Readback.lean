import Monkey.Proofs.Accepted
import Monkey.Proofs.Spelling
/-!
# What it means to read something back

A tree is read back if the parser makes the same tree of the lexemes that spell it, up to places (`Expr.erase`), and
stops right behind them (`Parse.ReadsBack`).  What follows a phrase decides whether it ends there: `Ends` says that
nothing can continue the expression before, neither an operator nor an `else`.  Lists of anything that is read back are
read back (`readsBack_items`).
-/
namespace Monkey

open Monkey.Parser

/-! ## Trees without places -/

def Ident.erase (id : Ident) : Ident := ⟨.start, id.name⟩

mutual

/-- A tree without the places of its tokens. -/
def Expr.erase : Expr → Expr
  | .ident id => .ident id.erase
  | .int _ literal value => .int .start literal value
  | .bool _ value => .bool .start value
  | .str _ text => .str .start text
  | .array _ elements => .array .start (Expr.eraseAll elements)
  | .hash _ pairs => .hash .start (Expr.erasePairs pairs)
  | .unary _ op operand => .unary .start op operand.erase
  | .binary _ op left right => .binary .start op left.erase right.erase
  | .cond _ condition consequence none => .cond .start condition.erase consequence.erase none
  | .cond _ condition consequence (some alternative) =>
    .cond .start condition.erase consequence.erase (some alternative.erase)
  | .fn _ params body => .fn .start (params.map Ident.erase) body.erase
  | .call _ callee args => .call .start callee.erase (Expr.eraseAll args)
  | .index _ left index => .index .start left.erase index.erase

def Expr.eraseAll : List Expr → List Expr
  | [] => []
  | e :: rest => e.erase :: Expr.eraseAll rest

def Expr.erasePairs : List (Expr × Expr) → List (Expr × Expr)
  | [] => []
  | (key, value) :: rest => (key.erase, value.erase) :: Expr.erasePairs rest

/-- A statement without places, and an expression statement without its first token. -/
def Stmt.erase : Stmt → Stmt
  | .expr _ value => .expr (.atEnd .start) value.erase
  | .bind _ name value => .bind .start name.erase value.erase
  | .ret _ none => .ret .start none
  | .ret _ (some value) => .ret .start (some value.erase)

def Stmt.eraseAll : List Stmt → List Stmt
  | [] => []
  | s :: rest => s.erase :: Stmt.eraseAll rest

def Block.erase : Block → Block
  | .mk _ statements => .mk .start (Stmt.eraseAll statements)

end

theorem Expr.eraseAll_eq (es : List Expr) : Expr.eraseAll es = es.map Expr.erase := by
  induction es with
  | nil => rfl
  | cons e es ih => rw [Expr.eraseAll, ih, List.map_cons]

theorem Stmt.eraseAll_eq (statements : List Stmt) : Stmt.eraseAll statements = statements.map Stmt.erase := by
  induction statements with
  | nil => rfl
  | cons s statements ih => rw [Stmt.eraseAll, ih, List.map_cons]

/-- What remains of a program without places and introducing tokens. -/
def Program.erase (p : Program) : List Stmt := Stmt.eraseAll p.statements

/-! ## Lexemes ahead -/

/-- The kind of the first lexeme. -/
def leading : List Lexeme → Kind
  | [] => .eof
  | l :: _ => l.kind

/-- Nothing here can belong to the expression before. -/
def Ends (ls : List Lexeme) : Prop := (leading ls).precedence = .lowest ∧ leading ls ≠ .elseWord

theorem ends_cons {kind : Kind} {ls : List Lexeme} (h : kind.precedence = .lowest ∧ kind ≠ .elseWord) :
    Ends (.fixed kind :: ls) := h

theorem joined_cons (separator : Kind) (x : List Lexeme) (xs : List (List Lexeme)) :
    joined separator (x :: xs) = x ++ xs.flatMap fun y => .fixed separator :: y := by
  induction xs generalizing x with
  | nil => simp [joined]
  | cons y ys ih =>
    have hstep : joined separator (x :: y :: ys) = x ++ [.fixed separator] ++ joined separator (y :: ys) :=
      List.intercalate_cons_cons
    rw [hstep, ih y]
    simp

namespace Parser

variable {p : Parser} {l : Lexeme} {ls : List Lexeme}

/-- The tokens ahead are these lexemes, and nothing has been found wrong. -/
structure Shows (p : Parser) (ls : List Lexeme) : Prop where
  lexemes : p.ahead.map Token.lexeme = ls
  diagnostics : p.diagnostics = []

theorem Shows.advance (h : p.Shows (l :: ls)) : p.advance.Shows ls :=
  ⟨by rw [ahead_advance, List.map_tail, h.lexemes]; rfl, h.diagnostics⟩

theorem Shows.mark (h : p.Shows ls) (m : Mark) : (p.mark m).Shows ls := ⟨h.lexemes, h.diagnostics⟩

theorem Shows.lexeme_cur (h : p.Shows (l :: ls)) : p.cur.lexeme = l := by
  have hl := h.lexemes
  cases hp : p.ahead with
  | nil => rw [hp] at hl; cases hl
  | cons t ts =>
    rw [hp, List.map_cons] at hl
    rw [cur_of_ahead hp]
    exact (List.cons.inj hl).1

theorem Shows.cur (h : p.Shows ls) : p.cur.kind = leading ls := by
  cases ls with
  | nil =>
    have hp : p.ahead = [] := List.map_eq_nil_iff.1 h.lexemes
    exact cur_of_ahead_nil hp
  | cons l ls => exact congrArg Lexeme.kind h.lexeme_cur

theorem Shows.literal (h : p.Shows (l :: ls)) : p.cur.literal = l.literal := congrArg Lexeme.literal h.lexeme_cur

end Parser

namespace Parse

/-- A rule reads something back: its result is the same without places, and the lexemes behind it are left. -/
def ReadsBack {α : Type} (erase : α → α) (a : α) (rest : List Lexeme) (o : Outcome α) : Prop :=
  o.Succeeds (fun a' q => erase a' = erase a ∧ q.advance.Shows rest)

theorem shows_expect {α : Type} {kind : Kind} {f : Unit → Parse α} {p : Parser} {ls : List Lexeme}
    {D : α → Parser → Prop} (h : p.advance.Shows (.fixed kind :: ls))
    (hf : p.advance.advance.Shows ls → (f () p.advance).Succeeds D) :
    ((expect kind >>= f) p).Succeeds D :=
  holds_expect (fun hne => hne h.cur) fun _ => hf h.advance

theorem shows_traced {α : Type} {erase : α → α} {a : α} {rest : List Lexeme} {rule : Rule} {x : Parse α} {p : Parser}
    (hx : ReadsBack erase a rest (x (p.mark (.enter rule p.cur)))) : ReadsBack erase a rest (traced rule x p) :=
  holds_traced hx (fun _ _ h => ⟨h.1, ⟨h.2.lexemes, h.2.diagnostics⟩⟩) fun _ h => h

/-! ## Lists -/

section

variable {α : Type} {item : Parse α} {spell : α → List Lexeme} {erase : α → α} {close : Kind}
  (hclose : close.precedence = .lowest ∧ close ≠ .elseWord) (hcomma : close ≠ .comma)
include hclose hcomma

theorem readsBack_moreItems : ∀ (as : List α)
    (_ : ∀ a ∈ as, ∀ p rest, Ends rest → p.advance.Shows (spell a ++ rest) → ReadsBack erase a rest (item p))
    (n : Nat) (p : Parser) (rest : List Lexeme),
    p.advance.Shows ((as.map spell).flatMap (fun y => .fixed .comma :: y) ++ .fixed close :: rest) →
      (moreItems item n p).Succeeds (fun as' q => as'.map erase = as.map erase ∧ q.advance.Shows (.fixed close :: rest))
  | _, _, 0, _, _, _ => trivial
  | [], _, n + 1, p, rest, h => by
    rw [moreItems]
    exact holds_peekIs (fun hp => absurd (h.cur.symm.trans hp) hcomma) fun _ => ⟨rfl, h⟩
  | a :: as, hitem, n + 1, p, rest, h => by
    rw [List.map_cons, List.flatMap_cons, List.cons_append, List.cons_append, List.append_assoc] at h
    rw [moreItems]
    refine holds_peekIs (fun _ => ?_) fun hp => absurd h.cur hp
    rw [advance_bind]
    have hends : Ends ((as.map spell).flatMap (fun y => .fixed .comma :: y) ++ .fixed close :: rest) := by
      cases as with
      | nil => exact ends_cons hclose
      | cons b as => exact ends_cons (by decide)
    refine holds_then (hitem a List.mem_cons_self _ _ hends h.advance) fun x q hq => ?_
    refine holds_then (readsBack_moreItems as (fun b hb => hitem b (List.mem_cons_of_mem _ hb)) n q rest hq.2)
      fun xs r hr => ?_
    exact ⟨by rw [List.map_cons, List.map_cons, hq.1, hr.1], hr.2⟩

theorem readsBack_items {as : List α}
    (hitem : ∀ a ∈ as, ∀ p rest, Ends rest → p.advance.Shows (spell a ++ rest) → ReadsBack erase a rest (item p))
    (hhead : ∀ a ∈ as, ∀ rest, leading (spell a ++ rest) ≠ close) (n : Nat) {p : Parser} {rest : List Lexeme}
    (h : p.advance.Shows (joined .comma (as.map spell) ++ .fixed close :: rest)) :
    (items item close n p).Succeeds (fun as' q => as'.map erase = as.map erase ∧ q.advance.Shows rest) := by
  rw [items]
  cases as with
  | nil => exact holds_peekIs (fun _ => ⟨rfl, h.advance⟩) fun hp => absurd h.cur hp
  | cons a as =>
    rw [List.map_cons, joined_cons, List.append_assoc] at h
    refine holds_peekIs (fun hp => absurd (h.cur.symm.trans hp) (hhead a List.mem_cons_self _)) fun _ => ?_
    have hends : Ends ((as.map spell).flatMap (fun y => .fixed .comma :: y) ++ .fixed close :: rest) := by
      cases as with
      | nil => exact ends_cons hclose
      | cons b as => exact ends_cons (by decide)
    refine holds_then (hitem a List.mem_cons_self _ _ hends h) fun x q hq => ?_
    refine holds_then (readsBack_moreItems hclose hcomma as (fun b hb => hitem b (List.mem_cons_of_mem _ hb)) n q rest
      hq.2) fun xs r hr => ?_
    refine shows_expect hr.2 fun h => ?_
    exact ⟨by rw [List.map_cons, List.map_cons, hq.1, hr.1], h⟩

end

theorem readsBack_param {id : Ident} {p : Parser} {rest : List Lexeme} (h : p.advance.Shows ([id.lexeme] ++ rest)) :
    ReadsBack Ident.erase id rest ((do expect .ident; name) p) := by
  refine holds_expect (fun hne => hne h.cur) fun _ => ?_
  exact ⟨congrArg (Ident.mk .start) h.literal, h.advance⟩

end Parse

end Monkey
