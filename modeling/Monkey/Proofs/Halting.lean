import Monkey.Proofs.Budget
import Monkey.Proofs.Motion
import Monkey.Proofs.Twin
/-!
# The parser always halts

Whatever is asked of a parser (`Parser.Request`), wherever its cursor is, also at the end of the text and at any depth of
braces: the run ends within a budget of two more than the tokens ahead, and the cursor has not moved back
(`Parser.every_request_halts`).
-/
namespace Monkey.Parser

/-- What a parser can be asked for, wherever its cursor is: to look at the tokens or to move, and every rule of the
grammar, with what a rule is given that goes on behind an operand or leaves the choice of a token open. -/
inductive Request where
  | look (f : Parser → Expr)
  | advance
  | expect (kind : Kind)
  | resume (depth : Int)
  | program
  | statement
  | bindStatement
  | returnStatement
  | expressionStatement
  | block
  | expression (precedence : Precedence)
  | integer
  | unary (op : UnaryOp)
  | binary (op : BinaryOp) (left : Expr) (precedence : Precedence)
  | grouped
  | cond
  | fn
  | params
  | call (callee : Expr)
  | expressions (close : Kind)
  | array
  | index (left : Expr)
  | hash

namespace Request

/-- What is given when the request is met. -/
def Result : Request → Type
  | advance | expect _ | resume _ => Unit
  | program => Program
  | statement | bindStatement | returnStatement | expressionStatement => Stmt
  | block => Block
  | params => List Ident
  | expressions _ => List Expr
  | _ => Expr

/-- The rule that meets the request, within a budget. -/
def rule : (r : Request) → Nat → Parse r.Result
  | look f, _ => Parse.look f
  | advance, _ => Parse.advance
  | expect kind, _ => Parse.expect kind
  | resume depth, _ => Parse.resume depth
  | program, n => Parse.program n
  | statement, n => Parse.statement n
  | bindStatement, n => Parse.bindStatement (Parse.expression n)
  | returnStatement, n => Parse.returnStatement (Parse.expression n)
  | expressionStatement, n => Parse.expressionStatement (Parse.expression n)
  | block, n => Parse.block (Parse.statement n) n
  | expression precedence, n => Parse.expression n precedence
  | integer, _ => Parse.integer
  | unary op, n => Parse.unary (Parse.expression n) op
  | binary op left precedence, n => Parse.binary (fun _ => Parse.expression n precedence) op left
  | grouped, n => Parse.grouped (Parse.expression n)
  | cond, n => Parse.cond (Parse.expression n) n
  | fn, n => Parse.fn (Parse.expression n) n
  | params, n => Parse.params n
  | call callee, n => Parse.call (Parse.expression n) n callee
  | expressions close, n => Parse.expressions (Parse.expression n) close n
  | array, n => Parse.array (Parse.expression n) n
  | index left, n => Parse.index (Parse.expression n) left
  | hash, n => Parse.hash (Parse.expression n) n

theorem within_rule (r : Request) {n n' : Nat} (hn : n ≤ n') : Parse.Within (r.rule n) (r.rule n') := by
  have he (precedence : Precedence) := Parse.within_expression precedence hn
  cases r with
  | look | advance | expect | resume | integer => exact .refl _
  | program => exact Parse.within_program hn
  | statement => exact Parse.within_statement hn
  | bindStatement => exact Parse.within_bindStatement he
  | returnStatement => exact Parse.within_returnStatement he
  | expressionStatement => exact Parse.within_expressionStatement he
  | block => exact Parse.within_block (Parse.within_statement hn) hn
  | expression precedence => exact he precedence
  | unary op => exact Parse.within_unary he op
  | binary op left precedence => exact Parse.within_binary (fun _ => he precedence) op left
  | grouped => exact Parse.within_grouped he
  | cond => exact Parse.within_cond he hn
  | fn => exact Parse.within_fn he hn
  | params => exact Parse.within_params hn
  | call callee => exact Parse.within_call he hn callee
  | expressions close => exact Parse.within_expressions he hn close
  | array => exact Parse.within_array he hn
  | index left => exact Parse.within_index he left
  | hash => exact Parse.within_hash he hn

/-- Every request keeps every law of motion that is free in what it records, within a budget of one for each token
ahead. -/
theorem proceeds_rule {R : Parser → Parser → Prop} [Law R] (hfree : ∀ p d, R p (p.report d)) (r : Request) (n : Nat) :
    Parse.Proceeds R n (r.rule n) := by
  have he := Parse.consumes_expression (R := R) n
  have hn := Nat.le_refl n
  cases r with
  | look f => exact Parse.proceeds_look f
  | advance => exact Parse.proceeds_advance
  | expect kind => exact Parse.proceeds_expect kind
  | resume depth => exact Parse.proceeds_resume depth
  | program => exact Parse.proceeds_program n
  | statement => exact Parse.proceeds_statement n
  | bindStatement => exact Parse.proceeds_bindStatement he
  | returnStatement => exact Parse.proceeds_returnStatement he
  | expressionStatement => exact Parse.proceeds_expressionStatement he
  | block => exact Parse.proceeds_block (Parse.proceeds_statement n) hn
  | expression precedence => exact (he precedence).proceeds
  | integer => exact Parse.proceeds_integer hfree
  | unary op => exact Parse.proceeds_unary he op
  | binary op left precedence => exact Parse.proceeds_binary (fun _ => he precedence) op left
  | grouped => exact Parse.proceeds_grouped he
  | cond => exact Parse.proceeds_cond he hn
  | fn => exact Parse.proceeds_fn he hn
  | params => exact Parse.proceeds_params hn
  | call callee => exact Parse.proceeds_call he hn callee
  | expressions close => exact Parse.proceeds_expressions he hn close
  | array => exact Parse.proceeds_array he hn
  | index left => exact Parse.proceeds_index he left
  | hash => exact Parse.proceeds_hash he hn

end Request

/-- Skipping has come to its end when it has been given a step for every token ahead. -/
theorem resumeWithin_of_le : ∀ (n : Nat) (p : Parser) (depth : Int), p.ahead.length ≤ n →
    p.resumeWithin n depth = p.resume depth
  | 0, p, depth, h => by
    rw [resume, Nat.le_zero.1 h]
  | n + 1, p, depth, h => by
    have hadv : p.advance.ahead.length ≤ n := by rw [ahead_advance, List.length_tail]; omega
    rw [resume_eq, resumeWithin, resumeWithin_of_le n p.advance depth hadv]

/-- A request ends within the parser's budget, whatever its end is, and keeps such a law. -/
theorem Request.keeps_rule {R : Parser → Parser → Prop} [Law R] (hfree : ∀ p d, R p (p.report d)) (r : Request)
    (p : Parser) : (r.rule p.budget p).Holds (fun _ q => R p q) (R p) False :=
  (r.proceeds_rule hfree p.budget p).imp (fun _ _ h => h) (fun _ h => h) fun h => by
    rw [budget] at h
    omega

/-- So the cursor has only moved on. -/
theorem Request.holds_rule (r : Request) (p : Parser) :
    (r.rule p.budget p).Holds (fun _ q => p.Moves q) p.Moves False := r.keeps_rule moves_report p

/-- A request that has ended is not answered differently within a larger budget. -/
theorem Request.rule_of_le (r : Request) (p : Parser) {n : Nat} (hn : p.budget ≤ n) :
    r.rule n p = r.rule p.budget p := by
  refine (r.within_rule hn p).resolve_left fun hexhausted => ?_
  have h := r.holds_rule p
  rw [hexhausted] at h
  exact h

/-- **The parser always halts.**  Every request ends within the parser's budget, and in the same way within any larger
one; the cursor has moved on over some tokens or has stayed where it was.  Skipping stops at a place where parsing goes
on, after at most one step for each token ahead, and the program is read to the end of the text. -/
theorem every_request_halts (p : Parser) :
    (∀ r : Request, (r.rule p.budget p).Holds (fun _ q => p.Moves q) p.Moves False ∧
      ∀ n, p.budget ≤ n → r.rule n p = r.rule p.budget p) ∧
    (∀ depth : Int, (p.resume depth).isResumption depth = true ∧
      ∀ n, p.ahead.length ≤ n → p.resumeWithin n depth = p.resume depth) ∧
    ∃ program q, Parse.program p.budget p = .done program q ∧ q.cur.kind = .eof := by
  refine ⟨fun r => ⟨r.holds_rule p, fun n hn => r.rule_of_le p hn⟩,
    fun depth => ⟨isResumption_resume p depth, fun n hn => resumeWithin_of_le n p depth hn⟩, ?_⟩
  obtain ⟨statements, q, -, hend, hprogram⟩ := Parse.program_budget p
  exact ⟨⟨p.cur, statements⟩, q, hprogram, hend⟩

end Monkey.Parser
