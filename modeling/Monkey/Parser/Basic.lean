import Monkey.Ast.Basic
import Monkey.Token.Stream
/-!
# Parser states and rules

A parser is a cursor in a token stream that knows how many braces are open before it and keeps what it has found wrong.
A rule runs on a parser; it ends with a result, or finds its input malformed, or is out of budget.  Nothing here but
the four primitive moves `advance`, `report`, `mark` and `resume` changes a parser, and every rule of the grammar is put
together from them.
-/
namespace Monkey

/-- How tightly an operator binds. -/
inductive Precedence where
  | lowest | equals | lessGreater | sum | product | unary | call | index
  deriving DecidableEq

namespace Precedence

def all : List Precedence := [lowest, equals, lessGreater, sum, product, unary, call, index]

/-- The rank of a precedence: the higher, the tighter. -/
def rank : Precedence → Nat
  | lowest => 1
  | equals => 2
  | lessGreater => 3
  | sum => 4
  | product => 5
  | unary => 6
  | call => 7
  | index => 8

def name : Precedence → String
  | lowest => "LOWEST"
  | equals => "EQUALS"
  | lessGreater => "LESSGREATER"
  | sum => "SUM"
  | product => "PRODUCT"
  | unary => "PREFIX"
  | call => "CALL"
  | index => "INDEX"

def ofName? (text : String) : Option Precedence := all.find? (·.name == text)

end Precedence

/-- How tightly a token binds the expression before it; a token that cannot follow an operand binds least. -/
def Kind.precedence : Kind → Precedence
  | .eq | .notEq => .equals
  | .lt | .gt => .lessGreater
  | .plus | .minus => .sum
  | .slash | .asterisk => .product
  | .lparen => .call
  | .lbracket => .index
  | _ => .lowest

/-- How a token changes the number of open braces. -/
def Kind.braces : Kind → Int
  | .lbrace => 1
  | .rbrace => -1
  | _ => 0

/-- What is wrong with a source text. -/
inductive Diagnostic where
  | expected (want got : Kind)
  | noOperand (kind : Kind)
  | badInteger (literal : String)
  deriving DecidableEq

def Diagnostic.message : Diagnostic → String
  | expected want got => "expected next token to be " ++ want.spelling ++ ", got " ++ got.spelling ++ " instead"
  | noOperand kind => "no prefix parse function for " ++ kind.spelling ++ " found"
  | badInteger literal => "could not parse " ++ literal ++ " as integer"

/-- The rules that a trace shows. -/
inductive Rule where
  | statement
  | expression (precedence : Precedence)
  | unary
  | binary
  deriving DecidableEq

def Rule.name : Rule → String
  | statement => "parse_statement"
  | expression precedence => "parse_expression[" ++ precedence.name ++ "]"
  | unary => "parse_prefix_expression"
  | binary => "parse_infix_expression"

/-- An entry of a trace: a rule is entered on a token, and left with a result or without one. -/
inductive Mark where
  | enter (rule : Rule) (token : Token)
  | leave (rule : Rule) (accepted : Bool)

/-- A parser: the tokens from the cursor on, the number of open braces before the cursor, the diagnostics in the order
in which they were found, and the trace, last mark first. -/
structure Parser extends TokenStream where
  depth : Int
  diagnostics : List Diagnostic
  marks : List Mark

namespace Parser

def ofStream (s : TokenStream) : Parser := { s with depth := 0, diagnostics := [], marks := [] }

def ofSource (source : String) : Parser := ofStream (.ofSource source)

def cur (p : Parser) : Token := p.ahead.headD p.eof

def peek (p : Parser) : Token := p.ahead.tail.headD p.eof

/-- The number of open braces before the token behind the cursor's. -/
def peekDepth (p : Parser) : Int := p.depth + p.cur.kind.braces

/-- The cursor moves on by one token, and stays at the end. -/
def advance (p : Parser) : Parser := { p with ahead := p.ahead.tail, depth := p.peekDepth }

def report (p : Parser) (d : Diagnostic) : Parser := { p with diagnostics := p.diagnostics ++ [d] }

def mark (p : Parser) (m : Mark) : Parser := { p with marks := m :: p.marks }

/-- Where the skipping of a malformed statement ends: on a semicolon or a closing brace, or before a `let` or a
`return`, unless braces opened inside the statement are still open there. -/
def isResumption (p : Parser) (depth : Int) : Bool :=
  p.cur.kind == .eof || ((p.cur.kind == .semicolon || p.cur.kind == .rbrace) && decide (p.depth ≤ depth)) ||
    p.peek.kind == .eof || ((p.peek.kind == .letWord || p.peek.kind == .returnWord) && decide (p.peekDepth ≤ depth))

/-- The cursor moves on by at most so many tokens, to the first place where a statement that began at a brace depth can
be left. -/
def resumeWithin : Nat → Parser → Int → Parser
  | 0, p, _ => p
  | n + 1, p, depth => if p.isResumption depth then p else resumeWithin n p.advance depth

/-- The cursor moves behind a malformed statement that began at a brace depth. -/
def resume (p : Parser) (depth : Int) : Parser := resumeWithin p.ahead.length p depth

end Parser

inductive Outcome (α : Type) where
  | done (result : α) (p : Parser)
  | malformed (p : Parser)
  | exhausted

/-- A rule of the grammar. -/
def Parse (α : Type) : Type := Parser → Outcome α

namespace Parse

def succeed {α : Type} (a : α) : Parse α := fun p => .done a p

/-- One rule after the other; the second runs only if the first has a result. -/
def andThen {α β : Type} (x : Parse α) (f : α → Parse β) : Parse β := fun p =>
  match x p with
  | .done a q => f a q
  | .malformed q => .malformed q
  | .exhausted => .exhausted

instance : Monad Parse where
  pure := succeed
  bind := andThen

/-- What can be seen from the cursor. -/
def look {α : Type} (f : Parser → α) : Parse α := fun p => .done (f p) p

def cur : Parse Token := look (·.cur)

def peek : Parse Token := look (·.peek)

def peekIs (kind : Kind) : Parse Bool := look fun p => p.peek.kind == kind

def advance : Parse Unit := fun p => .done () p.advance

/-- The cursor moves behind a malformed statement. -/
def resume (depth : Int) : Parse Unit := fun p => .done () (p.resume depth)

/-- The input is malformed, and this is why. -/
def refuse {α : Type} (d : Diagnostic) : Parse α := fun p => .malformed (p.report d)

def outOfBudget {α : Type} : Parse α := fun _ => .exhausted

/-- The cursor moves on to a token of a kind. -/
def expect (kind : Kind) : Parse Unit := fun p =>
  if p.peek.kind = kind then .done () p.advance else .malformed (p.report (.expected kind p.peek.kind))

/-- A rule whose malformed input is no reason to stop. -/
def attempt {α : Type} (x : Parse α) : Parse (Option α) := fun p =>
  match x p with
  | .done a q => .done (some a) q
  | .malformed q => .done none q
  | .exhausted => .exhausted

/-- A rule between the two marks that it leaves in the trace. -/
def traced {α : Type} (rule : Rule) (x : Parse α) : Parse α := fun p =>
  match x (p.mark (.enter rule p.cur)) with
  | .done a q => .done a (q.mark (.leave rule true))
  | .malformed q => .malformed (q.mark (.leave rule false))
  | .exhausted => .exhausted

end Parse

end Monkey
