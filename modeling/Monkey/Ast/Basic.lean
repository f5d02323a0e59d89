import Monkey.Token
/-!
# Syntax trees

The trees that the parser builds and the evaluator walks.  A node keeps the place of the token that introduces it and
nothing else of that token, because its kind and its literal follow from the node (`Expr.token`, `Stmt.token`,
`Block.token`); only an expression statement and a program, which any token may introduce, keep it whole.
-/
namespace Monkey

/-- The operators in front of an operand. -/
inductive UnaryOp where
  | bang | minus
  deriving DecidableEq

/-- The operators between two operands. -/
inductive BinaryOp where
  | add | sub | mul | div | lt | gt | eq | notEq
  deriving DecidableEq

namespace UnaryOp

def kind : UnaryOp → Kind
  | bang => .bang
  | minus => .minus

def spelling (op : UnaryOp) : String := op.kind.spelling

def ofSpelling? (text : String) : Option UnaryOp := [bang, minus].find? (·.spelling == text)

end UnaryOp

namespace BinaryOp

def all : List BinaryOp := [add, sub, mul, div, lt, gt, eq, notEq]

def kind : BinaryOp → Kind
  | add => .plus
  | sub => .minus
  | mul => .asterisk
  | div => .slash
  | lt => .lt
  | gt => .gt
  | eq => .eq
  | notEq => .notEq

def spelling (op : BinaryOp) : String := op.kind.spelling

def ofKind? (kind : Kind) : Option BinaryOp := all.find? (·.kind == kind)

def ofSpelling? (text : String) : Option BinaryOp := all.find? (·.spelling == text)

end BinaryOp

/-- A name and where it stands. -/
structure Ident where
  pos : Pos
  name : String
  deriving DecidableEq

mutual

inductive Expr where
  | ident (id : Ident)
  | int (pos : Pos) (literal : String) (value : Nat)
  | bool (pos : Pos) (value : Bool)
  | str (pos : Pos) (text : String)
  | array (pos : Pos) (elements : List Expr)
  | hash (pos : Pos) (pairs : List (Expr × Expr))
  | unary (pos : Pos) (op : UnaryOp) (operand : Expr)
  | binary (pos : Pos) (op : BinaryOp) (left right : Expr)
  | cond (pos : Pos) (condition : Expr) (consequence : Block) (alternative : Option Block)
  | fn (pos : Pos) (params : List Ident) (body : Block)
  | call (pos : Pos) (callee : Expr) (args : List Expr)
  | index (pos : Pos) (left index : Expr)

inductive Stmt where
  | expr (token : Token) (value : Expr)
  | bind (pos : Pos) (name : Ident) (value : Expr)
  | ret (pos : Pos) (value : Option Expr)

/-- Statements between braces. -/
inductive Block where
  | mk (pos : Pos) (statements : List Stmt)

end

/-- A whole source text: its statements and its first token. -/
structure Program where
  token : Token
  statements : List Stmt

def Block.statements : Block → List Stmt
  | mk _ statements => statements

def Ident.token (id : Ident) : Token := ⟨.ident, id.name, id.pos⟩

/-- The token of a kind that has only one literal, its spelling in a source text. -/
def Token.fixed (kind : Kind) (pos : Pos) : Token :=
  ⟨kind, ((keywords.find? (·.2 == kind)).map (·.1)).getD kind.spelling, pos⟩

/-- The token that introduces an expression; of a binary operation, a call or an index it stands behind the first
operand. -/
def Expr.token : Expr → Token
  | .ident id => id.token
  | .int pos literal _ => ⟨.int, literal, pos⟩
  | .bool pos value => .fixed (if value then .trueWord else .falseWord) pos
  | .str pos text => ⟨.string, text, pos⟩
  | .array pos _ => .fixed .lbracket pos
  | .hash pos _ => .fixed .lbrace pos
  | .unary pos op _ => .fixed op.kind pos
  | .binary pos op _ _ => .fixed op.kind pos
  | .cond pos _ _ _ => .fixed .ifWord pos
  | .fn pos _ _ => .fixed .fnWord pos
  | .call pos _ _ => .fixed .lparen pos
  | .index pos _ _ => .fixed .lbracket pos

def Stmt.token : Stmt → Token
  | .expr token _ => token
  | .bind pos _ _ => .fixed .letWord pos
  | .ret pos _ => .fixed .returnWord pos

def Block.token : Block → Token
  | mk pos _ => .fixed .lbrace pos

end Monkey
