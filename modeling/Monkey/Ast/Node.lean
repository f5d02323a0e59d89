import Monkey.Ast.Render
/-!
# Nodes

Programs, blocks, statements and expressions under one type, for what is done to all of them alike: listing the
children, walking a tree depth first, and printing it with one line per node.
-/
namespace Monkey

inductive Node where
  | program (program : Program)
  | block (block : Block)
  | stmt (stmt : Stmt)
  | expr (expr : Expr)

namespace Node

def ident (id : Ident) : Node := expr (.ident id)

def className : Node → String
  | program _ => "Program"
  | block _ => "BlockStatement"
  | stmt (.expr _ _) => "ExpressionStatement"
  | stmt (.bind _ _ _) => "LetStatement"
  | stmt (.ret _ _) => "ReturnStatement"
  | expr (.ident _) => "Identifier"
  | expr (.int _ _ _) => "IntegerLiteral"
  | expr (.bool _ _) => "BooleanLiteral"
  | expr (.str _ _) => "StringLiteral"
  | expr (.array _ _) => "ArrayLiteral"
  | expr (.hash _ _) => "HashLiteral"
  | expr (.unary _ _ _) => "PrefixExpression"
  | expr (.binary _ _ _ _) => "InfixExpression"
  | expr (.cond _ _ _ _) => "IfExpression"
  | expr (.fn _ _ _) => "FunctionLiteral"
  | expr (.call _ _ _) => "CallExpression"
  | expr (.index _ _ _) => "IndexExpression"

/-- The token that introduces a node; of a program, its first token. -/
def token : Node → Token
  | program p => p.token
  | block b => b.token
  | stmt s => s.token
  | expr e => e.token

def render : Node → String
  | program p => p.render
  | block b => b.render
  | stmt s => s.render
  | expr e => e.render

/-- The literal of the introducing token; a program has that of its first statement. -/
def tokenLiteral : Node → String
  | program p => (p.statements.head?.map (·.token.literal)).getD ""
  | n => n.token.literal

/-- The direct children of a node, in source order. -/
def children : Node → List Node
  | program p => p.statements.map stmt
  | block b => b.statements.map stmt
  | stmt (.expr _ value) => [expr value]
  | stmt (.bind _ name value) => [ident name, expr value]
  | stmt (.ret _ value) => value.toList.map expr
  | expr (.array _ elements) => elements.map expr
  | expr (.hash _ pairs) => pairs.flatMap fun pair => [expr pair.1, expr pair.2]
  | expr (.unary _ _ operand) => [expr operand]
  | expr (.binary _ _ left right) => [expr left, expr right]
  | expr (.cond _ condition consequence alternative) =>
    expr condition :: block consequence :: alternative.toList.map block
  | expr (.fn _ params body) => params.map ident ++ [block body]
  | expr (.call _ callee args) => expr callee :: args.map expr
  | expr (.index _ left index) => [expr left, expr index]
  | expr _ => []

end Node

mutual

/-- An expression at a depth and everything below it, depth first. -/
def Expr.walk (depth : Int) : Expr → List (Int × Node)
  | e@(.array _ elements) => (depth, .expr e) :: Expr.walkAll (depth + 1) elements
  | e@(.hash _ pairs) => (depth, .expr e) :: Expr.walkPairs (depth + 1) pairs
  | e@(.unary _ _ operand) => (depth, .expr e) :: operand.walk (depth + 1)
  | e@(.binary _ _ left right) => (depth, .expr e) :: (left.walk (depth + 1) ++ right.walk (depth + 1))
  | e@(.cond _ condition consequence none) =>
    (depth, .expr e) :: (condition.walk (depth + 1) ++ consequence.walk (depth + 1))
  | e@(.cond _ condition consequence (some alternative)) =>
    (depth, .expr e) ::
      (condition.walk (depth + 1) ++ consequence.walk (depth + 1) ++ alternative.walk (depth + 1))
  | e@(.fn _ params body) =>
    (depth, .expr e) :: (params.map (fun id => (depth + 1, Node.ident id)) ++ body.walk (depth + 1))
  | e@(.call _ callee args) => (depth, .expr e) :: (callee.walk (depth + 1) ++ Expr.walkAll (depth + 1) args)
  | e@(.index _ left index) => (depth, .expr e) :: (left.walk (depth + 1) ++ index.walk (depth + 1))
  | e => [(depth, .expr e)]

def Expr.walkAll (depth : Int) : List Expr → List (Int × Node)
  | [] => []
  | e :: rest => e.walk depth ++ Expr.walkAll depth rest

/-- The pairs of a hash literal at a depth, each key before its value. -/
def Expr.walkPairs (depth : Int) : List (Expr × Expr) → List (Int × Node)
  | [] => []
  | (key, value) :: rest => key.walk depth ++ value.walk depth ++ Expr.walkPairs depth rest

def Stmt.walk (depth : Int) : Stmt → List (Int × Node)
  | s@(.expr _ value) => (depth, .stmt s) :: value.walk (depth + 1)
  | s@(.bind _ name value) => (depth, .stmt s) :: (depth + 1, .ident name) :: value.walk (depth + 1)
  | s@(.ret _ none) => [(depth, .stmt s)]
  | s@(.ret _ (some value)) => (depth, .stmt s) :: value.walk (depth + 1)

def Stmt.walkAll (depth : Int) : List Stmt → List (Int × Node)
  | [] => []
  | s :: rest => s.walk depth ++ Stmt.walkAll depth rest

def Block.walk (depth : Int) : Block → List (Int × Node)
  | b@(.mk _ statements) => (depth, .block b) :: Stmt.walkAll (depth + 1) statements

end

namespace Node

/-- A node at a depth and everything below it: every node before its children, and the children in source order. -/
def walk (depth : Int) : Node → List (Int × Node)
  | program p => (depth, program p) :: Stmt.walkAll (depth + 1) p.statements
  | block b => b.walk depth
  | stmt s => s.walk depth
  | expr e => e.walk depth

def line (depth : Int) (n : Node) : String :=
  String.ofList (List.replicate (2 * depth).toNat ' ') ++ n.className ++ ": " ++ n.render

/-- A tree with one line per node, indented by its depth. -/
def pretty (indent : Int) (n : Node) : String := "\n".intercalate ((n.walk indent).map fun p => line p.1 p.2)

end Node

end Monkey
