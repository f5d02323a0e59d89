import Monkey.Ast.Basic
import Monkey.Text.Escape
/-!
# Canonical rendering

The text of a tree, with every operation in parentheses, so that it reads back as the same tree.  A rendering never
contains a line feed.
-/
namespace Monkey

def quoteString (text : String) : String := String.ofList ('"' :: Text.Escape.encode text.toList ++ ['"'])

mutual

def Expr.render : Expr → String
  | .ident id => id.name
  | .int _ literal _ => literal
  | .bool _ value => if value then "true" else "false"
  | .str _ text => quoteString text
  | .array _ elements => "[" ++ ", ".intercalate (Expr.renderAll elements) ++ "]"
  | .hash _ pairs => "\x7b" ++ ", ".intercalate (Expr.renderPairs pairs) ++ "\x7d"
  | .unary _ op operand => "(" ++ op.spelling ++ operand.render ++ ")"
  | .binary _ op left right => "(" ++ left.render ++ " " ++ op.spelling ++ " " ++ right.render ++ ")"
  | .cond _ condition consequence none => "if (" ++ condition.render ++ ") " ++ consequence.render
  | .cond _ condition consequence (some alternative) =>
    "if (" ++ condition.render ++ ") " ++ consequence.render ++ " else " ++ alternative.render
  | .fn _ params body => "fn(" ++ ", ".intercalate (params.map (·.name)) ++ ") " ++ body.render
  | .call _ callee args => callee.render ++ "(" ++ ", ".intercalate (Expr.renderAll args) ++ ")"
  | .index _ left index => "(" ++ left.render ++ "[" ++ index.render ++ "])"

def Expr.renderAll : List Expr → List String
  | [] => []
  | e :: rest => e.render :: Expr.renderAll rest

def Expr.renderPairs : List (Expr × Expr) → List String
  | [] => []
  | (key, value) :: rest => (key.render ++ ": " ++ value.render) :: Expr.renderPairs rest

def Stmt.render : Stmt → String
  | .expr _ value => value.render
  | .bind _ name value => "let " ++ name.name ++ " = " ++ value.render
  | .ret _ none => "return"
  | .ret _ (some value) => "return " ++ value.render

def Stmt.renderAll : List Stmt → List String
  | [] => []
  | s :: rest => s.render :: Stmt.renderAll rest

def Block.render : Block → String
  | .mk _ [] => "\x7b \x7d"
  | .mk _ statements => "\x7b " ++ "; ".intercalate (Stmt.renderAll statements) ++ " \x7d"

end

def Program.render (p : Program) : String := "; ".intercalate (Stmt.renderAll p.statements)

end Monkey
