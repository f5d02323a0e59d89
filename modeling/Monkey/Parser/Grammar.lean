import Monkey.Parser.Basic
/-!
# The grammar

A rule starts with the cursor on the first token of its phrase and ends with the cursor on the last one.  Each rule
takes the rules for its parts as arguments, so the grammar has a single recursion, that of `expression`, which ties the
knot.  A rule with a loop takes a bound on its repetitions; `budget` is large enough for all of them, because no
repetition and no nested phrase leaves the cursor where it was.
-/
namespace Monkey.Parse

/-- The longest run of digits that is read as a number. -/
def maxDigits : Nat := 4300

def maxInteger : Nat := 0x7FFFFFFFFFFFFFFF

/-- The value of an integer literal, if it is a run of digits and in range. -/
def integer? (literal : String) : Option Nat :=
  if Text.isDigits literal.toList ∧ literal.length ≤ maxDigits then
    let n := Text.ofDigits literal.toList
    if n ≤ maxInteger then some n else none
  else none

/-- A semicolon behind a statement belongs to it. -/
def skipSemicolon : Parse Unit := do
  if ← peekIs .semicolon then advance

def name : Parse Ident := do
  let token ← cur
  pure ⟨token.pos, token.literal⟩

/-! ## Lists and blocks -/

/-- Further items of a list, each behind a comma. -/
def moreItems {α : Type} (item : Parse α) : Nat → Parse (List α)
  | 0 => outOfBudget
  | n + 1 => do
    if ← peekIs .comma then
      advance
      let x ← item
      let rest ← moreItems item n
      pure (x :: rest)
    else pure []

/-- Items between commas up to a closing token; an item starts on the token before it. -/
def items {α : Type} (item : Parse α) (close : Kind) (n : Nat) : Parse (List α) := do
  if ← peekIs close then
    advance
    pure []
  else
    let x ← item
    let rest ← moreItems item n
    expect close
    pure (x :: rest)

/-- The parameters of a function, from the opening parenthesis on. -/
def params (n : Nat) : Parse (List Ident) :=
  items (do expect .ident; name) .rparen n

/-- Expressions between commas, from the opening token on. -/
def expressions (expr : Precedence → Parse Expr) (close : Kind) (n : Nat) : Parse (List Expr) :=
  items (do advance; expr .lowest) close n

/-- The statements up to the brace that closes their block.  A malformed one is dropped. -/
def blockStatements (stmt : Parse Stmt) : Nat → Parse (List Stmt)
  | 0 => outOfBudget
  | n + 1 => do
    match (← cur).kind with
    | .rbrace => pure []
    | .eof => refuse (.expected .rbrace .eof)
    | _ =>
      let depth ← look (·.depth)
      match ← attempt stmt with
      | some s =>
        advance
        let rest ← blockStatements stmt n
        pure (s :: rest)
      | none =>
        resume depth
        if (← cur).kind = .rbrace then pure []
        else
          advance
          blockStatements stmt n

def block (stmt : Parse Stmt) (n : Nat) : Parse Block := do
  let token ← cur
  advance
  let statements ← blockStatements stmt n
  pure (.mk token.pos statements)

/-- The statements up to the end of the source text.  A malformed one is dropped. -/
def programStatements (stmt : Parse Stmt) : Nat → Parse (List Stmt)
  | 0 => outOfBudget
  | n + 1 => do
    if (← cur).kind = .eof then pure []
    else
      let depth ← look (·.depth)
      match ← attempt stmt with
      | some s =>
        advance
        let rest ← programStatements stmt n
        pure (s :: rest)
      | none =>
        resume depth
        advance
        programStatements stmt n

/-! ## Statements -/

def bindStatement (expr : Precedence → Parse Expr) : Parse Stmt := do
  let token ← cur
  expect .ident
  let id ← name
  expect .assign
  advance
  let value ← expr .lowest
  skipSemicolon
  pure (.bind token.pos id value)

def returnStatement (expr : Precedence → Parse Expr) : Parse Stmt := do
  let token ← cur
  match (← peek).kind with
  | .semicolon | .rbrace | .eof =>
    skipSemicolon
    pure (.ret token.pos none)
  | _ =>
    advance
    let value ← expr .lowest
    skipSemicolon
    pure (.ret token.pos (some value))

def expressionStatement (expr : Precedence → Parse Expr) : Parse Stmt := do
  let token ← cur
  let value ← expr .lowest
  skipSemicolon
  pure (.expr token value)

def statementWith (expr : Precedence → Parse Expr) : Parse Stmt :=
  traced .statement do
    match (← cur).kind with
    | .letWord => bindStatement expr
    | .returnWord => returnStatement expr
    | _ => expressionStatement expr

/-! ## Operands -/

def unary (expr : Precedence → Parse Expr) (op : UnaryOp) : Parse Expr :=
  traced .unary do
    let token ← cur
    advance
    let operand ← expr .unary
    pure (.unary token.pos op operand)

def grouped (expr : Precedence → Parse Expr) : Parse Expr := do
  advance
  let e ← expr .lowest
  expect .rparen
  pure e

/-- A conditional, `if (condition) { .. }`, with an `else` branch if there is one. -/
def cond (expr : Precedence → Parse Expr) (n : Nat) : Parse Expr := do
  let token ← cur
  expect .lparen
  advance
  let condition ← expr .lowest
  expect .rparen
  expect .lbrace
  let consequence ← block (statementWith expr) n
  if ← peekIs .elseWord then
    advance
    expect .lbrace
    let alternative ← block (statementWith expr) n
    pure (.cond token.pos condition consequence (some alternative))
  else pure (.cond token.pos condition consequence none)

/-- A function literal, `fn(params) { .. }`. -/
def fn (expr : Precedence → Parse Expr) (n : Nat) : Parse Expr := do
  let token ← cur
  expect .lparen
  let names ← params n
  expect .lbrace
  let body ← block (statementWith expr) n
  pure (.fn token.pos names body)

def array (expr : Precedence → Parse Expr) (n : Nat) : Parse Expr := do
  let token ← cur
  let elements ← expressions expr .rbracket n
  pure (.array token.pos elements)

/-- The pairs of a hash literal up to its closing brace; a comma may stand behind the last. -/
def hashPairs (expr : Precedence → Parse Expr) : Nat → Parse (List (Expr × Expr))
  | 0 => outOfBudget
  | n + 1 => do
    if ← peekIs .rbrace then pure []
    else
      advance
      let key ← expr .lowest
      expect .colon
      advance
      let value ← expr .lowest
      if !(← peekIs .rbrace) then expect .comma
      let rest ← hashPairs expr n
      pure ((key, value) :: rest)

def hash (expr : Precedence → Parse Expr) (n : Nat) : Parse Expr := do
  let token ← cur
  let pairs ← hashPairs expr n
  expect .rbrace
  pure (.hash token.pos pairs)

def integer : Parse Expr := do
  let token ← cur
  match integer? token.literal with
  | some value => pure (.int token.pos token.literal value)
  | none => refuse (.badInteger token.literal)

/-- An operand, chosen by its first token. -/
def operand (expr : Precedence → Parse Expr) (n : Nat) : Parse Expr := do
  let token ← cur
  match token.kind with
  | .ident => pure (.ident ⟨token.pos, token.literal⟩)
  | .int => integer
  | .string => pure (.str token.pos token.literal)
  | .trueWord => pure (.bool token.pos true)
  | .falseWord => pure (.bool token.pos false)
  | .bang => unary expr .bang
  | .minus => unary expr .minus
  | .lparen => grouped expr
  | .ifWord => cond expr n
  | .fnWord => fn expr n
  | .lbracket => array expr n
  | .lbrace => hash expr n
  | kind => refuse (.noOperand kind)

/-! ## Operators -/

/-- An operator behind its first operand, with the cursor on the operator. -/
def binary (expr : Precedence → Parse Expr) (op : BinaryOp) (left : Expr) : Parse Expr :=
  traced .binary do
    let token ← cur
    advance
    let right ← expr op.kind.precedence
    pure (.binary token.pos op left right)

/-- A call, with the cursor on the opening parenthesis. -/
def call (expr : Precedence → Parse Expr) (n : Nat) (callee : Expr) : Parse Expr := do
  let token ← cur
  let args ← expressions expr .rparen n
  pure (.call token.pos callee args)

/-- An index, with the cursor on the opening bracket. -/
def index (expr : Precedence → Parse Expr) (left : Expr) : Parse Expr := do
  let token ← cur
  advance
  let i ← expr .lowest
  expect .rbracket
  pure (.index token.pos left i)

/-- What follows an operand, with the cursor on the token that binds it. -/
def extend (expr : Precedence → Parse Expr) (n : Nat) (left : Expr) : Parse Expr := do
  let kind := (← cur).kind
  match kind with
  | .lparen => call expr n left
  | .lbracket => index expr left
  | _ =>
    match BinaryOp.ofKind? kind with
    | some op => binary expr op left
    | none => pure left

/-- Everything behind an operand that binds tighter than a precedence. -/
def climb (expr : Precedence → Parse Expr) (precedence : Precedence) : Nat → Expr → Parse Expr
  | 0, _ => outOfBudget
  | n + 1, left => do
    if precedence.rank < (← peek).kind.precedence.rank then
      advance
      let e ← extend expr n left
      climb expr precedence n e
    else pure left

/-- An expression whose operators bind tighter than a precedence. -/
def expression : Nat → Precedence → Parse Expr
  | 0, _ => outOfBudget
  | n + 1, precedence =>
    traced (.expression precedence) do
      let left ← operand (expression n) n
      climb (expression n) precedence n left

def statement (n : Nat) : Parse Stmt := statementWith (expression n)

def program (n : Nat) : Parse Program := do
  let token ← cur
  let statements ← programStatements (statement n) n
  pure ⟨token, statements⟩

end Monkey.Parse

namespace Monkey.Parser

/-- A bound on the repetitions and on the nesting of every phrase that starts at the cursor or behind it. -/
def budget (p : Parser) : Nat := p.ahead.length + 2

/-- A rule run with the budget: its result, if it has one, and the parser behind it. -/
def run {α : Type} (p : Parser) (rule : Nat → Parse α) : Option α × Parser :=
  match rule p.budget p with
  | .done a q => (some a, q)
  | .malformed q => (none, q)
  | .exhausted => (none, p)

end Monkey.Parser
