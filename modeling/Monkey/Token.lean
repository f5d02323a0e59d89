import Monkey.Text.Quoted
/-!
# Tokens

What the scanner yields and the parser consumes: a kind, the literal text and the place where it starts.  The two
tables of the language live here, its keywords (`keywords`) and its operators (`operators`), and with them the one rule
that tells a keyword from an identifier, `Kind.ofWord`.
-/
namespace Monkey

inductive Kind where
  | illegal | eof
  | ident | int | string
  | assign | plus | minus | bang | asterisk | slash | lt | gt | eq | notEq
  | comma | semicolon | colon | lparen | rparen | lbrace | rbrace | lbracket | rbracket
  | fnWord | letWord | trueWord | falseWord | ifWord | elseWord | returnWord
  deriving DecidableEq

namespace Kind

/-- Every kind, in the order of the declaration. -/
def all : List Kind :=
  [illegal, eof, ident, int, string, assign, plus, minus, bang, asterisk, slash, lt, gt, eq, notEq, comma, semicolon,
   colon, lparen, rparen, lbrace, rbrace, lbracket, rbracket, fnWord, letWord, trueWord, falseWord, ifWord, elseWord,
   returnWord]

/-- The spelling of a kind in diagnostics and token listings. -/
def spelling : Kind → String
  | illegal => "ILLEGAL"
  | eof => "EOF"
  | ident => "IDENT"
  | int => "INT"
  | string => "STRING"
  | assign => "="
  | plus => "+"
  | minus => "-"
  | bang => "!"
  | asterisk => "*"
  | slash => "/"
  | lt => "<"
  | gt => ">"
  | eq => "=="
  | notEq => "!="
  | comma => ","
  | semicolon => ";"
  | colon => ":"
  | lparen => "("
  | rparen => ")"
  | lbrace => "\x7b"
  | rbrace => "\x7d"
  | lbracket => "["
  | rbracket => "]"
  | fnWord => "FUNCTION"
  | letWord => "LET"
  | trueWord => "TRUE"
  | falseWord => "FALSE"
  | ifWord => "IF"
  | elseWord => "ELSE"
  | returnWord => "RETURN"

def ofSpelling? (text : String) : Option Kind := all.find? (·.spelling == text)

end Kind

def keywords : List (String × Kind) :=
  [("fn", .fnWord), ("let", .letWord), ("true", .trueWord), ("false", .falseWord), ("if", .ifWord),
   ("else", .elseWord), ("return", .returnWord)]

/-- The kind of a word: its keyword kind, or a plain identifier. -/
def Kind.ofWord (word : String) : Kind := (keywords.lookup word).getD .ident

/-- Operators and delimiters of one character. -/
def Kind.ofChar? : Char → Option Kind
  | '=' => some .assign
  | '+' => some .plus
  | '-' => some .minus
  | '!' => some .bang
  | '*' => some .asterisk
  | '/' => some .slash
  | '<' => some .lt
  | '>' => some .gt
  | ',' => some .comma
  | ';' => some .semicolon
  | ':' => some .colon
  | '(' => some .lparen
  | ')' => some .rparen
  | '{' => some .lbrace
  | '}' => some .rbrace
  | '[' => some .lbracket
  | ']' => some .rbracket
  | _ => none

/-- A place in a text: line and column, both counted from 1, the column in code points. -/
structure Pos where
  line : Nat
  column : Nat
  deriving DecidableEq

namespace Pos

def start : Pos := ⟨1, 1⟩

/-- The place behind a character: only a line feed begins a new line. -/
def step (p : Pos) (c : Char) : Pos := if c = '\n' then ⟨p.line + 1, 1⟩ else ⟨p.line, p.column + 1⟩

/-- The place behind a run of characters. -/
def after (p : Pos) (text : List Char) : Pos := text.foldl step p

end Pos

/-- A token: its kind, its literal and the place of its first character. -/
structure Token where
  kind : Kind
  literal : String
  pos : Pos
  deriving DecidableEq

namespace Token

/-- The token behind the last one; it has no text. -/
def atEnd (pos : Pos) : Token := ⟨.eof, "", pos⟩

/-- A token without its place: the kind, and the literal in quotes between parentheses. -/
def display (t : Token) : String := t.kind.spelling ++ "(" ++ Text.Quoted.display t.literal ++ ")"

def listing (t : Token) : String :=
  Text.decimal t.pos.line ++ ":" ++ Text.decimal t.pos.column ++ "\t" ++ t.kind.spelling ++ "\t" ++
    Text.Quoted.display t.literal

end Token

end Monkey
