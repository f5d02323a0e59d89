import Monkey.Text.Blank
import Monkey.Text.Escape
import Monkey.Text.Tab
import Monkey.Token
/-!
# Pieces of a source text

Scanning cuts a text into pieces and throws nothing away: white space, comments and lexemes together are the text.
Which piece begins at a place is decided there, by `Piece.first`, from what lies ahead and from the one character
before: a reserved word directly behind a word character (as in `1let`) is an identifier.
-/
namespace Monkey

/-- A piece of a text.  A lexeme also carries the kind and the literal of its token. -/
inductive Piece where
  | blank (c : Char)
  | comment (text : List Char)
  | lexeme (kind : Kind) (text : List Char) (literal : String)

namespace Piece

def text : Piece → List Char
  | blank c => [c]
  | comment text => text
  | lexeme _ text _ => text

/-- A character that may begin a word. -/
def isWordStart (c : Char) : Bool := c.isAlpha || c == '_'

/-- A character that may continue a word. -/
def isWordChar (c : Char) : Bool := c.isAlphanum || c == '_'

/-- The part of a comment in front of the line feed that ends it.  A backslash right before a line feed carries the
comment over to the next line. -/
def commentText : List Char → List Char
  | [] => []
  | '\\' :: '\n' :: rest => '\\' :: '\n' :: commentText rest
  | '\n' :: _ => []
  | c :: rest => c :: commentText rest

/-- The written text of a string literal up to its closing quote, or nothing if the literal is not closed on its line.
A backslash takes any character but a line feed with it. -/
def stringText? : List Char → Option (List Char)
  | [] => none
  | '"' :: _ => some []
  | '\\' :: c :: rest => if c = '\n' then none else (stringText? rest).map fun text => '\\' :: c :: text
  | c :: rest => if c = '\\' ∨ c = '\n' ∨ c = '\r' then none else (stringText? rest).map (c :: ·)

/-- The lexeme of a word: a reserved word unless a word character stands before it. -/
def ofWord (before : Option Char) (text : List Char) : Piece :=
  let word := String.ofList text
  lexeme (if before.any isWordChar then .ident else .ofWord word) text word

/-- The lexeme of an operator, a delimiter or a stray character. -/
def ofSymbol (c : Char) (rest : List Char) : Piece :=
  match c, rest with
  | '=', '=' :: _ => lexeme .eq ['=', '='] "=="
  | '!', '=' :: _ => lexeme .notEq ['!', '='] "!="
  | _, _ => lexeme ((Kind.ofChar? c).getD .illegal) [c] (String.singleton c)

/-- The piece that begins with `c`, in front of `rest` and behind the character `before`. -/
def first (before : Option Char) (c : Char) (rest : List Char) : Piece :=
  if Text.isBlank c then blank c
  else if c = '/' ∧ rest.head? = some '/' then comment (c :: commentText rest)
  else if isWordStart c then ofWord before (c :: rest.takeWhile isWordChar)
  else if Text.isDigit c then
    let text := c :: rest.takeWhile Text.isDigit
    lexeme .int text (String.ofList text)
  else if c = '"' then
    match stringText? rest with
    | some text => lexeme .string ('"' :: text ++ ['"']) (String.ofList (Text.Escape.decode text))
    | none => lexeme .illegal [c] (String.singleton c)
  else ofSymbol c rest

end Piece

/-- The pieces of a text behind the character `before`, of which the first `skip` characters belong to the piece that
has been cut last. -/
def piecesFrom : Option Char → Nat → List Char → List Piece
  | _, _, [] => []
  | _, skip + 1, c :: rest => piecesFrom (some c) skip rest
  | before, 0, c :: rest =>
    let piece := Piece.first before c rest
    piece :: piecesFrom (some c) (piece.text.length - 1) rest

def pieces (text : List Char) : List Piece := piecesFrom none 0 text

/-- The tokens of pieces that start at a place. -/
def Piece.tokensFrom : Pos → List Piece → List Token
  | _, [] => []
  | pos, .lexeme kind text literal :: rest => ⟨kind, literal, pos⟩ :: tokensFrom (pos.after text) rest
  | pos, piece :: rest => tokensFrom (pos.after piece.text) rest

end Monkey
