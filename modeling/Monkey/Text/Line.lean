/-!
# Lines

Line ends of files and lines of interactive input.
-/
namespace Monkey.Text.Line

/-- A text in which every line ends in a line feed: a carriage return, alone or before a line feed, becomes one. -/
def unify : List Char → List Char
  | [] => []
  | '\r' :: '\n' :: rest => '\n' :: unify rest
  | '\r' :: rest => '\n' :: unify rest
  | c :: rest => c :: unify rest

/-- The lines of a text, each without the line feed that ends it; the last line may lack one. -/
def split (text : List Char) : List (List Char) := go [] text
where
  /-- Continues a line of which the given characters are read, last character first. -/
  go : List Char → List Char → List (List Char)
    | [], [] => []
    | line, [] => [line.reverse]
    | line, '\n' :: rest => line.reverse :: go [] rest
    | line, c :: rest => go (c :: line) rest

end Monkey.Text.Line
