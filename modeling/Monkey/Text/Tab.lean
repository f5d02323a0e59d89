/-!
# Tab stops

A tab stands for the spaces up to the next tab stop.  Stops lie eight columns apart, and the count of columns starts
again behind a line feed and behind a carriage return.
-/
namespace Monkey.Text.Tab

/-- The distance between two tab stops. -/
def width : Nat := 8

/-- A text that begins so many columns to the right of the margin, with every tab replaced by spaces. -/
def expandFrom : Nat → List Char → List Char
  | _, [] => []
  | n, c :: rest =>
    if c = '\t' then List.replicate (width - n % width) ' ' ++ expandFrom (n + (width - n % width)) rest
    else if c = '\n' ∨ c = '\r' then c :: expandFrom 0 rest
    else c :: expandFrom (n + 1) rest

/-- A text with every tab replaced by spaces. -/
def expand (text : List Char) : List Char := expandFrom 0 text

end Monkey.Text.Tab
