import Monkey.Text.Invisible
import Monkey.Text.Number
/-!
# Quoted display

How a token listing shows a literal: in quotes, on one line, and without characters that have no visible form.  Single
quotes are used unless the text holds a single quote and no double quote.
-/
namespace Monkey.Text.Quoted

/-- A character that is shown as itself. -/
def isVisible (c : Char) : Bool :=
  let n := c.toNat
  if n < 0x80 then 0x20 ≤ n && n < 0x7F else !invisible.any fun r => r.1 ≤ n && n ≤ r.2

/-- One character inside the given quotes: the quote and the backslash behind a backslash, the usual three short
escapes, and two, four or eight hexadecimal digits for a character that is not visible. -/
def displayChar (quote c : Char) : List Char :=
  if c = quote ∨ c = '\\' then ['\\', c]
  else if c = '\n' then ['\\', 'n']
  else if c = '\r' then ['\\', 'r']
  else if c = '\t' then ['\\', 't']
  else if isVisible c then [c]
  else if c.toNat < 0x100 then '\\' :: 'x' :: hex 2 c.toNat
  else if c.toNat < 0x10000 then '\\' :: 'u' :: hex 4 c.toNat
  else '\\' :: 'U' :: hex 8 c.toNat

/-- The quotes around a text: double quotes only where they spare escaping. -/
def quoteFor (text : List Char) : Char := if '\'' ∈ text ∧ '"' ∉ text then '"' else '\''

def display (text : String) : String :=
  let chars := text.toList
  let quote := quoteFor chars
  String.ofList (quote :: chars.flatMap (displayChar quote) ++ [quote])

end Monkey.Text.Quoted
