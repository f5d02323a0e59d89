/-!
# Escapes of string literals

`encode` writes the text of a string literal between its quotes, `decode` reads it.  Reading knows more escapes than
writing produces: besides the six that `encode` writes there are `\0`, and two short forms for a code point of which
only the upper hexadecimal digit is free, `\xH2` and `\uH4`.  A backslash before any other character stands for that
character, and `\0` before the digit `3` is such a case.
-/
namespace Monkey.Text.Escape

/-- The written form of one character. -/
def encodeChar (c : Char) : List Char :=
  if c = '\\' then ['\\', '\\']
  else if c = '"' then ['\\', '"']
  else if c = '\n' then ['\\', 'n']
  else if c = '\r' then ['\\', 'r']
  else if c = '\x0c' then ['\\', 'f']
  else if c = '\t' then ['\\', 't']
  else [c]

/-- The written form of a text, without the quotes around it. -/
def encode (text : List Char) : List Char := text.flatMap encodeChar

def hexDigit? (c : Char) : Option Nat :=
  if '0' ≤ c ∧ c ≤ '9' then some (c.toNat - '0'.toNat)
  else if 'a' ≤ c ∧ c ≤ 'f' then some (c.toNat - 'a'.toNat + 10)
  else if 'A' ≤ c ∧ c ≤ 'F' then some (c.toNat - 'A'.toNat + 10)
  else none

/-- The text that a written form stands for, read from left to right. -/
def decode : List Char → List Char
  | [] => []
  | '\\' :: 't' :: rest => '\t' :: decode rest
  | '\\' :: 'n' :: rest => '\n' :: decode rest
  | '\\' :: 'f' :: rest => '\x0c' :: decode rest
  | '\\' :: 'r' :: rest => '\r' :: decode rest
  | '\\' :: '0' :: '3' :: rest => '0' :: '3' :: decode rest
  | '\\' :: '0' :: rest => '\x00' :: decode rest
  | '\\' :: 'x' :: h :: '2' :: rest =>
    match hexDigit? h with
    | some n => Char.ofNat (16 * n + 2) :: decode rest
    | none => 'x' :: decode (h :: '2' :: rest)
  | '\\' :: 'u' :: h :: '4' :: rest =>
    match hexDigit? h with
    | some n => Char.ofNat (16 * n + 4) :: decode rest
    | none => 'u' :: decode (h :: '4' :: rest)
  | '\\' :: c :: rest => c :: decode rest
  | c :: rest => c :: decode rest

end Monkey.Text.Escape

