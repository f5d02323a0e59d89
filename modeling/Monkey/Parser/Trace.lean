import Monkey.Parser.Basic
/-!
# Parser traces

The printed form of a trace: one line per mark, indented by the number of rules that are open.
-/
namespace Monkey.Mark

/-- The indentation below so many open rules. -/
def indent (depth : Nat) : String := String.ofList (List.replicate (2 * depth) ' ')

/-- The lines of marks, first mark first, below so many open rules. -/
def lines : Nat → List Mark → List String
  | _, [] => []
  | depth, enter rule token :: rest =>
    (indent depth ++ "BEGIN " ++ rule.name ++ " (" ++ token.display ++ ")") :: lines (depth + 1) rest
  | depth, leave rule _ :: rest => (indent (depth - 1) ++ "END " ++ rule.name) :: lines (depth - 1) rest

end Monkey.Mark
