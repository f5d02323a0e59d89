import Monkey.Token
import Monkey.Value.Basic
/-!
# Completion

The words that interactive input can be completed to.
-/
namespace Monkey.Completion

/-- Every word offered: the keywords in alphabetical order, the builtin functions, the commands. -/
def words : List String :=
  (keywords.map (·.1)).mergeSort (fun a b => decide (a ≤ b)) ++ Builtin.all.map (·.name) ++
    [":parse", ":env", ":help", "exit"]

/-- The words that begin with a text. -/
def options (text : String) : List String := words.filter fun word => text.toList.isPrefixOf word.toList

/-- The completion of a text with a given number, counted from 0. -/
def option? (text : String) (n : Nat) : Option String := (options text)[n]?

end Monkey.Completion
