import Monkey.Parser.Parsed
import Monkey.Value.Basic
/-!
# Reports

How diagnostics and runtime errors are shown, with or without the name of the file that they come from.
-/
namespace Monkey.Report

/-- The heading over diagnostics. -/
def heading : Option String → String
  | none => "parser errors:"
  | some file => "parser errors in '" ++ file ++ "':"

/-- Diagnostics under their heading, each on a line of its own behind a tab. -/
def diagnostics (errors : List String) (file : Option String) : String :=
  "\n".intercalate (heading file :: errors.map ("\t" ++ ·))

/-- The summary of diagnostics in one line: the first of them. -/
def summary (errors : List String) : String := errors.head?.getD "parse error"

/-- A runtime error as it is shown. -/
def fault (f : Fault) : Option String → String
  | none => "ERROR: " ++ f.message
  | some file => "ERROR: " ++ f.message ++ " (in '" ++ file ++ "')"

end Monkey.Report
