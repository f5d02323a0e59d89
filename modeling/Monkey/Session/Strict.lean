import Monkey.Report
/-!
# Strict runs

Where a whole text has to succeed, diagnostics and a final runtime error are refusals and not results.
-/
namespace Monkey

/-- Why a text has no value, and the file to name in the report. -/
inductive Refusal where
  | diagnostics (errors : List String) (file : Option String)
  | fault (f : Fault) (file : Option String)

namespace Refusal

def message : Refusal → String
  | diagnostics errors file => Report.diagnostics errors file
  | fault f file => Report.fault f file

/-- The wording of a refusal in one line, without the file. -/
def summary : Refusal → String
  | diagnostics errors _ => Report.summary errors
  | fault f _ => f.message

end Refusal

/-- The program of a text without diagnostics. -/
def parseStrict (source : String) (file : Option String) : Except Refusal Program :=
  let parsed := parse source
  if parsed.errors.isEmpty then .ok parsed.program else .error (.diagnostics parsed.errors file)

/-- A value that is no runtime error. -/
def Value.strict (v : Value) (file : Option String) : Except Refusal Value :=
  match v with
  | .error _ f => .error (.fault f file)
  | v => .ok v

end Monkey
