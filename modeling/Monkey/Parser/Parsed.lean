import Monkey.Parser.Grammar
import Monkey.Parser.Trace
/-!
# Parsed sources

What parsing a source text gives: the statements that are well formed, the diagnostics of those that are not, and the
trace of the rules.
-/
namespace Monkey

/-- The result of parsing a source text. -/
structure Parsed where
  program : Program
  diagnostics : List Diagnostic
  marks : List Mark

namespace Parsed

def ofStream (s : TokenStream) : Parsed :=
  let (program?, p) := (Parser.ofStream s).run Parse.program
  ⟨program?.getD ⟨(Parser.ofStream s).cur, []⟩, p.diagnostics, p.marks.reverse⟩

def errors (r : Parsed) : List String := r.diagnostics.map (·.message)

/-- The printed trace, nothing unless it is asked for. -/
def trace (r : Parsed) (debug : Bool) : List String := if debug then Mark.lines 0 r.marks else []

end Parsed

/-- The result of parsing a source text. -/
def parse (source : String) : Parsed := .ofStream (.ofSource source)

end Monkey
