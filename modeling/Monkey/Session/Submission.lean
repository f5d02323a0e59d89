import Monkey.Eval.Evaluate
import Monkey.Report
/-!
# Submissions

A session is a world with a top scope, in which one source text after the other is parsed and evaluated.  A text with
diagnostics is not evaluated; a value is shown unless it is null.
-/
namespace Monkey

/-- How a session runs: whether it shows traces, and how deep nodes may be nested. -/
structure Settings where
  debug : Bool
  nesting : Nat

/-- No traces, and room for several hundred calls inside one another. -/
def Settings.default : Settings := ⟨false, 5000⟩

/-- A lasting state of a session: what its programs have bound, and its top scope. -/
structure Session where
  world : World
  top : ScopeId

namespace Session

/-- A session in a fresh top scope of a world. -/
def within (w : World) : Session := ⟨{ w with store := w.store.push none }, w.store.next⟩

/-- A session in which nothing is bound. -/
def start : Session := within .empty

def bindings (s : Session) : List (String × Value) := s.world.store.bindings s.top

end Session

/-- The result of an evaluation, if it does not overflow, and the world after it, whose log holds the events of this
evaluation alone. -/
def Eval.run {α : Type} (x : Eval α) (w : World) : Option α × World :=
  match x { w with log := [] } with
  | .value a w' => (some a, w')
  | .overflow w' => (none, w')

/-- What a terminal has shown by the events of a world. -/
def World.output (w : World) (debug : Bool) : String := String.join (w.events.map (·.text debug))

/-- Lines as a terminal shows them. -/
def printed (lines : List String) : String := String.join (lines.map (· ++ "\n"))

/-- How the submission of a source text ends. -/
inductive Verdict where
  | rejected (errors : List String)
  | overflow
  | value (v : Value)

/-- What a submission shows of its end: the diagnostics, or a value that is not null. -/
def Verdict.texts : Verdict → List String
  | rejected errors => [Report.diagnostics errors none]
  | overflow => []
  | value .null => []
  | value v => [v.render]

/-- A submission: how it ends, what has been printed before that, and the session after it. -/
structure Submission where
  verdict : Verdict
  output : String
  session : Session

namespace Submission

/-- All that a terminal shows of a submission. -/
def transcript (s : Submission) : String := s.output ++ printed s.verdict.texts

end Submission

/-- Submits a source text to a session. -/
def Session.submit (session : Session) (settings : Settings) (source : String) : Submission :=
  let parsed := parse source
  let trace := printed (parsed.trace settings.debug)
  if parsed.errors.isEmpty then
    let (value?, w) := (Eval.evaluate settings.nesting (.program parsed.program) session.top).run session.world
    ⟨(value?.map Verdict.value).getD .overflow, trace ++ w.output settings.debug, ⟨w, session.top⟩⟩
  else ⟨.rejected parsed.errors, trace, session⟩

end Monkey
