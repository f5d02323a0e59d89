import Monkey.Session.Strict
import Monkey.Session.Submission
import Monkey.Text.Line
import Monkey.Text.Utf8
/-!
# Scripts

What is done with a file: it is run, or its tokens or its statements are listed.  Each ends with the text that was
printed and an exit code, 1 if anything was wrong.
-/
namespace Monkey

/-- The end of a program: all that it has printed, and its exit code. -/
structure Exit where
  output : String
  code : Nat

namespace Script

/-- The text of a file: UTF-8, with any kind of line end. -/
def decode (bytes : List Nat) : Except Text.Utf8.Fault String :=
  (Text.Utf8.decode bytes).map fun text => String.ofList (Text.Line.unify text)

/-- The end of a listing whose file cannot be read. -/
def unreadable (path : String) (f : Text.Utf8.Fault) : Exit :=
  ⟨printed ["Error: Cannot read '" ++ path ++ "': " ++ f.message], 1⟩

def listTokens (path : String) (bytes : List Nat) : Exit :=
  match decode bytes with
  | .error f => unreadable path f
  | .ok source => ⟨printed ((tokenize source).map (·.listing)), 0⟩

/-- The lines that show a statement in a listing: its rendering, or its tree under its number. -/
def statementLines (debug : Bool) (number : Nat) (s : Stmt) : List String :=
  if debug then ["\nStatement " ++ Text.decimal number ++ ":", (Node.stmt s).pretty 0] else [s.render]

/-- Lists the statements of a file. -/
def listStatements (debug : Bool) (path : String) (bytes : List Nat) : Exit :=
  match decode bytes with
  | .error f => unreadable path f
  | .ok source =>
    let shown := printed (("Parsing " ++ path ++ "...") :: (parse source).trace debug)
    match parseStrict source (some path) with
    | .error r => ⟨shown ++ printed [r.message], 1⟩
    | .ok program =>
      ⟨shown ++ printed ["\nParsed " ++ Text.decimal program.statements.length ++ " top-level statements:",
          String.ofList (List.replicate 50 '=')] ++
        printed ((program.statements.zipIdx 1).flatMap fun entry => statementLines debug entry.2 entry.1), 0⟩

/-- Runs the text of a file in a fresh session.  Diagnostics and a final runtime error are refusals, which are shown. -/
def runSource (settings : Settings) (path source : String) : Exit :=
  let trace := printed ((parse source).trace settings.debug)
  match parseStrict source (some path) with
  | .error r => ⟨trace ++ printed [r.message], 1⟩
  | .ok program =>
    let (value?, w) := (Eval.evaluate settings.nesting (.program program) Session.start.top).run Session.start.world
    let shown := trace ++ w.output settings.debug
    match value?.map (·.strict (some path)) with
    | none =>
      ⟨shown ++ printed ["Error: Maximum call depth exceeded while running '" ++ path ++ "'",
        "  Hint: Check for unbounded recursion or raise --recursion-limit"], 1⟩
    | some (.error r) => ⟨shown ++ printed [r.message], 1⟩
    | some (.ok .null) => ⟨shown, 0⟩
    | some (.ok v) => ⟨shown ++ printed [v.render], 0⟩

def run (settings : Settings) (path : String) (bytes : List Nat) : Exit :=
  match decode bytes with
  | .error f =>
    ⟨printed ["Error: Cannot decode file '" ++ path ++ "': " ++ f.message,
      "  Hint: Make sure the file is a text file with UTF-8 encoding"], 1⟩
  | .ok source => runSource settings path source

/-- The end of a program whose file is not there. -/
def missing (path : String) : Exit :=
  ⟨printed ["Error: Script file '" ++ path ++ "' does not exist"], 1⟩

end Script

end Monkey
