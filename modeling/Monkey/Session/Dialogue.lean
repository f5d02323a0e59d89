import Monkey.Session.Submission
import Monkey.Text.Blank
import Monkey.Text.Line
/-!
# Dialogues

The interactive mode: lines are read behind a prompt and answered one by one.  A line that is a command is carried out,
an empty one is passed over, and any other is submitted to the session.

The terminal is one without line editing: where there is line editing, the opening has one more line, which says so.
Only a submission can overflow.  A command renders values or parses a text, and its answer is given for a host whose
stack is deep enough for that; a shallower one would break off the whole dialogue there.
-/
namespace Monkey.Dialogue

def version : String := "0.1.0"

/-- What stands before every line that is read. -/
def prompt : String := ">> "

/-- What is shown when the input ends. -/
def farewell : String := printed ["", "Goodbye!"]

/-- What is shown before the first prompt. -/
def opening (debug : Bool) : String :=
  printed (["Monkey v" ++ version ++ " - Interactive Mode", "Type 'exit' to quit, ':help' for commands"] ++
    (if debug then ["Debug mode enabled"] else []) ++ [""])

/-- A text cut to sixty characters, with an ellipsis if anything is missing. -/
def abbreviate (text : String) : String :=
  if 60 < text.length then String.ofList (text.toList.take 57) ++ "..." else text

/-- The answer to `:env`. -/
def environment (session : Session) : String :=
  printed ("Current environment:" ::
    if session.bindings.isEmpty then ["  (no user-defined bindings)"]
    else session.bindings.map fun b => "  " ++ b.1 ++ " = " ++ abbreviate b.2.render)

/-- The answer to `:help`. -/
def help : String :=
  printed ["REPL Commands:",
    "  :parse <code>     - Show the canonical, fully parenthesized rendering",
    "  :env              - Show current environment",
    "  :help             - Show this help",
    "  exit              - Exit REPL",
    "",
    "Language features:",
    "  let x = 5;                          - Binding",
    "  let add = fn(a, b) \x7b a + b \x7d;       - Function",
    "  if (x > 1) \x7b x \x7d else \x7b 0 \x7d         - Conditional",
    "  [1, 2, 3][0]                        - Array index",
    "  \x7b\"one\": 1\x7d[\"one\"]                   - Hash index",
    "  builtins: " ++ ", ".intercalate (Builtin.all.map (·.name))]

/-- The answer to `:parse`. -/
def rendering (debug : Bool) (source : String) : String :=
  let parsed := parse source
  printed (parsed.trace debug ++
    [if parsed.errors.isEmpty then parsed.program.render else Report.diagnostics parsed.errors none])

/-- What a line asks for. -/
inductive Request where
  | nothing
  | leave
  | parse (source : String)
  | environment
  | help
  | submit (source : String)
  deriving DecidableEq

/-- The word in front of a text to be parsed. -/
def parseCommand : List Char := ":parse ".toList

/-- What a line asks for, blank characters at its ends aside. -/
def Request.ofLine (line : List Char) : Request :=
  let text := Text.trim line
  if text.isEmpty then nothing
  else if text = "exit".toList then leave
  else if parseCommand.isPrefixOf text then parse (String.ofList (text.drop parseCommand.length))
  else if text = ":env".toList then environment
  else if text = ":help".toList then help
  else submit (String.ofList text)

/-- The answer to a line: what is shown, and the session after it unless the line ends the dialogue. -/
structure Answer where
  output : String
  session? : Option Session

/-- What is shown when nodes are nested too deep. -/
def overflowNotice : String :=
  printed ["Error: Maximum call depth exceeded", "  Hint: Check for unbounded recursion or raise --recursion-limit"]

def submit (settings : Settings) (session : Session) (source : String) : Answer :=
  let s := session.submit settings source
  match s.verdict with
  | .overflow => ⟨s.output ++ overflowNotice, some s.session⟩
  | _ => ⟨s.transcript, some s.session⟩

def answer (settings : Settings) (session : Session) (line : List Char) : Answer :=
  match Request.ofLine line with
  | .nothing => ⟨"", some session⟩
  | .leave => ⟨"", none⟩
  | .parse source => ⟨rendering settings.debug source, some session⟩
  | .environment => ⟨environment session, some session⟩
  | .help => ⟨help, some session⟩
  | .submit source => submit settings session source

/-- A dialogue over all lines of an input: what is shown after the opening, and the session at the end. -/
def run (settings : Settings) : Session → List (List Char) → String × Session
  | session, [] => (prompt ++ farewell, session)
  | session, line :: rest =>
    match answer settings session line with
    | ⟨output, none⟩ => (prompt ++ output, session)
    | ⟨output, some session'⟩ =>
      let (shown, final) := run settings session' rest
      (prompt ++ output ++ shown, final)

/-- All that is shown of a dialogue in a fresh session. -/
def transcript (settings : Settings) (input : List Char) : String :=
  opening settings.debug ++ (run settings .start (Text.Line.split input)).1

end Monkey.Dialogue
