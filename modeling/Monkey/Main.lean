import Monkey.Command
/-!
# The program

Reads the arguments, the file and the lines of input, and shows what the library answers.
-/
namespace Monkey.Terminal

/-- The bytes of a file, if there is one that can be read. -/
def fileBytes (path : String) : IO (Option (List Nat)) := do
  try
    let bytes ← IO.FS.readBinFile path
    pure (some (bytes.toList.map UInt8.toNat))
  catch _ => pure none

def display (text : String) : IO Unit := do
  let out ← IO.getStdout
  out.putStr text
  out.flush

/-- Reads and answers lines until one of them ends the dialogue or the input does. -/
partial def converse (settings : Settings) (session : Session) : IO Unit := do
  display Dialogue.prompt
  let line ← (← IO.getStdin).getLine
  if line.isEmpty then display Dialogue.farewell
  else
    let answer := Dialogue.answer settings session line.toList
    display answer.output
    match answer.session? with
    | some next => converse settings next
    | none => pure ()

/-- Carries out a command; the result is the exit code. -/
def execute (command : Command) : IO Nat := do
  match command with
  | .run options =>
    match options.path? with
    | some path =>
      let bytes? ← fileBytes path
      let exit := command.execute (fun _ => bytes?) []
      display exit.output
      pure exit.code
    | none =>
      display (options.greeting ++ Dialogue.opening options.debug)
      converse options.settings .start
      pure 0
  | _ =>
    let exit := command.execute (fun _ => none) []
    display exit.output
    pure exit.code

end Monkey.Terminal

def main (arguments : List String) : IO UInt32 := do
  let code ← Monkey.Terminal.execute (.ofArguments arguments)
  pure code.toUInt32
