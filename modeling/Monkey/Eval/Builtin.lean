import Monkey.Eval.World
/-!
# Builtin functions

What the builtin functions do with their arguments.  All but `puts` insist on the number of arguments, and none of them
changes a value: `rest` and `push` make new arrays.
-/
namespace Monkey.Builtin

/-- The elements of the only argument, if it is an array. -/
def arrayArgument (f : Builtin) : List Value → Except Fault (List Value)
  | [.array _ elements] => .ok elements
  | [v] => .error (.notArray f v.type)
  | args => .error (.arity args.length 1)

/-- The number of code points of a string, or of elements of an array. -/
def callLen : List Value → Eval Value
  | [.str s] => pure (.int s.length)
  | [.array _ elements] => pure (.int elements.length)
  | [v] => Eval.fault (.unsupportedArgument .len v.type)
  | args => Eval.fault (.arity args.length 1)

/-- An array with a value added at its end. -/
def callPush : List Value → Eval Value
  | [.array _ elements, v] => Eval.array (elements ++ [v])
  | [v, _] => Eval.fault (.notArray .push v.type)
  | args => Eval.fault (.arity args.length 2)

/-- An array without its first element, null if it has none. -/
def callRest (elements : List Value) : Eval Value :=
  match elements with
  | [] => pure .null
  | _ :: tail => Eval.array tail

/-- Every value on a line of its own. -/
def printAll : List Value → Eval Unit
  | [] => pure ()
  | v :: vs => do
    Eval.emit (.print v.render)
    printAll vs

def call (f : Builtin) (args : List Value) : Eval Value :=
  match f with
  | len => callLen args
  | push => callPush args
  | puts => do
    printAll args
    pure .null
  | first =>
    match f.arrayArgument args with
    | .ok elements => pure (elements.head?.getD .null)
    | .error fault => Eval.fault fault
  | last =>
    match f.arrayArgument args with
    | .ok elements => pure (elements.getLast?.getD .null)
    | .error fault => Eval.fault fault
  | rest =>
    match f.arrayArgument args with
    | .ok elements => callRest elements
    | .error fault => Eval.fault fault

end Monkey.Builtin
