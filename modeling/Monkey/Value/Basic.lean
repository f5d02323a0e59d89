import Monkey.Ast.Render
import Monkey.Text.Number
/-!
# Values

What an evaluation computes with.  Integers, booleans, strings, null and the builtin functions are what they contain.
Arrays, hashes, functions, returned values and errors have an identity besides: the number under which they were made,
which no other value of the same run has.  Equality (`Value.same`) compares the first kind by content and the second by
identity.

A runtime error is a value like any other, and so is the value of a `return` on its way to the end of its call.
-/
namespace Monkey

/-- The number under which a value was made. -/
abbrev Identity := Nat

abbrev ScopeId := Nat

inductive ValueType where
  | integer | boolean | string | null | array | hash | function | builtin | returnValue | error
  deriving DecidableEq

def ValueType.name : ValueType → String
  | integer => "INTEGER"
  | boolean => "BOOLEAN"
  | string => "STRING"
  | null => "NULL"
  | array => "ARRAY"
  | hash => "HASH"
  | function => "FUNCTION"
  | builtin => "BUILTIN"
  | returnValue => "RETURN_VALUE"
  | error => "ERROR"

inductive Builtin where
  | len | first | last | rest | push | puts
  deriving DecidableEq

namespace Builtin

/-- Every builtin function, in the order of listings. -/
def all : List Builtin := [len, first, last, rest, push, puts]

/-- The name under which a builtin function is called. -/
def name : Builtin → String
  | len => "len"
  | first => "first"
  | last => "last"
  | rest => "rest"
  | push => "push"
  | puts => "puts"

def ofName? (text : String) : Option Builtin := all.find? (·.name == text)

end Builtin

/-- The causes of runtime errors.  An operator is given by its spelling, and `custom` holds a message that no rule of
the language produces. -/
inductive Fault where
  | typeMismatch (left : ValueType) (op : String) (right : ValueType)
  | unknownBinary (left : ValueType) (op : String) (right : ValueType)
  | unknownUnary (op : String) (operand : ValueType)
  | divisionByZero (dividend : Int)
  | unbound (name : String)
  | notFunction (type : ValueType)
  | unusableKey (type : ValueType)
  | notIndexable (type : ValueType)
  | arity (got want : Nat)
  | unsupportedArgument (callee : Builtin) (type : ValueType)
  | notArray (callee : Builtin) (type : ValueType)
  | custom (message : String)
  deriving DecidableEq

def Fault.message : Fault → String
  | typeMismatch left op right => "type mismatch: " ++ left.name ++ " " ++ op ++ " " ++ right.name
  | unknownBinary left op right => "unknown operator: " ++ left.name ++ " " ++ op ++ " " ++ right.name
  | unknownUnary op operand => "unknown operator: " ++ op ++ operand.name
  | divisionByZero dividend => "division by zero: " ++ Text.signedDecimal dividend ++ " / 0"
  | unbound name => "identifier not found: " ++ name
  | notFunction type => "not a function: " ++ type.name
  | unusableKey type => "unusable as hash key: " ++ type.name
  | notIndexable type => "index operator not supported: " ++ type.name
  | arity got want => "wrong number of arguments. got=" ++ Text.decimal got ++ ", want=" ++ Text.decimal want
  | unsupportedArgument callee type => "argument to `" ++ callee.name ++ "` not supported, got " ++ type.name
  | notArray callee type =>
    "argument to `" ++ callee.name ++ "` must be " ++ ValueType.array.name ++ ", got " ++ type.name
  | custom message => message

/-- The keys of hashes: integers, booleans and strings, each apart from the others. -/
inductive Key where
  | int (n : Int)
  | bool (b : Bool)
  | str (s : String)
  deriving DecidableEq

inductive Value where
  | int (n : Int)
  | bool (b : Bool)
  | str (s : String)
  | null
  | array (id : Identity) (elements : List Value)
  | hash (id : Identity) (pairs : List (Key × Value))
  | fn (id : Identity) (params : List Ident) (body : Block) (scope : ScopeId)
  | builtin (f : Builtin)
  | ret (id : Identity) (value : Value)
  | error (id : Identity) (fault : Fault)

def Key.toValue : Key → Value
  | int n => .int n
  | bool b => .bool b
  | str s => .str s

def Key.render : Key → String
  | int n => Text.signedDecimal n
  | bool b => if b then "true" else "false"
  | str s => s

def Key.type : Key → ValueType
  | int _ => .integer
  | bool _ => .boolean
  | str _ => .string

namespace Value

def type : Value → ValueType
  | int _ => .integer
  | bool _ => .boolean
  | str _ => .string
  | null => .null
  | array _ _ => .array
  | hash _ _ => .hash
  | fn _ _ _ _ => .function
  | builtin _ => .builtin
  | ret _ _ => .returnValue
  | error _ _ => .error

/-- The key that a value is when it can be one. -/
def key? : Value → Option Key
  | int n => some (.int n)
  | bool b => some (.bool b)
  | str s => some (.str s)
  | _ => none

/-- Equality: of what has an identity by identity, of everything else by content. -/
def same : Value → Value → Bool
  | int a, int b => a == b
  | bool a, bool b => a == b
  | str a, str b => a == b
  | null, null => true
  | array i _, array j _ => i == j
  | hash i _, hash j _ => i == j
  | fn i _ _ _, fn j _ _ _ => i == j
  | builtin f, builtin g => f == g
  | ret i _, ret j _ => i == j
  | error i _, error j _ => i == j
  | _, _ => false

/-- Whether a value counts as true in a condition: all do but `false` and null. -/
def isTruthy : Value → Bool
  | null => false
  | bool b => b
  | _ => true

def isError : Value → Bool
  | error _ _ => true
  | _ => false

/-- Whether a value ends the statements that it comes out of: an error does, and the value of a `return`. -/
def isSignal : Value → Bool
  | error _ _ | ret _ _ => true
  | _ => false

/-- The value without one wrapping by `return`. -/
def unwrap : Value → Value
  | ret _ v => v
  | v => v

mutual

def render : Value → String
  | int n => Text.signedDecimal n
  | bool b => if b then "true" else "false"
  | str s => s
  | null => "null"
  | array _ elements => "[" ++ ", ".intercalate (renderAll elements) ++ "]"
  | hash _ pairs => "\x7b" ++ ", ".intercalate (renderPairs pairs) ++ "\x7d"
  | fn _ params body _ => "fn(" ++ ", ".intercalate (params.map (·.name)) ++ ") " ++ body.render
  | builtin f => "builtin function " ++ f.name
  | ret _ v => v.render
  | error _ fault => "ERROR: " ++ fault.message

def renderAll : List Value → List String
  | [] => []
  | v :: rest => v.render :: renderAll rest

def renderPairs : List (Key × Value) → List String
  | [] => []
  | (key, v) :: rest => (key.render ++ ": " ++ v.render) :: renderPairs rest

end

end Value

end Monkey
