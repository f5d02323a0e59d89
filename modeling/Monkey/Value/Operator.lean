import Monkey.Value.Basic
/-!
# Operators on values

Integer arithmetic is that of 64-bit machine words: a result is wrapped into their range, and a quotient is rounded
toward zero.  An operator without a meaning for its operands gives the cause of a runtime error.
-/
namespace Monkey

namespace Arith

/-- The lowest 64 bits of an integer. -/
def mask (n : Int) : Nat := (n % 0x10000000000000000).toNat

/-- An integer cut to its lowest 64 bits, of which the highest is the sign. -/
def wrap (n : Int) : Int :=
  if (mask n).testBit 63 then (mask n : Int) - 0x10000000000000000 else mask n

/-- The quotient rounded toward zero, if there is one: that of the absolute values, negative if the signs differ. -/
def quotient? (a b : Int) : Option Int :=
  if b = 0 then none
  else
    let q : Int := (a.natAbs / b.natAbs : Nat)
    some (if decide (a < 0) = decide (b < 0) then q else -q)

end Arith

namespace Value

/-- An operator on two values without a meaning for them. -/
def mismatch (op : String) (left right : Value) : Fault :=
  if left.type = right.type then .unknownBinary left.type op right.type
  else .typeMismatch left.type op right.type

def applyInt (op : BinaryOp) (a b : Int) : Except Fault Value :=
  match op with
  | .add => .ok (.int (Arith.wrap (a + b)))
  | .sub => .ok (.int (Arith.wrap (a - b)))
  | .mul => .ok (.int (Arith.wrap (a * b)))
  | .div =>
    match Arith.quotient? a b with
    | some q => .ok (.int (Arith.wrap q))
    | none => .error (.divisionByZero a)
  | .lt => .ok (.bool (decide (a < b)))
  | .gt => .ok (.bool (decide (a > b)))
  | .eq => .ok (.bool (a == b))
  | .notEq => .ok (.bool (a != b))

/-- A binary operator.  Equality is defined on all values, concatenation on strings, the rest on integers. -/
def applyBinary (op : BinaryOp) (left right : Value) : Except Fault Value :=
  match op, left, right with
  | _, .int a, .int b => applyInt op a b
  | .add, .str a, .str b => .ok (.str (a ++ b))
  | .eq, _, _ => .ok (.bool (left.same right))
  | .notEq, _, _ => .ok (.bool (!left.same right))
  | _, _, _ => .error (mismatch op.spelling left right)

/-- A binary operator given by its spelling, which may be no operator of the language. -/
def applyBinarySpelled (text : String) (left right : Value) : Except Fault Value :=
  match BinaryOp.ofSpelling? text with
  | some op => applyBinary op left right
  | none => .error (mismatch text left right)

/-- A unary operator: `!` negates the truth of any value, `-` an integer. -/
def applyUnary (op : UnaryOp) (operand : Value) : Except Fault Value :=
  match op, operand with
  | .bang, _ => .ok (.bool (!operand.isTruthy))
  | .minus, .int n => .ok (.int (Arith.wrap (-n)))
  | .minus, _ => .error (.unknownUnary op.spelling operand.type)

/-- A unary operator given by its spelling, which may be no operator of the language. -/
def applyUnarySpelled (text : String) (operand : Value) : Except Fault Value :=
  match UnaryOp.ofSpelling? text with
  | some op => applyUnary op operand
  | none => .error (.unknownUnary text operand.type)

/-- The element of an array at an index, null outside the array. -/
def elementAt (elements : List Value) (i : Int) : Value :=
  match i with
  | .ofNat n => elements[n]?.getD .null
  | .negSucc _ => .null

/-- The value of a hash under a key, null if there is none. -/
def lookupKey (pairs : List (Key × Value)) (index : Value) : Except Fault Value :=
  match index.key? with
  | some key => .ok ((pairs.lookup key).getD .null)
  | none => .error (.unusableKey index.type)

/-- Indexing: an array by an integer, a hash by any key. -/
def applyIndex (left index : Value) : Except Fault Value :=
  match left, index with
  | .array _ elements, .int i => .ok (elementAt elements i)
  | .hash _ pairs, _ => lookupKey pairs index
  | _, _ => .error (.notIndexable left.type)

end Value

end Monkey
