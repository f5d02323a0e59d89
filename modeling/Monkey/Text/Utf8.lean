import Monkey.Text.Number
/-!
# UTF-8

Decoding of bytes, with the place and the cause of the first fault.  A faulty sequence extends over the longest run of
bytes that begins some well-formed sequence, or over its first byte if that byte begins none.
-/
namespace Monkey.Text.Utf8

inductive Cause where
  | start
  | continuation
  | ending
  deriving DecidableEq

/-- A faulty sequence: the offset of its first byte, its bytes and the cause. -/
structure Fault where
  offset : Nat
  bytes : List Nat
  cause : Cause
  deriving DecidableEq

def Cause.message : Cause → String
  | start => "invalid start byte"
  | continuation => "invalid continuation byte"
  | ending => "unexpected end of data"

/-- The wording of a fault: a single byte is shown, several are only counted. -/
def Fault.message (f : Fault) : String :=
  match f.bytes with
  | [b] => "'utf-8' codec can't decode byte 0x" ++ String.ofList (hex 2 b) ++ " in position " ++ decimal f.offset ++
      ": " ++ f.cause.message
  | bs => "'utf-8' codec can't decode bytes in position " ++ decimal f.offset ++ "-" ++
      decimal (f.offset + bs.length - 1) ++ ": " ++ f.cause.message

/-- What a first byte announces: the bits it contributes and the range of each byte that has to follow. -/
def lead? (b : Nat) : Option (Nat × List (Nat × Nat)) :=
  if b < 0x80 then some (b, [])
  else if b < 0xC2 then none
  else if b < 0xE0 then some (b - 0xC0, [(0x80, 0xBF)])
  else if b = 0xE0 then some (0, [(0xA0, 0xBF), (0x80, 0xBF)])
  else if b = 0xED then some (0xD, [(0x80, 0x9F), (0x80, 0xBF)])
  else if b < 0xF0 then some (b - 0xE0, [(0x80, 0xBF), (0x80, 0xBF)])
  else if b = 0xF0 then some (0, [(0x90, 0xBF), (0x80, 0xBF), (0x80, 0xBF)])
  else if b < 0xF4 then some (b - 0xF0, [(0x80, 0xBF), (0x80, 0xBF), (0x80, 0xBF)])
  else if b = 0xF4 then some (4, [(0x80, 0x8F), (0x80, 0xBF), (0x80, 0xBF)])
  else none

/-- A decoder between two bytes: the text so far (last character first), the offset of the open sequence, its bytes so
far (last byte first), the bits they contribute and the ranges of the bytes still to come. -/
structure State where
  text : List Char
  offset : Nat
  seen : List Nat
  bits : Nat
  wanted : List (Nat × Nat)

/-- The decoder after one more byte that fits: the sequence goes on, or its character is complete. -/
def State.take (s : State) (b bits : Nat) (wanted : List (Nat × Nat)) : State :=
  match wanted with
  | [] => ⟨Char.ofNat bits :: s.text, s.offset + s.seen.length + 1, [], 0, []⟩
  | _ => ⟨s.text, s.offset, b :: s.seen, bits, wanted⟩

def State.step (s : State) (b : Nat) : Except Fault State :=
  match s.wanted with
  | [] =>
    match lead? b with
    | some (bits, wanted) => .ok (s.take b bits wanted)
    | none => .error ⟨s.offset, [b], .start⟩
  | (lo, hi) :: wanted =>
    if lo ≤ b ∧ b ≤ hi then .ok (s.take b (64 * s.bits + b % 64) wanted)
    else .error ⟨s.offset, s.seen.reverse, .continuation⟩

/-- The text behind the last byte. -/
def State.finish (s : State) : Except Fault (List Char) :=
  match s.wanted with
  | [] => .ok s.text.reverse
  | _ => .error ⟨s.offset, s.seen.reverse, .ending⟩

/-- The text that bytes encode, or the first fault. -/
def decode (bytes : List Nat) : Except Fault (List Char) := do
  let s ← bytes.foldlM State.step ⟨[], 0, [], 0, []⟩
  s.finish

end Monkey.Text.Utf8
