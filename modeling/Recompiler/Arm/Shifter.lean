import Recompiler.Arm.Context

/-! The barrel shifter, addition with carry, and conditions. -/
namespace Recompiler.Arm

inductive Shift where
  | lsl | lsr | asr | ror
  deriving DecidableEq, Inhabited, Repr

/-- The shift that two bits encode. -/
def Shift.ofBits (n : UInt32) : Shift :=
  match n &&& 3 with
  | 0 => lsl
  | 1 => lsr
  | 2 => asr
  | _ => ror

/-- Bit `n` of a word. -/
def wordBit (v n : UInt32) : Bool := (v >>> n) &&& 1 ≠ 0

/-- Shift right, filling with the sign. -/
def shiftSign (v n : UInt32) : UInt32 := (v.toInt32 >>> n.toInt32).toUInt32

/-- Rotate right by less than 32. -/
def rotateRight (v n : UInt32) : UInt32 := (v >>> n) ||| (v <<< ((32 - n) % 32))

namespace Shift

/-- Shift by an amount from 1 to 31; the carry is the last bit shifted out. -/
def short (s : Shift) (v n : UInt32) : UInt32 × Bool :=
  match s with
  | lsl => (v <<< n, wordBit v (32 - n))
  | lsr => (v >>> n, wordBit v (n - 1))
  | asr => (shiftSign v n, wordBit v (n - 1))
  | ror => (rotateRight v n, wordBit v (n - 1))

/-- Shift by a five-bit amount. Zero stands for no shift, for 32, or for a rotation through the
carry. -/
def immediate (s : Shift) (v amount : UInt32) (carry : Bool) : UInt32 × Bool :=
  if amount ≠ 0 then s.short v amount
  else
    match s with
    | lsl => (v, carry)
    | lsr => (0, wordBit v 31)
    | asr => (shiftSign v 31, wordBit v 31)
    | ror => ((carry.toUInt32 <<< 31) ||| (v >>> 1), wordBit v 0)

/-- Shift by the low byte of a register. -/
def register (s : Shift) (v amount : UInt32) (carry : Bool) : UInt32 × Bool :=
  if amount = 0 then (v, carry)
  else
    match s with
    | lsl => if amount < 32 then s.short v amount else (0, amount = 32 && wordBit v 0)
    | lsr => if amount < 32 then s.short v amount else (0, amount = 32 && wordBit v 31)
    | asr => if amount < 32 then s.short v amount else (shiftSign v 31, wordBit v 31)
    | ror => if amount &&& 31 = 0 then (v, wordBit v 31) else s.short v (amount &&& 31)

end Shift

/-- `a + b + carry` with carry and signed overflow. -/
def addWithCarry (a b : UInt32) (carry : Bool) : UInt32 × Bool × Bool :=
  let wide := a.toUInt64 + b.toUInt64 + carry.toUInt64
  let r := wide.toUInt32
  (r, wide >>> 32 != 0, wordBit (~~~(a ^^^ b) &&& (a ^^^ r)) 31)

/-- Whether a condition holds. -/
def condPassed (cpsr cond : UInt32) : Bool :=
  let n := cpsr &&& flagN != 0
  let z := cpsr &&& flagZ != 0
  let c := cpsr &&& flagC != 0
  let v := cpsr &&& flagV != 0
  match cond &&& 0xf with
  | 0x0 => z
  | 0x1 => !z
  | 0x2 => c
  | 0x3 => !c
  | 0x4 => n
  | 0x5 => !n
  | 0x6 => v
  | 0x7 => !v
  | 0x8 => c && !z
  | 0x9 => !c || z
  | 0xa => n == v
  | 0xb => n != v
  | 0xc => !z && n == v
  | 0xd => z || n != v
  | 0xe => true
  | _ => false

end Recompiler.Arm
