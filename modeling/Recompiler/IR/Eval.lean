import Recompiler.Fault

/-!
What the computing operations compute, on bits. Integers are extended with zeros to 64 bits,
floats are their encodings.
-/
namespace Recompiler.IR.Eval

/-- The low bits of a type as a signed number. -/
def signed (ty : Ty) (bits : UInt64) : Int64 :=
  let unused := UInt64.ofNat (64 - min ty.bits 64)
  (bits <<< unused).toInt64 >>> unused.toInt64

/-- The low bits that a type has. -/
def truncate (ty : Ty) (bits : UInt64) : UInt64 := bits &&& ty.wordMask

/-- The float that bits encode. -/
def toFloat (ty : Ty) (bits : UInt64) : Float :=
  match ty with
  | .f32 => (Float32.ofBits bits.toUInt32).toFloat
  | _ => Float.ofBits bits

/-- The encoding of a float in a type. -/
def ofFloat (ty : Ty) (x : Float) : UInt64 :=
  match ty with
  | .f32 => x.toFloat32.toBits.toUInt64
  | _ => x.toBits

/-- The bits of a float type other than the sign. -/
def magnitudeMask : Ty → UInt64
  | .f32 => 0x7fffffff
  | _ => 0x7fffffffffffffff

/-- The encoding in `ty` of the float that `bits` encode in `source`. A NaN keeps its bits where the
type stays. -/
def recode (ty source : Ty) (bits : UInt64) : UInt64 :=
  if ty = source then truncate ty bits else ofFloat ty (toFloat source bits)

/-- Shift left by the low five bits of a count that is not negative. For a negative count shift
right by what its low five bits lack to 32. -/
def shiftSigned (a n : UInt32) (arithmetic : Bool) : UInt32 :=
  let right (count : UInt32) : UInt32 :=
    if arithmetic then (a.toInt32 >>> count.toInt32).toUInt32 else a >>> count
  if n.toInt32 ≥ 0 then a <<< (n &&& 31)
  else if n &&& 31 = 0 then (if arithmetic then right 31 else 0)
  else right ((~~~n &&& 31) + 1)

/-- Signed division; by zero it gives zero, and overflow wraps. -/
def divide (a b : Int64) : Int64 := if b = 0 then 0 else a / b

/-- What an operation makes of operand bits. `ty` is the result type, `aty` and `bty` the operand
types. -/
def compute (op : Opcode) (ty aty bty : Ty) (a b c : UInt64) : Except Fault UInt64 :=
  let sa := signed aty a
  let sb := signed bty b
  let fa := toFloat aty a
  let fb := toFloat bty b
  match op with
  | .ftoi => .ok fa.toInt64.toUInt64
  | .itof => .ok (ofFloat ty sa.toFloat)
  | .sext => .ok sa.toUInt64
  | .zext | .trunc => .ok a
  | .fext | .ftrunc => .ok (ofFloat ty fa)
  | .select => .ok (if a ≠ 0 then b else c)
  | .cmpEq => .ok (a == b).toUInt64
  | .cmpNe => .ok (a != b).toUInt64
  | .cmpSge => .ok (decide (sa ≥ sb)).toUInt64
  | .cmpSgt => .ok (decide (sa > sb)).toUInt64
  | .cmpUge => .ok (decide (a ≥ b)).toUInt64
  | .cmpUgt => .ok (decide (a > b)).toUInt64
  | .cmpSle => .ok (decide (sa ≤ sb)).toUInt64
  | .cmpSlt => .ok (decide (sa < sb)).toUInt64
  | .cmpUle => .ok (decide (a ≤ b)).toUInt64
  | .cmpUlt => .ok (decide (a < b)).toUInt64
  | .fcmpEq => .ok (fa == fb).toUInt64
  | .fcmpNe => .ok (fa != fb).toUInt64
  | .fcmpGe => .ok (decide (fa ≥ fb)).toUInt64
  | .fcmpGt => .ok (decide (fa > fb)).toUInt64
  | .fcmpLe => .ok (decide (fa ≤ fb)).toUInt64
  | .fcmpLt => .ok (decide (fa < fb)).toUInt64
  | .add => .ok (a + b)
  | .sub => .ok (a - b)
  | .smul => .ok (sa * sb).toUInt64
  | .umul => .ok (a * b)
  | .div => .ok (divide sa sb).toUInt64
  | .neg => .ok (-sa).toUInt64
  | .abs => .ok (if sa < 0 then -sa else sa).toUInt64
  | .fadd => .ok (ofFloat ty (fa + fb))
  | .fsub => .ok (ofFloat ty (fa - fb))
  | .fmul => .ok (ofFloat ty (fa * fb))
  | .fdiv => .ok (ofFloat ty (fa / fb))
  | .fneg => .ok (recode ty aty a ^^^ (magnitudeMask ty + 1))
  | .fabs => .ok (recode ty aty a &&& magnitudeMask ty)
  | .sqrt => .ok (ofFloat ty fa.sqrt)
  | .and => .ok (a &&& b)
  | .or => .ok (a ||| b)
  | .xor => .ok (a ^^^ b)
  | .not => .ok (~~~a)
  | .shl => .ok (a <<< (b &&& 63))
  | .ashr => .ok (sa >>> (b &&& 63).toInt64).toUInt64
  | .lshr => .ok (a >>> (b &&& 63))
  | .ashd => .ok (shiftSigned a.toUInt32 b.toUInt32 true).toUInt64
  | .lshd => .ok (shiftSigned a.toUInt32 b.toUInt32 false).toUInt64
  | op => .error (.notPure op)

/-- Apply an operation to operand bits. Its first two operands are extended with their signs,
whether it looks at them or not, so their types need bits. -/
def apply (op : Opcode) (ty aty bty : Ty) (a b c : UInt64) : Except Fault UInt64 :=
  if aty.bits = 0 ∨ bty.bits = 0 then .error .overflow else compute op ty aty bty a b c

theorem apply_eq {aty bty : Ty} (ha : aty.bits ≠ 0) (hb : bty.bits ≠ 0) (op : Opcode) (ty : Ty)
    (a b c : UInt64) : apply op ty aty bty a b c = compute op ty aty bty a b c :=
  if_neg (not_or.mpr ⟨ha, hb⟩)

theorem apply_noBits {aty bty : Ty} (h : aty.bits = 0 ∨ bty.bits = 0) (op : Opcode) (ty : Ty)
    (a b c : UInt64) : apply op ty aty bty a b c = .error .overflow :=
  if_pos h

theorem apply_eq_ok {op : Opcode} {ty aty bty : Ty} {a b c x : UInt64} :
    apply op ty aty bty a b c = .ok x ↔
      (aty.bits ≠ 0 ∧ bty.bits ≠ 0) ∧ compute op ty aty bty a b c = .ok x := by
  unfold apply
  split
  · next h => exact ⟨nofun, fun ⟨hbits, _⟩ => absurd h (not_or.mpr hbits)⟩
  · next h => exact ⟨fun hx => ⟨not_or.mp h, hx⟩, And.right⟩

end Recompiler.IR.Eval
