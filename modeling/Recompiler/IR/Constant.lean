import Recompiler.Fault

/-! Identifiers and constant payloads. -/
namespace Recompiler.IR

/-- Index of a value in its fragment. -/
structure ValueId where
  index : Nat
  deriving DecidableEq, Inhabited, Repr, Hashable

/-- Index of an instruction in its fragment. -/
structure InstrId where
  index : Nat
  deriving DecidableEq, Inhabited, Repr, Hashable

/-- Index of a block in its fragment. -/
structure BlockId where
  index : Nat
  deriving DecidableEq, Inhabited, Repr, Hashable

/-- Index of a local slot in its fragment. -/
structure LocalId where
  index : Nat
  deriving DecidableEq, Inhabited, Repr, Hashable

/-- A constant. Scalars are kept as bit patterns of their width. -/
inductive Constant where
  | i8 (bits : UInt8)
  | i16 (bits : UInt16)
  | i32 (bits : UInt32)
  | i64 (bits : UInt64)
  | f32 (bits : UInt32)
  | f64 (bits : UInt64)
  | str (text : String)
  | blk (block : BlockId)
  deriving DecidableEq, Repr

namespace Constant

def ty : Constant → Ty
  | i8 _ => .i8
  | i16 _ => .i16
  | i32 _ => .i32
  | i64 _ => .i64
  | f32 _ => .f32
  | f64 _ => .f64
  | str _ => .str
  | blk _ => .blk

/-- The scalar of type `ty` with the low bits of `bits`. -/
def ofBits? (ty : Ty) (bits : UInt64) : Option Constant :=
  match ty with
  | .i8 => some (i8 bits.toUInt8)
  | .i16 => some (i16 bits.toUInt16)
  | .i32 => some (i32 bits.toUInt32)
  | .i64 => some (i64 bits)
  | .f32 => some (f32 bits.toUInt32)
  | .f64 => some (f64 bits)
  | _ => none

/-- The bits of a scalar, extended with zeros. -/
def bits? : Constant → Option UInt64
  | i8 b => some b.toUInt64
  | i16 b => some b.toUInt64
  | i32 b => some b.toUInt64
  | i64 b => some b
  | f32 b => some b.toUInt64
  | f64 b => some b
  | _ => none

/-- The bits of an integer, extended with zeros. -/
def zext? (c : Constant) : Option UInt64 := if c.ty.isInt then c.bits? else none

/-- An integer, extended with its sign. -/
def sext? : Constant → Option Int64
  | i8 b => some b.toInt8.toInt64
  | i16 b => some b.toInt16.toInt64
  | i32 b => some b.toInt32.toInt64
  | i64 b => some b.toInt64
  | _ => none

end Constant
end Recompiler.IR
