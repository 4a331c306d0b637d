import Recompiler.Text.Number

/-! Value types of the intermediate representation. -/
namespace Recompiler.IR

/-- The type of a value. Strings and block references occur only as constants. -/
inductive Ty where
  | i8 | i16 | i32 | i64 | f32 | f64 | v128 | str | blk
  deriving DecidableEq, Inhabited, Repr

namespace Ty

/-- Every type, in numbering order. -/
def all : List Ty := [i8, i16, i32, i64, f32, f64, v128, str, blk]

/-- Position in the numbering order. -/
def index (t : Ty) : Nat := all.idxOf t

/-- The word that stands for the type in text. -/
def name : Ty → String
  | i8 => "i8"
  | i16 => "i16"
  | i32 => "i32"
  | i64 => "i64"
  | f32 => "f32"
  | f64 => "f64"
  | v128 => "v128"
  | str => "str"
  | blk => "blk"

/-- The type a word stands for, whatever its case. -/
def ofName? (s : String) : Option Ty := all.find? fun t => Text.sameName t.name s

/-- Bytes a value takes in memory; strings and block references take none. -/
def bytes : Ty → Nat
  | i8 => 1
  | i16 => 2
  | i32 | f32 => 4
  | i64 | f64 => 8
  | v128 => 16
  | str | blk => 0

/-- Bits a value takes in memory. -/
def bits (t : Ty) : Nat := t.bytes * 8

def isInt : Ty → Bool
  | i8 | i16 | i32 | i64 => true
  | _ => false

def isFloat : Ty → Bool
  | f32 | f64 => true
  | _ => false

def isVector : Ty → Bool
  | v128 => true
  | _ => false

/-- Types a store can write. -/
def isData (t : Ty) : Bool := t.isInt || t.isFloat || t.isVector

theorem bits_ne_zero {t : Ty} (h : t.isInt || t.isFloat) : t.bits ≠ 0 := by
  cases t <;> first | decide | cases h

/-- The bit that stands for the type in a set of types. -/
def mask (t : Ty) : Nat := 1 <<< t.index

/-- The bits of a 64-bit word that a value of the type occupies. -/
def wordMask : Ty → UInt64
  | i8 => 0xff
  | i16 => 0xffff
  | i32 | f32 => 0xffffffff
  | _ => 0xffffffffffffffff

/-- The integer types, narrowest first. -/
def ints : List Ty := [i8, i16, i32, i64]

/-- The scalar float types. -/
def floats : List Ty := [f32, f64]

end Ty
end Recompiler.IR
