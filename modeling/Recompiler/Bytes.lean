/-! Little-endian numbers in byte sequences. -/
namespace Recompiler.Bytes

/-- The `n` low bytes of a word, lowest first. -/
def ofWord : Nat → UInt64 → List UInt8
  | 0, _ => []
  | n + 1, v => v.toUInt8 :: ofWord n (v >>> 8)

/-- The word whose bytes are listed, lowest first. -/
def toWord : List UInt8 → UInt64
  | [] => 0
  | b :: bs => b.toUInt64 ||| toWord bs <<< 8

/-- The number in `size` bytes from `offset` on. Bytes past the end read as zero. -/
def read (a : Array UInt8) (offset size : Nat) : UInt64 :=
  toWord ((List.range size).map fun i => a.getD (offset + i) 0)

/-- Write bytes from `offset` on. Bytes past the end are dropped. -/
def place (a : Array UInt8) (offset : Nat) : List UInt8 → Array UInt8
  | [] => a
  | b :: bs => place (a.setIfInBounds offset b) (offset + 1) bs

/-- Write the `size` low bytes of a number from `offset` on. -/
def write (a : Array UInt8) (offset size : Nat) (v : UInt64) : Array UInt8 :=
  place a offset (ofWord size v)

end Recompiler.Bytes
