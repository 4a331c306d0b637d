import Recompiler.Fault
import Recompiler.X64.Encode

/-!
Memory for machine code. A write takes a whole piece or nothing; the first piece that does not fit
sets a mark, and from then on nothing is written until the buffer is wound back.
-/
namespace Recompiler.X64

structure CodeBuffer where
  capacity : Nat
  /-- What has been written at any time; the rest of the memory is zero. -/
  bytes : Array UInt8 := #[]
  /-- The write position. -/
  offset : Nat := 0
  overflowed : Bool := false
  deriving Inhabited, Repr

namespace CodeBuffer

def pageSize : Nat := 4096

/-- A buffer of at least so many bytes, in whole pages. -/
def ofSize (size : Nat) : CodeBuffer :=
  { capacity := (max size 1 + pageSize - 1) / pageSize * pageSize }

def remaining (b : CodeBuffer) : Nat := b.capacity - b.offset

/-- Put bytes at a position. -/
def place (b : CodeBuffer) (pos : Nat) (piece : List UInt8) : CodeBuffer :=
  let missing := pos + piece.length - b.bytes.size
  { b with bytes := Bytes.place (b.bytes ++ Array.replicate missing 0) pos piece }

/-- Append a piece. -/
def write (b : CodeBuffer) (piece : List UInt8) : CodeBuffer :=
  if b.overflowed || b.offset + piece.length > b.capacity then { b with overflowed := true }
  else { b.place b.offset piece with offset := b.offset + piece.length }

def writeAll (b : CodeBuffer) (pieces : Pieces) : CodeBuffer := pieces.foldl write b

def emit (b : CodeBuffer) (i : Instruction) : CodeBuffer := b.writeAll i.pieces

/-- The buffer with the write position moved and the mark cleared. -/
def rewound (b : CodeBuffer) (pos : Nat) : CodeBuffer :=
  { b with offset := pos, overflowed := false }

/-- Move the write position and clear the mark. -/
def rewind (b : CodeBuffer) (pos : Nat) : Except Fault CodeBuffer :=
  if pos ≤ b.capacity then .ok (b.rewound pos) else .error .assertion

/-- The place of a position in host memory. -/
def addressOf (b : CodeBuffer) (base : UInt64) (pos : Nat) : Except Fault UInt64 :=
  if pos ≤ b.capacity then .ok (base + pos.toUInt64) else .error .assertion

/-- Where the 32-bit word at a position ends. Positions are 64-bit words themselves. -/
def wordEnd (pos : UInt64) : Except Fault Nat :=
  if pos.toNat + 4 < UInt64.size then .ok (pos.toNat + 4) else .error .overflow

/-- Replace a 32-bit word that was written; a word that was dropped is left out. -/
def overwrite (b : CodeBuffer) (pos : Nat) (v : UInt32) : CodeBuffer :=
  if pos + 4 > b.offset then b else b.place pos (Bytes.ofWord 4 v.toUInt64)

/-- Replace the 32-bit word at a position that is a 64-bit word. -/
def patch (b : CodeBuffer) (pos : UInt64) (v : UInt32) : Except Fault CodeBuffer := do
  let _ ← wordEnd pos
  return b.overwrite pos.toNat v

/-- A 32-bit word that was written. -/
def read (b : CodeBuffer) (pos : UInt64) : Except Fault UInt32 := do
  if (← wordEnd pos) > b.offset then throw .assertion
  return (Bytes.read b.bytes pos.toNat 4).toUInt32

/-- The bytes from one position up to another. -/
def view (b : CodeBuffer) (start stop : Nat) : List UInt8 :=
  (List.range (stop - start)).map fun n => b.bytes.getD (start + n) 0

/-- The written bytes from one position up to another. -/
def slice (b : CodeBuffer) (start stop : Nat) : Except Fault (List UInt8) :=
  if start ≤ stop && stop ≤ b.offset then .ok (b.view start stop) else .error .assertion

/-! ### Jumps to places that are not known yet -/

/-- Append a jump. The position of its displacement is returned. -/
def openJump (b : CodeBuffer) (cond : Option Cond) : CodeBuffer × Nat :=
  let b := b.writeAll (jumpHead cond)
  (b.write (imm32 0), b.offset)

/-- Whether a number fits a signed 64-bit word. -/
def fitsWord (n : Int) : Bool := -0x8000000000000000 ≤ n && n < 0x8000000000000000

/-- How far `target` lies from the end of the displacement at `site`. Both are read as signed words,
so a position in the upper half counts as one before the start. -/
def distance (site target : UInt64) : Except Fault Int :=
  let start := site.toInt64.toInt + 4
  let dist := target.toInt64.toInt - start
  if fitsWord start && fitsWord dist then .ok dist else .error .overflow

/-- A distance as a displacement. -/
def displacement (dist : Int) : Except Fault Int32 :=
  if dist < -0x80000000 || dist ≥ 0x80000000 then .error .jumpRange else .ok (Int32.ofInt dist)

/-- Let the displacement at `site` lead to `target`. -/
def linkJump (b : CodeBuffer) (site target : UInt64) : Except Fault CodeBuffer := do
  b.patch site (← displacement (← distance site target)).toUInt32

/-- Let the displacement at `site` lead to `target`, where no position comes near the limit of a
word. -/
def connect (b : CodeBuffer) (site target : Nat) : Except Fault CodeBuffer := do
  return b.overwrite site (← displacement (target - (site + 4))).toUInt32

/-- Let the displacement at `site` lead to the write position. -/
def bindJump (b : CodeBuffer) (site : UInt64) : Except Fault CodeBuffer :=
  b.linkJump site b.offset.toUInt64

end CodeBuffer
end Recompiler.X64
