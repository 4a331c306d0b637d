import Recompiler.X64.Emission
import Recompiler.X64.Lower
import Recompiler.X64.Machine

/-!
The store of machine code. Blocks lie one after another in the buffer; freeing one gives no room
back, only a reset does.
-/
namespace Recompiler.X64

open IR Pass

/-- The place of a block in the buffer. -/
structure Stored where
  guestAddr : UInt32
  offset : Nat
  size : Nat
  deriving DecidableEq, Inhabited, Repr

structure Backend where
  offsets : Offsets
  buffer : CodeBuffer
  /-- A handle is a place in this list; a place is not used twice between resets. -/
  blocks : Array (Option Stored) := #[]
  deriving Inhabited, Repr

namespace Backend

/-- Where the buffer lies. -/
def base : UInt64 := 0x7f5000000000

/-- Default size of the buffer. -/
def defaultCapacity : Nat := 8 * 1024 * 1024

def ofCapacity (offsets : Offsets) (size : Nat) : Backend :=
  { offsets, buffer := CodeBuffer.ofSize size }

def stored? (b : Backend) (handle : Nat) : Option Stored := (b.blocks[handle]?).join

def stored (b : Backend) (handle : Nat) : Except Fault Stored :=
  match b.stored? handle with
  | some s => .ok s
  | none => .error (.staleHandle handle)

/-- Bytes of the buffer in use. -/
def used (b : Backend) : Nat := b.buffer.offset

/-- The machine code of a fragment. -/
def instructions (b : Backend) (f : Fragment) : Assembling (List Instruction) := do
  let c ← .ofFault (Lowering.ofFragment b.offsets f)
  .ofFault (← c.code).instructions

/-- Generate code for a fragment and keep it. If the fragment is refused or the code does not fit,
the buffer is wound back. -/
def assemble (b : Backend) (guestAddr : UInt32) (f : Fragment) : Backend × Assembling Nat :=
  match Lowering.ofFragment b.offsets f with
  | .error fault => (b, .error (.fault fault))
  | .ok c =>
    let start := b.buffer.offset
    let (e, outcome) := Emission.generate { buffer := b.buffer } c.parts
    match outcome with
    | .error r => ({ b with buffer := e.buffer.rewound start }, .error r)
    | .ok () =>
      if e.buffer.overflowed then
        ({ b with buffer := e.buffer.rewound start }, .error (.error .overflow))
      else
        let block : Stored := { guestAddr, offset := start, size := e.buffer.offset - start }
        ({ b with buffer := e.buffer, blocks := b.blocks.push (some block) }, .ok b.blocks.size)

def free (b : Backend) (handle : Nat) : Backend :=
  { b with blocks := b.blocks.setIfInBounds handle none }

def reset (b : Backend) : Backend := { b with blocks := #[], buffer := b.buffer.rewound 0 }

def codeSize (b : Backend) (handle : Nat) : Except Fault Nat := do
  return (← b.stored handle).size

def codeAddr (b : Backend) (handle : Nat) : Except Fault Nat := do
  return base.toNat + (← b.stored handle).offset

/-- The machine code of a block. -/
def codeBytes (b : Backend) (handle : Nat) : Except Fault (List UInt8) := do
  let s ← b.stored handle
  b.buffer.slice s.offset (s.offset + s.size)

/-- Run a block on the machine. -/
def execute {σ : Type} (b : Backend) (g : Guest σ) (fuel handle : Nat) (w : World σ) :
    Except Fault (Exit × World σ) := do
  let s ← b.stored handle
  let (number, w) ← Machine.run g b.buffer fuel (Machine.entry s.offset w)
  return (if number = dynamicExit then .dynamic else .static number.toNat, w)

end Backend
end Recompiler.X64
