import Recompiler.Interp.Exec

/-! The store of register code. A handle is the place of a block; a freed place is used again. -/
namespace Recompiler.Interp

open IR Pass

/-- A stored block and the host address of its code. -/
structure Stored where
  code : Code
  addr : Nat
  deriving Inhabited, Repr

structure Backend where
  offsets : Offsets
  registers : Array Register := Interp.registers
  blocks : Array (Option Stored) := #[]
  /-- Where the next block is put. -/
  nextAddr : Nat := 0x7f6000000000
  deriving Inhabited, Repr

namespace Backend

/-- Host bytes of one operation. -/
def opSize : Nat := 64

/-- Space between blocks. -/
def gap : Nat := 64

def stored? (b : Backend) (handle : Nat) : Option Stored := (b.blocks[handle]?).join

def stored (b : Backend) (handle : Nat) : Except Fault Stored :=
  match b.stored? handle with
  | some s => .ok s
  | none => .error (.staleHandle handle)

/-- Put code into the first free place. -/
def store (b : Backend) (code : Code) : Backend × Nat :=
  let block := some { code, addr := b.nextAddr }
  let b := { b with nextAddr := b.nextAddr + code.ops.size * opSize + gap }
  match b.blocks.findIdx? (·.isNone) with
  | some n => ({ b with blocks := b.blocks.setIfInBounds n block }, n)
  | none => ({ b with blocks := b.blocks.push block }, b.blocks.size)

/-- Lower a fragment and keep its code. -/
def assemble (b : Backend) (guestAddr : UInt32) (f : Fragment) : Backend × Assembling Nat :=
  match Code.ofFragment guestAddr f with
  | .ok code =>
    let (b, handle) := b.store code
    (b, .ok handle)
  | .error e => (b, .error e)

def free (b : Backend) (handle : Nat) : Backend :=
  { b with blocks := b.blocks.setIfInBounds handle none }

def reset (b : Backend) : Backend := { b with blocks := #[] }

def codeSize (b : Backend) (handle : Nat) : Except Fault Nat := do
  return (← b.stored handle).code.ops.size * opSize

def codeAddr (b : Backend) (handle : Nat) : Except Fault Nat := do
  return (← b.stored handle).addr

def listing (b : Backend) (handle : Nat) : Except Fault String := do
  return (← b.stored handle).code.listing b.registers

def execute {σ : Type} (b : Backend) (g : Guest σ) (fuel handle : Nat) (w : World σ) :
    Except Fault (Exit × World σ) := do
  (← b.stored handle).code.execute g b.offsets b.registers.size fuel w

end Backend
end Recompiler.Interp
