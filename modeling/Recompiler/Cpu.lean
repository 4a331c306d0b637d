import Recompiler.Guest
import Recompiler.IR.Builder

/-! A guest processor: its state on the side of the host, and how its code becomes a fragment. -/
namespace Recompiler

open IR

structure Cpu (σ : Type) where
  name : String
  offsets : Offsets
  /-- The routines that generated code calls. -/
  guest : Guest σ
  /-- Memory that code may access directly. -/
  fastMem : World σ → Option FastMem
  /-- Deliver a pending interrupt, which may change the pc. -/
  interruptCheck : World σ → Except Fault (World σ)
  /-- Interpret the instruction at the pc. -/
  step : World σ → Except Fault (World σ)
  /-- The instruction that a word encodes. -/
  instrName : UInt32 → String
  /-- Bytes of the block at an address; never zero. -/
  blockSize : World σ → UInt32 → Except Fault Nat
  /-- Lift so many bytes of guest code. The fragment ends in a branch. -/
  lift : World σ → UInt32 → Nat → Bool → Build Unit
  /-- The disassembly of so many bytes, a line for each instruction. -/
  disassemble : World σ → UInt32 → Nat → String

/-- Lift into a new fragment. -/
def Cpu.fragment {σ : Type} (cpu : Cpu σ) (w : World σ) (addr : UInt32) (size : Nat)
    (fast : Bool) : Except Fault Fragment := do
  let ((), f) ← cpu.lift w addr size fast Fragment.empty
  return f

end Recompiler
