import Recompiler.Jit.Basic

/-! Dispatch: run blocks and follow their exits until the cycles are spent. -/
namespace Recompiler.Jit

variable {σ : Type}

/-- Most cycles between two interrupt checks. -/
def sliceCycles : Int := 64

/-- Cycles left. -/
def cyclesLeft (cpu : Cpu σ) (w : World σ) : Int := (w.get32 cpu.offsets.cycles).toInt32.toInt

/-- Remember where an exit leads, if that is its constant target. -/
def linkExit (j : Jit) (source : UInt32) (slot : Nat) (dst : UInt32) : Jit :=
  if ((j.cache.get? source).bind fun b => b.exits[slot]?) = some dst then
    { j with cache := j.cache.link source slot dst }
  else j

/-- Find the block at `dst` and link the exit to it. -/
def findLinked (cpu : Cpu σ) (w : World σ) (source : UInt32) (slot : Nat) (dst : UInt32) (j : Jit) :
    Except Fault (Attempt Nat) := do
  match ← j.find cpu w dst with
  | (j, .ok code) => return (j.linkExit source slot dst, .ok code)
  | failed => return failed

/-- The code for the pc after a block has left: through the link of a static exit if it leads
there, else by address. -/
def follow (cpu : Cpu σ) (w : World σ) (source : UInt32) (exit : Exit) (j : Jit) :
    Except Fault (Attempt Nat) := do
  let pc := w.get32 cpu.offsets.pc
  match exit with
  | .dynamic => j.find cpu w pc
  | .static slot =>
    match j.cache.linked source slot with
    | some (dst, code) =>
      if dst = pc then return (j, .ok code) else j.findLinked cpu w source slot pc
    | none => j.findLinked cpu w source slot pc

/-- Steps within which a block ends. Lifted code only jumps forward, so its size bounds them. -/
def blockFuel (j : Jit) (code : Nat) : Except Fault Nat := do
  return (← j.backend.codeSize code) + 1

/-- Run a block and its successors until at most `stop` cycles are left or an interrupt is
pending. -/
def runBlocks (cpu : Cpu σ) (stop : Int) :
    Nat → UInt32 → Nat → World σ → Jit → Except Fault (World σ × Attempt Unit)
  | 0, _, _, _, _ => .error .outOfFuel
  | fuel + 1, addr, code, w, j => do
    let (exit, w) ← j.backend.execute cpu.guest (← j.blockFuel code) code w
    if cyclesLeft cpu w ≤ stop || w.get32 cpu.offsets.interrupts ≠ 0 then return (w, j, .ok ())
    else
      match ← j.follow cpu w addr exit with
      | (j, .ok code) => runBlocks cpu stop fuel (w.get32 cpu.offsets.pc) code w j
      | (j, .error e) => return (w, j, .error e)

/-- Run from the pc to the end of a slice; at least one block runs. Every block takes a cycle, so
the cycles left bound their number. -/
def runSlice (cpu : Cpu σ) (w : World σ) (j : Jit) : Except Fault (World σ × Attempt Unit) := do
  let left := cyclesLeft cpu w
  let addr := w.get32 cpu.offsets.pc
  match ← j.find cpu w addr with
  | (j, .ok code) => runBlocks cpu (left - min left sliceCycles) (left.toNat + 1) addr code w j
  | (j, .error e) => return (w, j, .error e)

/-- Run slices with an interrupt check after each, while cycles are left. -/
def runSlices (cpu : Cpu σ) : Nat → World σ → Jit → Except Fault (World σ × Attempt Unit)
  | 0, _, _ => .error .outOfFuel
  | fuel + 1, w, j => do
    if cyclesLeft cpu w ≤ 0 then return (w, j, .ok ())
    else
      match ← runSlice cpu w j with
      | (w, j, .ok ()) => runSlices cpu fuel (← cpu.interruptCheck w) j
      | failed => return failed

/-- Run the guest for about so many cycles and return how many it took. Blocks run to their end, so
it may take more. -/
def run (cpu : Cpu σ) (cycles : Int32) (w : World σ) (j : Jit) :
    Except Fault (World σ × Attempt Int) := do
  let w := w.set32 cpu.offsets.cycles cycles.toUInt32
  let w := w.set32 cpu.offsets.instrs 0
  match ← runSlices cpu (cycles.toInt.toNat + 1) w j with
  | (w, j, .ok ()) => return (w, j, .ok (cycles.toInt - cyclesLeft cpu w))
  | (w, j, .error e) => return (w, j, .error e)

end Recompiler.Jit
