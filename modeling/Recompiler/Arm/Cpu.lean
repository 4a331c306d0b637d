import Recompiler.Arm.Interpret
import Recompiler.Cpu
import Recompiler.Lift

/-! The ARMv3 core as a guest processor. All its instructions are left to the interpreter. -/
namespace Recompiler.Arm

open IR
open Recompiler.Lift (Routine)

/-- Routines that lifted code calls. -/
def guest : Guest Board where
  read w addr s := (State.read s w addr, s)
  write w addr v s := State.write s w addr v
  fallback _ addr raw s := .ok (interpret addr raw s)
  call _ _ _ s := s
  readHost addr w s := s.rest.ram.readHost addr w
  writeHost addr w v s := { s with rest := { s.rest with ram := s.rest.ram.writeHost addr w v } }

/-- The size of the block at `begin`, from `size` bytes on. -/
def blockSizeFrom (s : State) (begin : UInt32) : Nat → Nat → Nat
  | 0, size => size
  | fuel + 1, size =>
    let raw := s.read32 (begin + UInt32.ofNat size)
    let next := size + 4
    if writesPc raw || next / 4 ≥ maxBlockInstrs then next else blockSizeFrom s begin fuel next

/-- Blocks go up to the first instruction that may write the pc. -/
def blockSize (s : State) (begin : UInt32) : Nat := blockSizeFrom s begin maxBlockInstrs 0

/-- The addresses of the instructions in so many bytes. -/
def addresses (begin : UInt32) (size : Nat) : List UInt32 :=
  (List.range ((size + 3) / 4)).map fun n => begin + UInt32.ofNat (4 * n)

/-- Lift so many bytes. Every interpreted instruction leaves the pc at the next one. -/
def lift (s : State) (begin : UInt32) (size : Nat) : Build Unit := do
  (addresses begin size).forM fun addr => do
    Build.sourceInfo addr Op.cycles
    Build.fallback Routine.interpret.address addr (s.read32 addr)
  Build.branch (← Build.loadContext pc.offset .i32)

/-- The disassembly of so many bytes. -/
def listing (s : State) (begin : UInt32) (size : Nat) : String :=
  String.join ((addresses begin size).map fun addr =>
    "# " ++ disassembly addr (s.read32 addr) ++ "\n")

def cpu : Cpu Board where
  name := "armv3"
  offsets := offsets
  guest := guest
  fastMem _ := none
  interruptCheck s := .ok (State.interruptCheck s)
  step := step
  instrName raw := (decode raw).name
  blockSize s begin := .ok (blockSize s begin)
  lift s begin size _ := lift s begin size
  disassemble := listing

end Recompiler.Arm
