import Recompiler.Index
import Recompiler.Ram

/-! The registers of an ARMv3 core with flat memory. -/
namespace Recompiler.Arm

/-- A word of the context. Register 15 holds the address of the next instruction. -/
inductive Field where
  | r (n : Fin 16)
  | cpsr | spsr
  /-- Bit 0 is the interrupt line. -/
  | pending
  | cycles | instrs
  deriving DecidableEq, Repr

namespace Field

/-- Number of the word in the context. -/
def index : Field → Nat
  | r n => n
  | cpsr => 16
  | spsr => 17
  | pending => 18
  | cycles => 19
  | instrs => 20

/-- The byte offset of the word. -/
def offset (f : Field) : Nat := 4 * f.index

def name : Field → String
  | r n => s!"r{n}"
  | cpsr => "cpsr"
  | spsr => "spsr"
  | pending => "pending"
  | cycles => "cycles"
  | instrs => "instrs"

/-- Every word, in the order of the context. -/
def all : List Field := (List.finRange 16).map r ++ [cpsr, spsr, pending, cycles, instrs]

end Field

def pc : Field := .r 15

def offsets : Offsets where
  pc := pc.offset
  cycles := Field.cycles.offset
  instrs := Field.instrs.offset
  interrupts := Field.pending.offset

/-! Bits of the status register. -/

def flagN : UInt32 := 0x80000000
def flagZ : UInt32 := 0x40000000
def flagC : UInt32 := 0x20000000
def flagV : UInt32 := 0x10000000

/-- Interrupts are disabled. -/
def flagI : UInt32 := 0x80

/-- Fast interrupts are disabled. -/
def flagF : UInt32 := 0x40

def modeMask : UInt32 := 0x1f
def modeUser : UInt32 := 0x10
def modeInterrupt : UInt32 := 0x12
def modeSupervisor : UInt32 := 0x13
def modeUndefined : UInt32 := 0x1b

/-! Exception vectors. -/

def vectorUndefined : UInt32 := 0x04
def vectorSoftware : UInt32 := 0x08
def vectorInterrupt : UInt32 := 0x18

/-- What the core has besides its context. -/
structure Board where
  ram : Ram

abbrev State := World Board

namespace State

def get (s : State) (f : Field) : UInt32 := s.get32 f.offset
def set (s : State) (f : Field) (v : UInt32) : State := s.set32 f.offset v

/-- Reset state: supervisor mode, interrupts disabled, a memory of zeros. -/
def reset (ramSize : Nat) : Except Fault State := do
  let s : State :=
    { ctx := Array.replicate (4 * Field.all.length) 0, rest := { ram := ← Ram.ofSize ramSize } }
  return s.set .cpsr (modeSupervisor ||| flagI ||| flagF)

def mode (s : State) : UInt32 := s.get .cpsr &&& modeMask

def flag (s : State) (bit : UInt32) : Bool := s.get .cpsr &&& bit ≠ 0

def setFlag (s : State) (bit : UInt32) (on : Bool) : State :=
  s.set .cpsr (if on then s.get .cpsr ||| bit else s.get .cpsr &&& ~~~bit)

/-- Set the sign and zero flags from a result. -/
def setNz (s : State) (v : UInt32) : State :=
  (s.setFlag flagN (v >>> 31 != 0)).setFlag flagZ (v == 0)

/-- Enter a mode through a vector; the return address goes to r14. -/
def enterException (s : State) (mode vector ret : UInt32) : State :=
  let s := s.set .spsr (s.get .cpsr)
  let s := s.set .cpsr ((s.get .cpsr &&& ~~~modeMask) ||| mode ||| flagI)
  let s := s.set (.r 14) ret
  s.set pc vector

def read (s : State) (w : Width) (addr : UInt32) : UInt64 := s.rest.ram.read addr w.bytes

def write (s : State) (w : Width) (addr : UInt32) (v : UInt64) : State :=
  { s with rest := { s.rest with ram := s.rest.ram.write addr w.bytes v } }

def read32 (s : State) (addr : UInt32) : UInt32 := (s.read .w32 addr).toUInt32
def write32 (s : State) (addr v : UInt32) : State := s.write .w32 addr v.toUInt64

/-- Raise the interrupt line. -/
def raise (s : State) : State := s.set .pending (s.get .pending ||| 1)

/-- Deliver the interrupt unless it is disabled. -/
def interruptCheck (s : State) : State :=
  if s.get .pending &&& 1 = 0 || s.flag flagI then s
  else
    let s := s.set .pending (s.get .pending &&& ~~~1)
    s.enterException modeInterrupt vectorInterrupt (s.get pc + 4)

end State
end Recompiler.Arm
