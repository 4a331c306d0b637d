import Recompiler.Ram
import Recompiler.Sh4.Context

/-! An SH4 with flat memory and an interrupt controller. -/
namespace Recompiler.Sh4

/-- What an SH4 has besides its context. -/
structure Board where
  ram : Ram
  /-- Interrupts delivered so far. -/
  taken : UInt32 := 0
  /-- Priority from 0 to 15 of each interrupt line. -/
  priorities : Vector UInt8 32 := Vector.replicate 32 15

abbrev State := World Board

namespace State

/-- Power-on state with a memory of zeros. -/
def reset (ramSize : Nat) : Except Fault State := do
  return { ctx := Context.reset, rest := { ram := ← Ram.ofSize ramSize } }

def get (s : State) (f : Field) : UInt32 := Context.get s.ctx f
def set (s : State) (f : Field) (v : UInt32) : State := { s with ctx := Context.set s.ctx f v }
def modify (s : State) (g : Context → Context) : State := { s with ctx := g s.ctx }

def read (s : State) (w : Width) (addr : UInt32) : UInt64 := s.rest.ram.read addr w.bytes

def write (s : State) (w : Width) (addr : UInt32) (v : UInt64) : State :=
  { s with rest := { s.rest with ram := s.rest.ram.write addr w.bytes v } }

/-- The instruction word at an address. -/
def fetch (s : State) (addr : UInt32) : UInt32 := (s.read .w16 addr).toUInt32

/-! ### Interrupts -/

/-- Raise an interrupt line. -/
def raise (s : State) (line : UInt32) : Except Fault State :=
  if line < 32 then .ok (s.set .pending (s.get .pending ||| (1 <<< line))) else .error .overflow

/-- Give a line a priority; 15 is the highest. -/
def setPriority (s : State) (line : Nat) (level : UInt8) : Except Fault State :=
  if h : line < 32 then
    let priorities := s.rest.priorities.set line (min level 15)
    .ok { s with rest := { s.rest with priorities } }
  else .error .outOfRange

/-- Whether a line is pending and above the mask level. -/
def isAccepted (s : State) (line : Fin 32) : Bool :=
  let level := ((s.get .sr &&& srImask) >>> 4).toUInt8
  (s.get .pending >>> UInt32.ofNat line) &&& 1 = 1 && level < s.rest.priorities[line]

/-- Of two lines the more urgent one; the first wins a tie. -/
def moreUrgent (s : State) (best : Option (Fin 32)) (line : Fin 32) : Option (Fin 32) :=
  match best with
  | some b => if s.rest.priorities[b] < s.rest.priorities[line] then some line else some b
  | none => some line

/-- The most urgent line that the status register lets through, the lowest among equals. -/
def acceptedLine? (s : State) : Option (Fin 32) :=
  if s.get .sr &&& srBl ≠ 0 then none
  else ((List.finRange 32).filter s.isAccepted).foldl s.moreUrgent none

/-- Take a line: it is no longer pending, control goes to the vector, and it is counted. -/
def deliver (s : State) (line : Fin 32) : State :=
  let n := UInt32.ofNat line
  let s := s.set .pending (s.get .pending &&& ~~~(1 <<< n))
  let s := s.set .intevt (intevtBase + n * 0x20)
  let s := s.modify fun c => Context.enterException c (Context.get c .pc) vectorInterrupt
  { s with rest := { s.rest with taken := s.rest.taken + 1 } }

/-- Deliver the most urgent line. The count of deliveries must not wrap around. -/
def interruptCheck (s : State) : Except Fault State :=
  match s.acceptedLine? with
  | none => .ok s
  | some line =>
    if s.rest.taken.toNat + 1 < UInt32.size then .ok (s.deliver line) else .error .overflow

end State
end Recompiler.Sh4
