import Recompiler.Cpu
import Recompiler.Sh4.Interpret
import Recompiler.Sh4.Lift

/-! The SH4 as a guest processor. -/
namespace Recompiler.Sh4

open Recompiler.Lift (Routine)

/-- Routines that lifted code calls. -/
def guest : Guest Board where
  read w addr s := (State.read s w addr, s)
  write w addr v s := State.write s w addr v
  fallback _ addr raw s := interpret (decode raw) addr raw s
  call routine old _ s :=
    if routine = Routine.statusChanged.address then
      State.modify s fun c => Context.srUpdated c old.toUInt32
    else State.modify s fun c => Context.fpscrUpdated c old.toUInt32
  readHost addr w s := s.rest.ram.readHost addr w
  writeHost addr w v s := { s with rest := { s.rest with ram := s.rest.ram.writeHost addr w v } }

def cpu : Cpu Board where
  name := "sh4"
  offsets := offsets
  guest := guest
  fastMem s := some s.rest.ram.fastMem
  interruptCheck := State.interruptCheck
  step := step
  instrName raw := (decode raw).info.name
  blockSize := blockSize
  lift s begin size fast := lift (if fast then some s.rest.ram.fastMem else none) s begin size
  disassemble := listing

end Recompiler.Sh4
