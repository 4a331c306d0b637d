import Recompiler.Fault
import Recompiler.X64.Register

/-! The stack frame of a block: local slots, then the save area for SSE registers. -/
namespace Recompiler.X64

structure Frame where
  /-- Where the save area starts. -/
  xmmSave : Int
  /-- Bytes below the pushed registers. -/
  size : Int
  deriving DecidableEq, Repr

namespace Frame

def stackAlign : Int := 16

/-- The return address and the saved registers. -/
def pushed : Int := (1 + calleeSaved.length) * 8

/-- The least multiple of the alignment that is at least `n`, by way of a number behind it. -/
def align (n : Int) : Except Fault Int := do
  let n ← checked32 (n + stackAlign)
  return (n - 1) / stackAlign * stackAlign

/-- The frame for a local area. The stack stays aligned at calls. All sizes are 32-bit numbers. -/
def ofLocals (localsSize : Int) : Except Fault Frame := do
  let xmmSave ← align (max localsSize 0)
  let size ← align (← checked32 (xmmSave + savedXmms.length * 8))
  let whole ← checked32 (pushed + size)
  if whole % stackAlign = 0 then return { xmmSave, size }
  else return { xmmSave, size := ← checked32 (size + 8) }

end Frame
end Recompiler.X64
