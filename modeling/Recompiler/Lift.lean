import Recompiler.Guest
import Recompiler.IR.Builder

/-! Guest memory accesses in fragments. -/
namespace Recompiler.Lift

open IR

/-- Host routines that fragments name. They lie far above the 32-bit range. -/
inductive Routine where
  /-- Interpret one instruction. -/
  | interpret
  /-- Follow a change of the status register. -/
  | statusChanged
  /-- Follow a change of the float status register. -/
  | floatStatusChanged
  deriving DecidableEq, Repr

def Routine.address : Routine → UInt64
  | interpret => 0x7a3000000000
  | statusChanged => 0x7a2000000000
  | floatStatusChanged => 0x7a2000001000

/-- The host address of a guest address: it is masked and aligned down to the access size, so that
the access stays inside the memory. -/
def hostAddress (mem : FastMem) (addr : ValueId) (ty : Ty) : Build ValueId := do
  let mask ← Build.i32 (mem.mask &&& ~~~(UInt32.ofNat ty.bytes - 1))
  let offset ← Build.and addr mask
  let offset ← Build.zext offset .i64
  let base ← Build.i64 mem.base
  Build.add base offset

/-- Read guest memory, directly if it is mapped. -/
def loadMem (mem : Option FastMem) (addr : ValueId) (ty : Ty) : Build ValueId :=
  match mem with
  | some m => do Build.loadHost (← hostAddress m addr ty) ty
  | none => Build.loadGuest addr ty

/-- Write guest memory, directly if it is mapped. -/
def storeMem (mem : Option FastMem) (addr v : ValueId) : Build Unit :=
  match mem with
  | some m => do Build.storeHost (← hostAddress m addr (← Build.tyOf v)) v
  | none => Build.storeGuest addr v

end Recompiler.Lift
