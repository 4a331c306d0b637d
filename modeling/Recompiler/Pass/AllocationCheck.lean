import Std.Data.HashMap
import Recompiler.Pass.BlockTree
import Recompiler.Pass.Register

/-! A check that every argument is the value its register holds where it is read. -/
namespace Recompiler.Pass

open IR

/-- What an allocation gets wrong. -/
inductive AllocationError where
  | unallocated (op : Opcode) (slot : Nat)
  | clobbered (op : Opcode) (slot : Nat) (reg : String)
  deriving DecidableEq, Repr

/-- The class of an error, in one word. -/
def AllocationError.kind : AllocationError → String
  | unallocated .. => "Unallocated"
  | clobbered .. => "Clobbered"

def AllocationError.message : AllocationError → String
  | unallocated op slot => s!"argument {slot} of {op.name} has no register"
  | clobbered op slot reg =>
    s!"argument {slot} of {op.name} expected in {reg}, which holds another value"

namespace AllocationCheck

/-- Why a check ends early. -/
inductive Stop where
  | rejected (e : AllocationError)
  | fault (f : Fault)

/-- The value in each register. -/
abbrev Active := Array (Option ValueId)

/-- The argument is in its register. -/
def checkArg (f : Fragment) (regs : Array Register) (op : Opcode) (active : Active) (slot : Slot)
    (v : ValueId) : Except Stop Unit :=
  if f.isConstant v then .ok ()
  else
    match (f.value v).reg with
    | none => .error (.rejected (.unallocated op slot.val))
    | some reg =>
      match active[reg.toNat]?, regs[reg.toNat]? with
      | some holder, some r =>
        if holder = some v then .ok () else .error (.rejected (.clobbered op slot.val r.name))
      | _, _ => .error (.fault .outOfRange)

/-- Check the arguments of an instruction and record its result. -/
def checkInstr (f : Fragment) (regs : Array Register) (active : Active) (i : InstrId) :
    Except Stop Active := do
  let ins := f.instr i
  ins.operands.forM fun (slot, v) => checkArg f regs ins.op active slot v
  match ins.result.bind fun v => (f.value v).reg.map (v, ·) with
  | none => return active
  | some (v, reg) =>
    if reg.toNat < active.size then return active.setIfInBounds reg.toNat (some v)
    else throw (.fault .outOfRange)

/-- Check the blocks in visiting order, each from the end of its parent. -/
def checkAll (f : Fragment) (regs : Array Register) :
    Std.HashMap BlockId Active → List Visit → Except Stop Unit
  | _, [] => .ok ()
  | ends, v :: vs => do
    let start := (v.parent.bind fun p => ends[p]?).getD (Array.replicate regs.size none)
    let active ← (f.blockInstrs v.block).foldlM (checkInstr f regs) start
    checkAll f regs (ends.insert v.block active) vs

/-- The first thing wrong with the allocation of a fragment, if any. -/
def run (f : Fragment) (regs : Array Register) : Except Fault (Option AllocationError) :=
  match checkAll f regs {} (BlockTree.visits f) with
  | .ok () => .ok none
  | .error (.rejected e) => .ok (some e)
  | .error (.fault e) => .error e

end AllocationCheck
end Recompiler.Pass
