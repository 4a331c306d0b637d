import Recompiler.IR.Fragment

/-! Removal of instructions whose result nobody uses. -/
namespace Recompiler.Pass.DeadCode

open IR

/-- An instruction is dead if it only computes a result and the result is unused. -/
def isDead (f : Fragment) (i : InstrId) : Bool :=
  let ins := f.instr i
  !ins.op.hasSideEffects && ins.result.any fun v => (f.value v).uses.isEmpty

/-- Remove one instruction if it is dead, counting it. -/
def sweepInstr (s : Fragment × Nat) (i : InstrId) : Except Fault (Fragment × Nat) :=
  if isDead s.1 i then do return (← s.1.removeInstr i, s.2 + 1) else .ok s

/-- Remove the dead instructions of a block. Going backward, a value that only feeds dead
instructions is dead when it is reached. -/
def sweepBlock (s : Fragment × Nat) (b : BlockId) : Except Fault (Fragment × Nat) :=
  (s.1.blockInstrsBackward b).foldlM sweepInstr s

/-- Remove dead instructions; returns how many. -/
def run (f : Fragment) : Except Fault (Fragment × Nat) := f.order.foldlM sweepBlock (f, 0)

end Recompiler.Pass.DeadCode
