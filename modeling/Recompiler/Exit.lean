import Recompiler.IR.Fragment

/-! How control leaves a fragment. -/
namespace Recompiler

open IR

/-- The way out of a fragment; the guest pc has been written in both cases. -/
inductive Exit where
  /-- A branch to the constant target in this place of the list of exits. -/
  | static (slot : Nat)
  /-- A branch to a computed target. -/
  | dynamic
  deriving DecidableEq, Inhabited, Repr

namespace Exit

/-- The target of a branch. -/
def target? (ins : Instr) : Option ValueId :=
  match ins.op with
  | .branch => ins.arg 0
  | .branchTrue | .branchFalse => ins.arg 1
  | _ => none

/-- The guest address a branch leaves to, if it is constant. -/
def address? (f : Fragment) (i : InstrId) : Option UInt32 := do
  let v ← target? (f.instr i)
  match (f.value v).constant? with
  | some (.i32 addr) => some addr
  | _ => none

/-- The constant targets outside the fragment, in program order, each once. -/
def statics (f : Fragment) : List UInt32 :=
  (f.allInstrs.filterMap (address? f)).foldl
    (fun exits a => if exits.contains a then exits else exits ++ [a]) []

/-- The place of an address in the list of exits. -/
def slot (exits : List UInt32) (addr : UInt32) : Except Fault Nat :=
  match exits.idxOf? addr with
  | some n => .ok n
  | none => .error (.notStaticExit addr)

end Exit
end Recompiler
