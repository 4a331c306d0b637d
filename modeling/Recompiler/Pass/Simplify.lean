import Recompiler.IR.Fragment

/-! Algebraic identities with a zero on the right. Instructions are bypassed here, not removed. -/
namespace Recompiler.Pass.Simplify

open IR

/-- What an operation yields when its right operand is zero. -/
inductive Identity where
  /-- `x op 0 = 0` -/
  | zero
  /-- `x op 0 = x` -/
  | left

def identity? : Opcode → Option Identity
  | .and | .smul | .umul => some .zero
  | .add | .sub | .or | .xor | .shl | .ashr | .lshr => some .left
  | _ => none

/-- The right operand is the integer zero. -/
def isZero (f : Fragment) (v : ValueId) : Bool :=
  ((f.value v).constant?.bind Constant.zext?) == some 0

/-- The value that can stand for the result of `i`, made if it is a new constant. -/
def replacement? (f : Fragment) (i : InstrId) : Except Fault (Option (Fragment × ValueId)) :=
  let ins := f.instr i
  match ins.result, ins.arg 0, ins.arg 1 with
  | some result, some lhs, some rhs =>
    if isZero f rhs then
      match identity? ins.op with
      | some .zero => some <$> f.addScalar (f.ty result) 0
      | some .left => .ok (if f.ty lhs = f.ty result then some (f, lhs) else none)
      | none => .ok none
    else .ok none
  | _, _, _ => .ok none

/-- Bypass one instruction if an identity applies and its result is used. -/
def bypass (s : Fragment × Nat) (i : InstrId) : Except Fault (Fragment × Nat) := do
  match ← replacement? s.1 i with
  | none => return s
  | some (f, v) =>
    let result ← f.resultOf i
    if (f.value result).uses.isEmpty then return (f, s.2)
    else return (← f.replaceUses result v, s.2 + 1)

/-- Apply the identities; returns how many instructions were bypassed. -/
def run (f : Fragment) : Except Fault (Fragment × Nat) := f.allInstrs.foldlM bypass (f, 0)

end Recompiler.Pass.Simplify
