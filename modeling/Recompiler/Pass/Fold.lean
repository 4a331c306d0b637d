import Recompiler.IR.Fragment

/-!
Constant propagation. A rule applies to one operation at one combination of types and computes the
result from the constant operands.
-/
namespace Recompiler.Pass.Fold

open IR

/-- Operand bits, extended with zeros; a position that is not constant reads as zero. -/
structure Operands where
  bits : Vector UInt64 3 := Vector.replicate 3 0
  types : Vector (Option Ty) 3 := Vector.replicate 3 none

namespace Operands

/-- The operand extended with zeros. -/
def u (o : Operands) (n : Slot) : UInt64 := o.bits.get n

/-- The operand extended with its sign. -/
def s (o : Operands) (n : Slot) : Int64 :=
  let unused := UInt64.ofNat (64 - ((o.types.get n).map Ty.bits).getD 64)
  (o.u n <<< unused).toInt64 >>> unused.toInt64

end Operands

/-- What a rule yields: a constant of the result type, or one of the operands. -/
inductive Outcome where
  | bits (b : UInt64)
  | operand (n : Slot)

/-- A rule for one operation at one combination of types. -/
structure Rule where
  op : Opcode
  result : Ty
  arg0 : Ty
  arg1 : Option Ty
  /-- The positions that have to be constant. -/
  needs : List Slot
  apply : Operands → Outcome

namespace Rule

/-- The needed positions as a bit set. -/
def mask (r : Rule) : Nat := r.needs.foldl (fun m n => m ||| 1 <<< n.val) 0

def matchesTypes (r : Rule) (op : Opcode) (result arg0 arg1 : Option Ty) : Bool :=
  r.op == op && some r.result == result && some r.arg0 == arg0 && r.arg1 == arg1

end Rule

/-- A constant condition picks an arm; the arms may be anything. -/
def selects : List Rule :=
  Ty.ints.flatMap fun cond => (Ty.ints ++ Ty.floats).map fun ty =>
    ⟨.select, ty, cond, some ty, [0], fun o => .operand (if o.u 0 ≠ 0 then 1 else 2)⟩

def compares : List (Opcode × (Operands → Bool)) :=
  [(.cmpEq, fun o => o.u 0 == o.u 1),
   (.cmpNe, fun o => o.u 0 != o.u 1),
   (.cmpSge, fun o => o.s 0 ≥ o.s 1),
   (.cmpSgt, fun o => o.s 0 > o.s 1),
   (.cmpUge, fun o => o.u 0 ≥ o.u 1),
   (.cmpUgt, fun o => o.u 0 > o.u 1),
   (.cmpSle, fun o => o.s 0 ≤ o.s 1),
   (.cmpSlt, fun o => o.s 0 < o.s 1),
   (.cmpUle, fun o => o.u 0 ≤ o.u 1),
   (.cmpUlt, fun o => o.u 0 < o.u 1)]

def binaries : List (Opcode × (Operands → UInt64)) :=
  [(.add, fun o => o.u 0 + o.u 1),
   (.sub, fun o => o.u 0 - o.u 1),
   (.smul, fun o => (o.s 0 * o.s 1).toUInt64),
   (.umul, fun o => o.u 0 * o.u 1),
   (.and, fun o => o.u 0 &&& o.u 1),
   (.or, fun o => o.u 0 ||| o.u 1),
   (.xor, fun o => o.u 0 ^^^ o.u 1)]

/-- Shift amounts count modulo 64. -/
def shifts : List (Opcode × (Operands → UInt64)) :=
  [(.shl, fun o => o.u 0 <<< (o.u 1 &&& 63)),
   (.lshr, fun o => o.u 0 >>> (o.u 1 &&& 63)),
   (.ashr, fun o => (o.s 0 >>> (o.u 1 &&& 63).toInt64).toUInt64)]

/-- The rules of one integer type. -/
def integerRules (ty : Ty) : List Rule :=
  compares.map (fun (op, p) =>
    ⟨op, .i8, ty, some ty, [0, 1], fun o => .bits (p o).toUInt64⟩) ++
  binaries.map (fun (op, g) => ⟨op, ty, ty, some ty, [0, 1], fun o => .bits (g o)⟩) ++
  shifts.map (fun (op, g) => ⟨op, ty, ty, some .i32, [0, 1], fun o => .bits (g o)⟩) ++
  [⟨.not, ty, ty, none, [0], fun o => .bits (~~~o.u 0)⟩]

/-- Every rule. -/
def rules : List Rule := selects ++ Ty.ints.flatMap integerRules

/-- The rule for an operation at a combination of types. -/
def lookup? (op : Opcode) (result arg0 arg1 : Option Ty) : Option Rule :=
  rules.find? (·.matchesTypes op result arg0 arg1)

/-- The rule for an instruction. -/
def ruleFor? (f : Fragment) (i : InstrId) : Option Rule :=
  let ins := f.instr i
  lookup? ins.op (ins.result.map f.ty) ((ins.arg 0).map f.ty) ((ins.arg 1).map f.ty)

/-- The scalar bits of an argument that is constant. -/
def constantArg? (f : Fragment) (ins : Instr) (n : Slot) : Option UInt64 :=
  (ins.arg n).bind fun v =>
    (f.value v).constant?.map fun c => c.bits?.getD 0

/-- The operands of an instruction. -/
def operands (f : Fragment) (ins : Instr) : Operands where
  bits := Vector.ofFn fun n => (constantArg? f ins n).getD 0
  types := Vector.ofFn fun n => (ins.arg n).map f.ty

/-- The value that can stand for the result of `i`, made if it is a new constant. -/
def replacement? (f : Fragment) (i : InstrId) : Except Fault (Option (Fragment × ValueId)) :=
  let ins := f.instr i
  match ins.result, ruleFor? f i with
  | some result, some rule =>
    if rule.needs.all fun n => (constantArg? f ins n).isSome then
      match rule.apply (operands f ins) with
      | .bits b => some <$> f.addScalar (f.ty result) b
      | .operand n => .ok ((ins.arg n).map (f, ·))
    else .ok none
  | _, _ => .ok none

/-- Replace and remove one instruction if a rule applies. -/
def foldInstr (s : Fragment × Nat) (i : InstrId) : Except Fault (Fragment × Nat) := do
  match ← replacement? s.1 i with
  | none => return s
  | some (f, v) =>
    let result ← f.resultOf i
    let f ← if v = result then pure f else f.replaceUses result v
    return (← f.removeInstr i, s.2 + 1)

def foldBlock (s : Fragment × Nat) (b : BlockId) : Except Fault (Fragment × Nat) :=
  (s.1.blockInstrs b).foldlM foldInstr s

/-- Fold constants; returns how many instructions were folded. -/
def run (f : Fragment) : Except Fault (Fragment × Nat) := f.order.foldlM foldBlock (f, 0)

end Recompiler.Pass.Fold
