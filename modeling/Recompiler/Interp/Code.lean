import Recompiler.Assembling
import Recompiler.Exit
import Recompiler.Pass.Register

/-!
Register code: a flat list of operations whose operands are registers, immediates and positions in
the list.
-/
namespace Recompiler.Interp

open IR Pass

/-- The default registers: eight for integers and eight for floats. -/
def registers : Array Register :=
  ((List.range 8).map (fun n => Register.mk s!"r{n}" Ty.ints) ++
    (List.range 8).map (fun n => Register.mk s!"f{n}" Ty.floats)).toArray

inductive Operand where
  | none
  | reg (r : UInt8)
  | imm (bits : UInt64)
  /-- A position in the code. -/
  | label (pos : Nat)
  deriving DecidableEq, Inhabited, Repr

/-- The type of an argument; an empty position counts as a full word. -/
def argTy (f : Fragment) (ins : Instr) (n : Slot) : Ty :=
  match ins.arg n with
  | some v => f.ty v
  | none => .i64

/-- The type an instruction works at: that of its result, or else of its second argument. -/
def opTy (f : Fragment) (ins : Instr) : Ty :=
  match ins.result with
  | some v => f.ty v
  | none => argTy f ins 1

/-- One operation. -/
structure Op where
  op : Opcode
  /-- The result type, or the type of the second argument if there is no result. -/
  ty : Ty
  argTys : Vector Ty 3
  args : Vector Operand 3
  result : Option UInt8
  deriving Inhabited, Repr

/-- The code of one fragment. -/
structure Code where
  guestAddr : UInt32
  ops : Array Op
  localsSize : Nat
  exits : List UInt32
  deriving Inhabited, Repr

namespace Code

/-- The position of the first operation of each block, from `pos` on. -/
def starts (f : Fragment) : Nat → List BlockId → List (BlockId × Nat)
  | _, [] => []
  | pos, b :: bs => (b, pos) :: starts f (pos + (f.blockInstrs b).length) bs

/-- An argument as an operand. -/
def operand (f : Fragment) (positions : List (BlockId × Nat)) (v : ValueId) :
    Assembling Operand :=
  let val := f.value v
  match val.origin with
  | .constant (.str _) => .unsupported "string operand" .str
  | .constant (.blk b) => .ok (.label ((positions.lookup b).getD 0))
  | .constant c => .ok (.imm (c.bits?.getD 0))
  | .result _ =>
    match val.reg with
    | some r => .ok (.reg r)
    | none => .fault .unallocated

/-- An argument position as an operand; an empty one is none. -/
def lowerArg (f : Fragment) (positions : List (BlockId × Nat)) :
    Option ValueId → Assembling Operand
  | none => .ok .none
  | some v => operand f positions v

/-- Lower one instruction. -/
def lowerInstr (f : Fragment) (positions : List (BlockId × Nat)) (i : InstrId) : Assembling Op := do
  let ins := f.instr i
  let a ← lowerArg f positions (ins.arg 0)
  let b ← lowerArg f positions (ins.arg 1)
  let c ← lowerArg f positions (ins.arg 2)
  let argTys := #v[argTy f ins 0, argTy f ins 1, argTy f ins 2]
  if (opTy f ins).isVector || argTys.any (·.isVector) then
    Assembling.unsupported ins.op.name .v128
  else
    return {
      op := ins.op
      ty := opTy f ins
      argTys
      args := #v[a, b, c]
      result := ins.result.bind fun v => (f.value v).reg }

/-- Lower a fragment. -/
def ofFragment (guestAddr : UInt32) (f : Fragment) : Assembling Code := do
  let ops ← f.allInstrs.mapM (lowerInstr f (starts f 0 f.order))
  return {
    guestAddr, ops := ops.toArray, localsSize := f.localsSize.toNat, exits := Exit.statics f }

/-! ### Listing -/

def registerName (regs : Array Register) (r : UInt8) : String := (regs.getD r.toNat default).name

def operandText (regs : Array Register) : Operand → String
  | .none => ""
  | .reg r => " " ++ registerName regs r
  | .imm bits => " " ++ Text.hex bits.toNat
  | .label pos => s!" @{pos}"

def opText (regs : Array Register) (op : Op) : String :=
  let result := match op.result with
    | some r => registerName regs r ++ " = "
    | none => ""
  result ++ op.op.name ++ "." ++ op.ty.name ++ String.join (op.args.toList.map (operandText regs))

/-- The code as a numbered list. -/
def listing (c : Code) (regs : Array Register) : String :=
  String.join (c.ops.toList.zipIdx.map fun (op, n) =>
    Text.padLeft ' ' 4 (toString n) ++ ": " ++ opText regs op ++ "\n")

end Code
end Recompiler.Interp
