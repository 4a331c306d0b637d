import Recompiler.IR.ParseError

/-! Which argument and result types an operation accepts in text. -/
namespace Recompiler.IR.Signature

/-- A branch goes to a block or to a guest address. -/
def isTarget (ty : Ty) : Bool := ty == .i32 || ty == .blk

/-- Whether position `slot` of `op` accepts `ty`, given the types of all arguments. -/
def accepts (op : Opcode) (args : List Ty) (slot : Nat) (ty : Ty) : Bool :=
  match op.kind, slot with
  | .sourceInfo, _ => ty == .i32
  | .fallback, 0 => ty == .i64
  | .fallback, _ => ty == .i32
  | .call, _ => ty == .i64
  | .loadHost, 0 | .storeHost, 0 => ty == .i64
  | .loadGuest, 0 | .storeGuest, 0 => ty == .i32
  | .loadContext, 0 | .storeContext, 0 | .loadLocal, 0 | .storeLocal, 0 => ty == .i32
  | .storeGuest, 1 => ty.isInt
  | .storeHost, 1 | .storeContext, 1 | .storeLocal, 1 => ty.isData
  | .select, 0 => ty.isInt
  | .select, 1 => ty.isData
  | .select, 2 => args[1]? == some ty
  | .convert, 0 =>
    match op with
    | .ftoi | .fext | .ftrunc => ty.isFloat
    | _ => ty.isInt
  | .floatUnary, 0 | .floatBinary, 0 | .floatCompare, 0 => ty.isFloat
  | .intUnary, 0 | .intBinary, 0 | .compare, 0 => ty.isInt
  | .floatBinary, 1 | .floatCompare, 1 | .intBinary, 1 | .compare, 1 => args[0]? == some ty
  | .shift, _ | .shiftSigned, _ => ty.isInt
  | .branch, 0 | .branchIf, 1 => isTarget ty
  | .branchIf, 0 => ty.isInt
  | _, _ => false

/-- A call may leave out trailing arguments; every other operation takes all of them. -/
def arityOk (op : Opcode) (n : Nat) : Bool :=
  if op == .call then 1 ≤ n && n ≤ op.info.arity else n == op.info.arity

/-- The first position from `slot` on whose type is not accepted. -/
def firstBad? (op : Opcode) (args : List Ty) : Nat → List Ty → Option (Nat × Ty)
  | _, [] => none
  | slot, ty :: tys => if accepts op args slot ty then firstBad? op args (slot + 1) tys
    else some (slot, ty)

/-- Check number of arguments, presence of a result and argument types, in this order. -/
def check (line : Nat) (op : Opcode) (result : Option Ty) (args : List Ty) :
    Except ParseError Unit :=
  if !arityOk op args.length then .error (.arity line op args.length)
  else if op.hasResult && result.isNone then .error (.missingResult line op)
  else if !op.hasResult && result.isSome then .error (.extraResult line op)
  else
    match firstBad? op args 0 args with
    | some (slot, ty) => .error (.operandType line op slot ty)
    | none => .ok ()

end Recompiler.IR.Signature
