import Recompiler.IR.Fragment

/-!
Typed construction of instructions. Every method checks its operand types before it emits, and a
broken rule is a fault.
-/
namespace Recompiler.IR

/-- A computation that extends a fragment. -/
abbrev Build := StateT Fragment (Except Fault)

namespace Build

/-- Run an operation of the fragment that cannot fault. -/
def extend {α : Type} (g : Fragment → Fragment × α) : Build α := fun f =>
  let (f, a) := g f
  .ok (a, f)

/-- Change the fragment. -/
def update (g : Fragment → Fragment) : Build Unit := fun f => .ok ((), g f)

/-- Fault unless the rule holds. -/
def check (rule : Bool) (fault : Fault) : Build Unit := fun f =>
  if rule then .ok ((), f) else .error fault

/-- The type of a value. -/
def tyOf (v : ValueId) : Build Ty := fun f => .ok (f.ty v, f)

/-! ### Constants -/

def constant (c : Constant) : Build ValueId := extend (·.addConstant c)
def i8 (bits : UInt8) : Build ValueId := constant (.i8 bits)
def i16 (bits : UInt16) : Build ValueId := constant (.i16 bits)
def i32 (bits : UInt32) : Build ValueId := constant (.i32 bits)
def i64 (bits : UInt64) : Build ValueId := constant (.i64 bits)
def f32 (bits : UInt32) : Build ValueId := constant (.f32 bits)
def f64 (bits : UInt64) : Build ValueId := constant (.f64 bits)
def str (s : String) : Build ValueId := constant (.str s)
def blk (b : BlockId) : Build ValueId := constant (.blk b)

/-- A scalar constant of type `ty` from raw bits. -/
def scalar (ty : Ty) (bits : UInt64) : Build ValueId := fun f => do
  let (f, v) ← f.addScalar ty bits
  return (v, f)

/-- A signed 32-bit constant. -/
def int32 (n : Int) : Build ValueId := i32 (Int32.ofInt n).toUInt32

/-! ### Emission -/

/-- Append an instruction with these arguments. -/
def emit (op : Opcode) (ty : Option Ty) (args : List ValueId) : Build InstrId := do
  let i ← extend (·.appendInstr op ty)
  update (·.setArgs i args)
  return i

/-- Append an instruction without a result. -/
def emitEffect (op : Opcode) (args : List ValueId) : Build Unit := do
  let _ ← emit op none args

/-- Append an instruction and return its result. -/
def emitValue (op : Opcode) (ty : Ty) (args : List ValueId) : Build ValueId := do
  let i ← emit op (some ty) args
  let f ← get
  f.resultOf i

/-! ### Meta -/

/-- Address and cost of the guest instruction whose code follows. -/
def sourceInfo (addr cycles : UInt32) : Build Unit := do
  emitEffect .sourceInfo [← i32 addr, ← i32 cycles]

/-- Interpret one guest instruction by a host routine. -/
def fallback (routine : UInt64) (addr raw : UInt32) : Build Unit := do
  emitEffect .fallback [← i64 routine, ← i32 addr, ← i32 raw]

/-! ### Memory -/

def loadHost (addr : ValueId) (ty : Ty) : Build ValueId := do
  check ((← tyOf addr) == .i64) .hostAddress
  emitValue .loadHost ty [addr]

def storeHost (addr v : ValueId) : Build Unit := do
  check ((← tyOf addr) == .i64) .hostAddress
  emitEffect .storeHost [addr, v]

def loadGuest (addr : ValueId) (ty : Ty) : Build ValueId := do
  check ((← tyOf addr) == .i32) .guestAddress
  check ty.isInt .guestLoadType
  emitValue .loadGuest ty [addr]

def storeGuest (addr v : ValueId) : Build Unit := do
  check ((← tyOf addr) == .i32) .guestAddress
  check (← tyOf v).isInt .guestStoreType
  emitEffect .storeGuest [addr, v]

def loadContext (offset : Int) (ty : Ty) : Build ValueId := do
  emitValue .loadContext ty [← int32 offset]

def storeContext (offset : Int) (v : ValueId) : Build Unit := do
  emitEffect .storeContext [← int32 offset, v]

/-- A new local slot. -/
def allocLocal (ty : Ty) : Build LocalId := fun f => do
  let (f, l) ← f.allocLocal ty
  return (l, f)

def loadLocal (l : LocalId) : Build ValueId := do
  let slot := (← get).localSlot l
  emitValue .loadLocal slot.ty [← int32 slot.offset]

def storeLocal (l : LocalId) (v : ValueId) : Build Unit := do
  let slot := (← get).localSlot l
  check (slot.ty == (← tyOf v)) .localType
  emitEffect .storeLocal [← int32 slot.offset, v]

/-! ### Conversion and choice -/

/-- Operand and result types that a conversion connects. -/
def converts (op : Opcode) (src dst : Ty) : Bool :=
  match op with
  | .ftoi => src.isFloat && dst.isInt
  | .itof => src.isInt && dst.isFloat
  | .fext => src == .f32 && dst == .f64
  | .ftrunc => src == .f64 && dst == .f32
  | _ => src.isInt && dst.isInt

def convert (op : Opcode) (v : ValueId) (ty : Ty) : Build ValueId := do
  check (converts op (← tyOf v) ty) .assertion
  emitValue op ty [v]

def sext (v : ValueId) (ty : Ty) : Build ValueId := convert .sext v ty
def zext (v : ValueId) (ty : Ty) : Build ValueId := convert .zext v ty
def trunc (v : ValueId) (ty : Ty) : Build ValueId := convert .trunc v ty

/-- `a` if the condition is not zero, `b` otherwise. -/
def select (cond a b : ValueId) : Build ValueId := do
  check (← tyOf cond).isInt .selectCondition
  let ty ← tyOf a
  check (ty == (← tyOf b)) (.operandTypes .select)
  emitValue .select ty [cond, a, b]

/-! ### Arithmetic -/

def intBinary (op : Opcode) (a b : ValueId) : Build ValueId := do
  let ty ← tyOf a
  check ty.isInt (.integerOperands op)
  check (ty == (← tyOf b)) (.operandTypes op)
  emitValue op ty [a, b]

def floatBinary (op : Opcode) (a b : ValueId) : Build ValueId := do
  let ty ← tyOf a
  check ty.isFloat (.floatOperands op)
  check (ty == (← tyOf b)) (.operandTypes op)
  emitValue op ty [a, b]

def intUnary (op : Opcode) (a : ValueId) : Build ValueId := do
  let ty ← tyOf a
  check ty.isInt .assertion
  emitValue op ty [a]

def floatUnary (op : Opcode) (a : ValueId) : Build ValueId := do
  let ty ← tyOf a
  check ty.isFloat .assertion
  emitValue op ty [a]

/-- Integer comparison; the result is 0 or 1. -/
def compare (op : Opcode) (a b : ValueId) : Build ValueId := do
  check (← tyOf a).isInt (.integers op)
  check ((← tyOf a) == (← tyOf b)) (.operandTypes op)
  emitValue op .i8 [a, b]

/-- Float comparison; the result is 0 or 1. -/
def floatCompare (op : Opcode) (a b : ValueId) : Build ValueId := do
  check (← tyOf a).isFloat (.floats op)
  check ((← tyOf a) == (← tyOf b)) (.operandTypes op)
  emitValue op .i8 [a, b]

def shift (op : Opcode) (a n : ValueId) : Build ValueId := do
  let ty ← tyOf a
  check ty.isInt (.integerOperand op)
  check (← tyOf n).isInt (.shiftAmount op)
  emitValue op ty [a, n]

/-- Shift by a constant. -/
def shiftBy (op : Opcode) (a : ValueId) (n : UInt32) : Build ValueId := do
  shift op a (← i32 n)

/-- Shift left by a positive amount, right by a negative one. -/
def shiftSigned (op : Opcode) (a n : ValueId) : Build ValueId := do
  check ((← tyOf a) == .i32) .assertion
  shift op a n

def add (a b : ValueId) : Build ValueId := intBinary .add a b
def sub (a b : ValueId) : Build ValueId := intBinary .sub a b
def and (a b : ValueId) : Build ValueId := intBinary .and a b
def or (a b : ValueId) : Build ValueId := intBinary .or a b
def xor (a b : ValueId) : Build ValueId := intBinary .xor a b
def not (a : ValueId) : Build ValueId := intUnary .not a

/-! ### Control -/

def checkTarget (dst : ValueId) : Build Unit := do
  let ty ← tyOf dst
  check (ty == .blk || ty == .i32) (.branchTarget ty)

/-- Record the edge of a branch from the current block to a block reference. -/
def addBranchEdge (dst : ValueId) : Build Unit := do
  let f ← get
  if f.ty dst == .blk then
    let target ← (f.value dst).block
    if let some src := f.point.block then
      update (·.addEdge src target)

/-- Go to a block of the fragment, or leave it for a guest address. -/
def branch (dst : ValueId) : Build Unit := do
  checkTarget dst
  emitEffect .branch [dst]
  addBranchEdge dst

/-- Branch on whether a condition is zero. -/
def branchIf (op : Opcode) (cond dst : ValueId) : Build Unit := do
  check (← tyOf cond).isInt .branchCondition
  checkTarget dst
  emitEffect op [cond, dst]
  addBranchEdge dst

/-- Fill a position with a 64-bit argument of a call. -/
def callArg (i : InstrId) (n : Slot) : Option ValueId → Build Unit
  | none => return ()
  | some v => do
    check ((← tyOf v) == .i64) .callArgument
    update (·.setArg i n v)

/-- Call a host routine with up to two 64-bit arguments. -/
def call (routine : UInt64) (a b : Option ValueId) : Build Unit := do
  let i ← emit .call none [← i64 routine]
  callArg i 1 a
  callArg i 2 b

/-! ### By opcode -/

/-- Append the instruction of an opcode whose operands are all values, as many of them as it takes.
`ty` is the type of the result where the operands leave it open. Opcodes with other operands append
nothing. -/
def ofOpcode (op : Opcode) (ty : Ty) (a b c : ValueId) : Build (Option ValueId) :=
  match op.kind with
  | .loadHost => some <$> loadHost a ty
  | .loadGuest => some <$> loadGuest a ty
  | .convert => some <$> convert op a ty
  | .select => some <$> select a b c
  | .compare => some <$> compare op a b
  | .floatCompare => some <$> floatCompare op a b
  | .intBinary => some <$> intBinary op a b
  | .intUnary => some <$> intUnary op a
  | .floatBinary => some <$> floatBinary op a b
  | .floatUnary => some <$> floatUnary op a
  | .shift => some <$> shift op a b
  | .shiftSigned => some <$> shiftSigned op a b
  | .storeHost => storeHost a b *> pure none
  | .storeGuest => storeGuest a b *> pure none
  | .branch => branch a *> pure none
  | .branchIf => branchIf op a b *> pure none
  | _ => pure none

end Build
end Recompiler.IR
