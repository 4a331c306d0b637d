import Recompiler.Assembling
import Recompiler.Exit
import Recompiler.Guest
import Recompiler.X64.Assembly
import Recompiler.X64.Frame
import Recompiler.X64.Thunk

/-!
Selection of instructions. Every operation loads its operands into scratch registers, computes
there and moves the result into the register chosen by allocation. Integers are kept extended with
zeros to 64 bits, floats in the low lane of an SSE register.
-/
namespace Recompiler.X64

open IR

/-- Where an operand comes from. -/
inductive Source where
  | reg (r : HostReg)
  | imm (bits : UInt64)
  deriving DecidableEq, Inhabited, Repr

/-- What selection needs to know about the whole fragment. -/
structure Lowering where
  fragment : Fragment
  offsets : Offsets
  frame : Frame
  exits : List UInt32
  /-- Whether SSE registers have to be saved around calls. -/
  saveXmms : Bool

/-- The number a block returns when it leaves to a computed target. -/
def dynamicExit : UInt32 := 0xffffffff

/-- A displacement or offset. -/
def offset32 (n : Int) : Int32 := Int32.ofInt n

/-- Move between registers unless they are the same. -/
def loadSource (dst : Gpr) : Source → Assembly
  | .imm bits => [.instr (.movImm dst bits)]
  | .reg (.gpr r) => if r = dst then [] else [.instr (.mov true dst r)]
  | .reg (.xmm x) => [.instr (.movqFromXmm dst x)]

/-- Load a float. A constant goes through the first scratch register. -/
def loadXmmSource (dst : Xmm) : Source → Assembly
  | .imm bits => [.instr (.movImm tmp0 bits), .instr (.movqToXmm dst tmp0)]
  | .reg (.xmm x) => if x = dst then [] else [.instr (.sse .movaps dst x)]
  | .reg (.gpr r) => [.instr (.movqToXmm dst r)]

/-- Extend the low bits of a register with zeros. -/
def zeroExtend (ty : Ty) (reg : Gpr) : Assembly :=
  match ty with
  | .i8 => [.instr (.extend .movzbl reg reg)]
  | .i16 => [.instr (.extend .movzwl reg reg)]
  | .i32 | .f32 => [.instr (.mov false reg reg)]
  | _ => []

/-- Extend the low bits of a register with their sign. -/
def signExtend (ty : Ty) (reg : Gpr) : Assembly :=
  match ty with
  | .i8 => [.instr (.extend .movsbq reg reg)]
  | .i16 => [.instr (.extend .movswq reg reg)]
  | .i32 => [.instr (.extend .movslq reg reg)]
  | _ => []

/-- Condition and signedness of an integer comparison. -/
def conditionOf : Opcode → Cond × Bool
  | .cmpEq => (.e, false)
  | .cmpNe => (.ne, false)
  | .cmpSge => (.ge, true)
  | .cmpSgt => (.g, true)
  | .cmpUge => (.ae, false)
  | .cmpUgt => (.a, false)
  | .cmpSle => (.le, true)
  | .cmpSlt => (.l, true)
  | .cmpUle => (.be, false)
  | _ => (.b, false)

namespace Lowering

/-- A fragment whose local area is too large for a frame faults. -/
def ofFragment (offsets : Offsets) (f : Fragment) : Except Fault Lowering := do
  let saveXmms := f.allInstrs.any fun i => (f.instr i).result.any fun v => (f.ty v).isFloat
  let frame ← Frame.ofLocals f.localsSize
  return { fragment := f, offsets, frame, exits := Exit.statics f, saveXmms }

variable (c : Lowering)

/-! ### Operands -/

def arg (i : InstrId) (n : Slot) : Assembling ValueId :=
  let ins := c.fragment.instr i
  match ins.arg n with
  | some v => .ok v
  | none => .fault (.missingArgument ins.op n)

def hostReg (r : UInt8) : Assembling HostReg :=
  match hostRegs[r.toNat]? with
  | some h => .ok h
  | none => .fault .outOfRange

def source (op : Opcode) (v : ValueId) : Assembling Source :=
  let val := c.fragment.value v
  if val.ty.isVector then .unsupported op.name val.ty
  else match val.origin with
    | .constant k =>
      match k.bits? with
      | some bits => .ok (.imm bits)
      | none => .unsupported op.name val.ty
    | .result _ =>
      match val.reg with
      | some r => return .reg (← hostReg r)
      | none => .fault .unallocated

def loadGpr (op : Opcode) (dst : Gpr) (v : ValueId) : Assembling Assembly := do
  return loadSource dst (← c.source op v)

def loadXmm (op : Opcode) (dst : Xmm) (v : ValueId) : Assembling Assembly := do
  return loadXmmSource dst (← c.source op v)

/-- Load an argument into a general-purpose register. -/
def argGpr (i : InstrId) (n : Slot) (dst : Gpr) : Assembling Assembly := do
  c.loadGpr (c.fragment.instr i).op dst (← c.arg i n)

/-- Load an argument into an SSE register. -/
def argXmm (i : InstrId) (n : Slot) (dst : Xmm) : Assembling Assembly := do
  c.loadXmm (c.fragment.instr i).op dst (← c.arg i n)

def argTy (i : InstrId) (n : Slot) : Assembling Ty := do
  return c.fragment.ty (← c.arg i n)

/-- A constant 32-bit argument. -/
def argI32 (i : InstrId) (n : Slot) : Assembling Int32 := do
  return (← .ofFault (c.fragment.value (← c.arg i n)).i32).toInt32

/-- The place of the result, if it has one. -/
def target? (i : InstrId) : Assembling (Option HostReg) :=
  match (c.fragment.instr i).result.bind fun v => (c.fragment.value v).reg with
  | some r => return some (← hostReg r)
  | none => return none

/-- Move a result out of a general-purpose register. -/
def setResult (i : InstrId) (src : Gpr) : Assembling Assembly := do
  match ← c.target? i with
  | some (.gpr r) => return [.instr (.mov true r src)]
  | some (.xmm x) => return [.instr (.movqToXmm x src)]
  | none => return []

/-- Move a result out of an SSE register. -/
def setResultXmm (i : InstrId) (src : Xmm) : Assembling Assembly := do
  match ← c.target? i with
  | some (.xmm x) => return if x = src then [] else [.instr (.sse .movaps x src)]
  | some (.gpr r) => return [.instr (.movqFromXmm r src)]
  | none => return []

/-! ### Calls and exits -/

/-- Move the SSE registers to or from the save area. -/
def spillXmms (op : SseOp) : Assembly :=
  if c.saveXmms then
    savedXmms.zipIdx.map fun (x, n) =>
      .instr (.sseMem op x Gpr.rsp (offset32 (c.frame.xmmSave + 8 * n)))
  else []

/-- Call a routine with the guest handle and the given arguments. -/
def callThunk (t : Thunk) (args : List Source) : Assembly :=
  c.spillXmms (.store true) ++
  [.instr (.mov true Gpr.rdi guestReg)] ++
  ((argRegs.drop 1).zip args).flatMap (fun (r, a) => loadSource r a) ++
  [.instr (.movImm tmp0 t.address), .instr (.callReg tmp0)] ++
  c.spillXmms (.load true)

/-- Leave the block with a number in the first scratch register. -/
def leave (number : UInt64) : Assembly :=
  [.instr (.movImm tmp0 number), .jump none .epilogue]

/-- Go to a block, a constant guest address or a computed one. -/
def goto (op : Opcode) (target : ValueId) : Assembling Assembly :=
  match (c.fragment.value target).constant? with
  | some (.blk b) => return [.jump none (.block b)]
  | some (.i32 addr) => do
    let slot ← .ofFault (Exit.slot c.exits addr)
    return [.instr (.storeImm ctxReg (offset32 c.offsets.pc) addr.toInt32)] ++
      leave slot.toUInt64
  | _ => do
    return (← c.loadGpr op tmp1 target) ++
      [.instr (.store .w32 tmp1 ctxReg (offset32 c.offsets.pc))] ++
      leave dynamicExit.toUInt64

/-! ### Memory -/

/-- Load a result from memory. -/
def loadMem (i : InstrId) (ty : Ty) (base : Gpr) (offset : Int32) : Assembling Assembly := do
  if ty.isFloat then
    return [.instr (.sseMem (.load (ty == .f64)) xtmp0 base offset)] ++ (← c.setResultXmm i xtmp0)
  else
    return [.instr (.load (.ofBytes ty.bytes) tmp0 base offset)] ++ (← c.setResult i tmp0)

/-- Store a value to memory. The base is neither of the first two scratch registers. -/
def storeMem (op : Opcode) (v : ValueId) (base : Gpr) (offset : Int32) : Assembling Assembly := do
  let ty := c.fragment.ty v
  if ty.isFloat then
    return (← c.loadXmm op xtmp0 v) ++ [.instr (.sseMem (.store (ty == .f64)) xtmp0 base offset)]
  else
    return (← c.loadGpr op tmp1 v) ++ [.instr (.store (.ofBytes ty.bytes) tmp1 base offset)]

/-! ### Operations of several instructions -/

def select (i : InstrId) (ty : Ty) : Assembling Assembly := do
  let cond ← c.arg i 0
  let t ← c.arg i 1
  let f ← c.arg i 2
  if ty.isFloat then
    let skip := Label.inside i 0
    return (← c.loadXmm .select xtmp0 f) ++ (← c.loadGpr .select tmp2 cond) ++
      [.instr (.test true tmp2 tmp2), .jump (some .e) skip] ++
      (← c.loadXmm .select xtmp0 t) ++ [.label skip] ++ (← c.setResultXmm i xtmp0)
  else
    return (← c.loadGpr .select tmp1 t) ++ (← c.loadGpr .select tmp2 f) ++
      (← c.loadGpr .select tmp0 cond) ++
      [.instr (.test true tmp0 tmp0), .instr (.cmov .e true tmp1 tmp2)] ++ (← c.setResult i tmp1)

def compare (i : InstrId) (op : Opcode) (ty : Ty) : Assembling Assembly := do
  let (cond, isSigned) := conditionOf op
  let extend := if isSigned then signExtend ty tmp0 ++ signExtend ty tmp1 else []
  return (← c.argGpr i 0 tmp0) ++ (← c.argGpr i 1 tmp1) ++ extend ++
    [.instr (.arith .cmp true tmp0 tmp1), .instr (.setcc cond tmp0),
     .instr (.extend .movzbl tmp0 tmp0)] ++ (← c.setResult i tmp0)

/-- Compare floats and leave the answer in the first scratch register. Unordered operands are
unequal and fail every order; `a < b` is tested as `b > a`, which is false for them. -/
def floatTest (op : Opcode) (ty : Ty) : Assembly :=
  let ucomis := SseOp.ucomis (ty == .f64)
  let equality (cond parity : Cond) (join : ArithOp) : Assembly :=
    [.instr (.sse ucomis xtmp0 xtmp1), .instr (.setcc cond tmp0), .instr (.setcc parity tmp1),
     .instr (.extend .movzbl tmp0 tmp0), .instr (.extend .movzbl tmp1 tmp1),
     .instr (.arith join false tmp0 tmp1)]
  let order (a b : Xmm) (cond : Cond) : Assembly :=
    [.instr (.sse ucomis a b), .instr (.setcc cond tmp0), .instr (.extend .movzbl tmp0 tmp0)]
  match op with
  | .fcmpEq => equality .e .np .and
  | .fcmpNe => equality .ne .p .or
  | .fcmpGt => order xtmp0 xtmp1 .a
  | .fcmpGe => order xtmp0 xtmp1 .ae
  | .fcmpLt => order xtmp1 xtmp0 .a
  | _ => order xtmp1 xtmp0 .ae

/-- Signed division. A zero divisor gives zero and the overflowing quotient wraps. -/
def divide (i : InstrId) (ty : Ty) : Assembling Assembly := do
  let zero := Label.inside i 0
  let proper := Label.inside i 1
  let done := Label.inside i 2
  return (← c.argGpr i 0 tmp0) ++ (← c.argGpr i 1 tmp1) ++
    signExtend ty tmp0 ++ signExtend ty tmp1 ++
    [.instr (.test true tmp1 tmp1), .jump (some .e) zero,
     .instr (.arithImm .cmp true tmp1 (-1)), .jump (some .ne) proper,
     .instr (.unary .neg true tmp0), .jump none done,
     .label proper, .instr .cqo, .instr (.unary .idiv true tmp1), .jump none done,
     .label zero, .instr (.movImm tmp0 0),
     .label done] ++ zeroExtend ty tmp0 ++ (← c.setResult i tmp0)

/-- 32-bit shift by a signed amount: left if it is not negative, else right by its magnitude
modulo 32, where a multiple of 32 shifts every bit out. -/
def shiftSigned (i : InstrId) (op : Opcode) : Assembling Assembly := do
  let arithmetic := op == .ashd
  let right := Label.inside i 0
  let full := Label.inside i 1
  let done := Label.inside i 2
  return (← c.argGpr i 0 tmp0) ++ (← c.argGpr i 1 tmp1) ++
    [.instr (.test false tmp1 tmp1), .jump (some .s) right,
     .instr (.shiftCl .shl false tmp0), .jump none done,
     .label right, .instr (.mov false tmp2 tmp1), .instr (.arithImm .and false tmp2 31),
     .jump (some .e) full, .instr (.unary .neg false tmp1),
     .instr (.shiftCl (if arithmetic then .sar else .shr) false tmp0), .jump none done,
     .label full,
     .instr (if arithmetic then .shiftImm .sar false tmp0 31 else .movImm tmp0 0),
     .label done] ++ zeroExtend .i32 tmp0 ++ (← c.setResult i tmp0)

def branchIf (i : InstrId) (op : Opcode) : Assembling Assembly := do
  let test ← c.argGpr i 0 tmp0
  let taken := if op == .branchTrue then Cond.ne else Cond.e
  let target ← c.arg i 1
  let head := test ++ [.instr (.test true tmp0 tmp0)]
  match (c.fragment.value target).constant? with
  | some (.blk b) => return head ++ [.jump (some taken) (.block b)]
  | _ =>
    let skip := Label.inside i 0
    return head ++ [.jump (some taken.invert) skip] ++ (← c.goto op target) ++ [.label skip]

/-- Two integer operands and one instruction. -/
def intBinary (i : InstrId) (ty : Ty) (f : Gpr → Gpr → Instruction) : Assembling Assembly := do
  return (← c.argGpr i 0 tmp0) ++ (← c.argGpr i 1 tmp1) ++ [.instr (f tmp0 tmp1)] ++
    zeroExtend ty tmp0 ++ (← c.setResult i tmp0)

def intUnary (i : InstrId) (ty : Ty) (body : Assembly) : Assembling Assembly := do
  return (← c.argGpr i 0 tmp0) ++ body ++ zeroExtend ty tmp0 ++ (← c.setResult i tmp0)

def floatBinary (i : InstrId) (ty : Ty) (op : FloatOp) : Assembling Assembly := do
  return (← c.argXmm i 0 xtmp0) ++ (← c.argXmm i 1 xtmp1) ++
    [.instr (.sse (.float op (ty == .f64)) xtmp0 xtmp1)] ++ (← c.setResultXmm i xtmp0)

/-- Change the sign bit of a float with a mask. -/
def signBit (i : InstrId) (op : ArithOp) (mask : UInt64) : Assembling Assembly := do
  return (← c.argGpr i 0 tmp0) ++ [.instr (.movImm tmp1 mask), .instr (.arith op true tmp0 tmp1)] ++
    (← c.setResult i tmp0)

def shift (i : InstrId) (ty : Ty) (op : ShiftOp) : Assembling Assembly := do
  let extend := if op = .sar then signExtend ty tmp0 else []
  return (← c.argGpr i 0 tmp0) ++ (← c.argGpr i 1 tmp1) ++ extend ++
    [.instr (.shiftCl op true tmp0)] ++ zeroExtend ty tmp0 ++ (← c.setResult i tmp0)

/-- The arguments of a call; absent ones are zero. -/
def callArgs (i : InstrId) : Assembling (List Source) := do
  let routine ← c.source .call (← c.arg i 0)
  let rest ← [(1 : Slot), 2].mapM fun n =>
    match (c.fragment.instr i).arg n with
    | some v => c.source .call v
    | none => return .imm 0
  return routine :: rest

/-- The code of an operation with result type `ty`. -/
def operation (i : InstrId) (op : Opcode) (ty : Ty) : Assembling Assembly :=
  let sign : UInt64 := if ty == .f64 then 0x8000000000000000 else 0x80000000
  match op with
  | .sourceInfo => do
    let cycles ← c.argI32 i 1
    return [.instr (.arithMem .sub ctxReg (offset32 c.offsets.cycles) cycles),
      .instr (.arithMem .add ctxReg (offset32 c.offsets.instrs) 1)]
  | .fallback => do
    return c.callThunk .fallback
      [← c.source op (← c.arg i 0), ← c.source op (← c.arg i 1), ← c.source op (← c.arg i 2)]
  | .call => do return c.callThunk .call (← c.callArgs i)
  | .loadGuest => do
    let addr ← c.source op (← c.arg i 0)
    return c.callThunk .loadGuest [addr, .imm ty.bytes.toUInt64] ++
      zeroExtend ty tmp0 ++ (← c.setResult i tmp0)
  | .storeGuest => do
    let addr ← c.source op (← c.arg i 0)
    let value ← c.source op (← c.arg i 1)
    return c.callThunk .storeGuest [addr, value, .imm (← c.argTy i 1).bytes.toUInt64]
  | .loadHost => do return (← c.argGpr i 0 tmp2) ++ (← c.loadMem i ty tmp2 0)
  | .storeHost => do return (← c.argGpr i 0 tmp2) ++ (← c.storeMem op (← c.arg i 1) tmp2 0)
  | .loadContext => do c.loadMem i ty ctxReg (← c.argI32 i 0)
  | .storeContext => do
    let offset ← c.argI32 i 0
    c.storeMem op (← c.arg i 1) ctxReg offset
  | .loadLocal => do c.loadMem i ty Gpr.rsp (← c.argI32 i 0)
  | .storeLocal => do
    let offset ← c.argI32 i 0
    c.storeMem op (← c.arg i 1) Gpr.rsp offset
  | .ftoi => do
    return (← c.argXmm i 0 xtmp0) ++
      [.instr (.floatToInt ((← c.argTy i 0) == .f64) tmp0 xtmp0)] ++
      zeroExtend ty tmp0 ++ (← c.setResult i tmp0)
  | .itof => do
    return (← c.argGpr i 0 tmp0) ++ signExtend (← c.argTy i 0) tmp0 ++
      [.instr (.intToFloat (ty == .f64) xtmp0 tmp0)] ++ (← c.setResultXmm i xtmp0)
  | .sext => do c.intUnary i ty (signExtend (← c.argTy i 0) tmp0)
  | .zext | .trunc => c.intUnary i ty []
  | .fext | .ftrunc => do
    return (← c.argXmm i 0 xtmp0) ++ [.instr (.sse (.convert (op == .ftrunc)) xtmp0 xtmp0)] ++
      (← c.setResultXmm i xtmp0)
  | .select => c.select i ty
  | .cmpEq | .cmpNe | .cmpSge | .cmpSgt | .cmpUge | .cmpUgt | .cmpSle | .cmpSlt | .cmpUle
  | .cmpUlt => do c.compare i op (← c.argTy i 0)
  | .fcmpEq | .fcmpNe | .fcmpGe | .fcmpGt | .fcmpLe | .fcmpLt => do
    let operandTy ← c.argTy i 0
    return (← c.argXmm i 0 xtmp0) ++ (← c.argXmm i 1 xtmp1) ++ floatTest op operandTy ++
      (← c.setResult i tmp0)
  | .add => c.intBinary i ty (.arith .add true)
  | .sub => c.intBinary i ty (.arith .sub true)
  | .and => c.intBinary i ty (.arith .and true)
  | .or => c.intBinary i ty (.arith .or true)
  | .xor => c.intBinary i ty (.arith .xor true)
  -- The low bits of a product do not depend on signs.
  | .smul | .umul => c.intBinary i ty (.imul true)
  | .div => c.divide i ty
  | .neg => c.intUnary i ty [.instr (.unary .neg true tmp0)]
  | .not => c.intUnary i ty [.instr (.unary .not true tmp0)]
  | .abs => c.intUnary i ty (signExtend ty tmp0 ++
      [.instr (.mov true tmp1 tmp0), .instr (.unary .neg true tmp0),
       .instr (.cmov .s true tmp0 tmp1)])
  | .fadd => c.floatBinary i ty .add
  | .fsub => c.floatBinary i ty .sub
  | .fmul => c.floatBinary i ty .mul
  | .fdiv => c.floatBinary i ty .div
  | .sqrt => do
    return (← c.argXmm i 0 xtmp0) ++ [.instr (.sse (.float .sqrt (ty == .f64)) xtmp0 xtmp0)] ++
      (← c.setResultXmm i xtmp0)
  | .fneg => c.signBit i .xor sign
  | .fabs => c.signBit i .and (sign - 1)
  | .shl => c.shift i ty .shl
  | .lshr => c.shift i ty .shr
  | .ashr => c.shift i ty .sar
  | .ashd | .lshd => c.shiftSigned i op
  | .branch => do c.goto op (← c.arg i 0)
  | .branchTrue | .branchFalse => c.branchIf i op

/-- The code of one instruction. -/
def instr (i : InstrId) : Assembling Assembly :=
  let ins := c.fragment.instr i
  let ty := match ins.result with
    | some v => c.fragment.ty v
    | none => .i64
  if ty.isVector then .unsupported ins.op.name ty else c.operation i ins.op ty

def prologue : Assembly :=
  calleeSaved.map (fun r => .instr (.push r)) ++
  [.instr (.arithImm .sub true Gpr.rsp (offset32 c.frame.size)),
   .instr (.mov true ctxReg Gpr.rdi), .instr (.mov true guestReg Gpr.rsi)]

def epilogue : Assembly :=
  [.instr (.arithImm .add true Gpr.rsp (offset32 c.frame.size))] ++
  calleeSaved.reverse.map (fun r => .instr (.pop r)) ++ [.instr .ret]

/-- The parts of the code in their order: each instruction by itself, since any of them may be
refused. A last block that does not branch leaves with the pc as it is. -/
def parts : List (Assembling Assembly) :=
  [.ok c.prologue] ++
  c.fragment.order.flatMap (fun b =>
    .ok [.label (.block b)] :: (c.fragment.blockInstrs b).map c.instr) ++
  [.ok ([.instr (.movImm tmp0 dynamicExit.toUInt64), .label .epilogue] ++ c.epilogue)]

/-- The code of the fragment. -/
def code : Assembling Assembly := do return (← c.parts.mapM id).flatten

end Lowering
end Recompiler.X64
