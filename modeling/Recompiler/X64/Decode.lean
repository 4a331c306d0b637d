import Recompiler.X64.Encode

/-!
Decoding of machine code, by the rules for legacy marks, REX, ModR/M, SIB and displacement. It
knows the instructions that generated code uses and refuses all others.
-/
namespace Recompiler.X64

/-- What stands before an opcode. -/
structure Marks where
  data16 : Bool := false
  scalar : Option Bool := none
  rex : Option UInt8 := none

namespace Marks

def bit (m : Marks) (n : UInt8) : Bool := (m.rex.getD 0 >>> n) &&& 1 = 1

/-- 64-bit operands. -/
def wide (m : Marks) : Bool := m.bit 3

/-- Extends the register field. -/
def r (m : Marks) : Bool := m.bit 2

/-- Extends the index field. -/
def x (m : Marks) : Bool := m.bit 1

/-- Extends the operand or base field. -/
def b (m : Marks) : Bool := m.bit 0

/-- Whether a byte register number stands for the second byte of one of the first four registers:
it does from 4 to 7, unless there is a REX byte. -/
def secondByte (m : Marks) (reg : Fin 16) : Bool := m.rex.isNone && 4 ≤ reg.val

/-- Without any of the mandatory bytes. -/
def plain (m : Marks) : Bool := !m.data16 && m.scalar.isNone

end Marks

/-- A register number from three bits and the bit of the REX byte. -/
def extended (bit : Bool) (low : UInt8) : Fin 16 :=
  Fin.ofNat 16 ((low &&& 7).toNat + if bit then 8 else 0)

/-- The operand of a ModR/M byte. -/
inductive RegMem where
  | reg (r : Fin 16)
  | mem (base : Gpr) (offset : Int32)
  deriving DecidableEq, Repr

/-- A ModR/M byte with what belongs to it. -/
structure ModRm where
  /-- The register field as an opcode extension. -/
  ext : UInt8
  /-- The register field as a register. -/
  field : Fin 16
  operand : RegMem

namespace Decode

/-- Bytes that are still to be read. -/
abbrev Reader := StateT (List UInt8) Option

def byte : Reader UInt8
  | [] => none
  | b :: rest => some (b, rest)

/-- A little-endian number of `n` bytes. -/
def word (n : Nat) : Reader UInt64 := fun bytes =>
  if n ≤ bytes.length then some (Bytes.toWord (bytes.take n), bytes.drop n) else none

def int32 : Reader Int32 := do return (← word 4).toUInt32.toInt32

def int8 : Reader Int32 := do return (← byte).toInt8.toInt32

/-- Take the next byte if it is the given one. -/
def accept (b : UInt8) : Reader Bool := fun bytes =>
  match bytes with
  | c :: rest => if c = b then some (true, rest) else some (false, c :: rest)
  | [] => some (false, [])

def rex : Reader (Option UInt8) := fun bytes =>
  match bytes with
  | c :: rest => if c &&& 0xf0 = 0x40 then some (some c, rest) else some (none, c :: rest)
  | [] => some (none, [])

def marks : Reader Marks := do
  let data16 ← accept 0x66
  let single ← accept 0xf3
  let double ← if single then pure false else accept 0xf2
  return { data16, scalar := if single then some false else if double then some true else none,
           rex := ← rex }

/-- The base of a memory operand. An index is refused, as is an operand without a base. -/
def base (m : Marks) (mode rm : UInt8) : Reader Gpr := do
  if rm = 4 then
    let sib ← byte
    if (sib >>> 3) &&& 7 ≠ 4 || m.x || (sib &&& 7 = 5 && mode = 0) then failure
    return extended m.b sib
  else if rm = 5 && mode = 0 then failure
  else return extended m.b rm

def modRm (m : Marks) : Reader ModRm := do
  let b ← byte
  let mode := b >>> 6
  let ext := (b >>> 3) &&& 7
  let rm := b &&& 7
  let field := extended m.r ext
  if mode = 3 then return { ext, field, operand := .reg (extended m.b rm) }
  let base ← base m mode rm
  let offset ← if mode = 0 then pure 0 else if mode = 1 then int8 else int32
  return { ext, field, operand := .mem base offset }

/-- A register operand. -/
def direct (m : Marks) : Reader (ModRm × Fin 16) := do
  let o ← modRm m
  match o.operand with
  | .reg r => return (o, r)
  | .mem .. => failure

/-- An opcode extension and a register operand. -/
def extension {α : Type} (m : Marks) (op? : UInt8 → Option α) : Reader (α × Gpr) := do
  let (o, reg) ← direct m
  return (← op? o.ext, reg)

/-- A zero-extending load, or `f` on a register operand. -/
def loadOr (m : Marks) (size : Width) (f : Gpr → Gpr → Instruction) : Reader Instruction := do
  let o ← modRm m
  match o.operand with
  | .reg r => return f o.field r
  | .mem base offset => return .load size o.field base offset

/-- A store, or `f` on a register operand. -/
def storeOr (m : Marks) (size : Width) (f : Gpr → Gpr → Option Instruction) :
    Reader Instruction := do
  let o ← modRm m
  match o.operand with
  | .reg r => f o.field r
  | .mem base offset => return .store size o.field base offset

def sse (m : Marks) (op : SseOp) : Reader Instruction := do
  let o ← modRm m
  match o.operand with
  | .reg r => return .sse op o.field r
  | .mem base offset => return .sseMem op o.field base offset

/-- The register in the low bits of an opcode. -/
def inOpcode (m : Marks) (opcode : UInt8) : Gpr := extended m.b opcode

/-- A byte register extended with zeros. -/
def zeroExtendByte (m : Marks) (dst src : Gpr) : Instruction :=
  if m.secondByte src then .extendHigh dst (src - 4) else .extend .movzbl dst src

/-- Instructions of the second opcode map. -/
def second (m : Marks) : Reader Instruction := do
  let opcode ← byte
  let cond? := Cond.ofCode? (opcode &&& 0x0f)
  match m.data16, m.scalar with
  | false, none =>
    match opcode with
    | 0x28 => sse m .movaps
    | 0x2e => sse m (.ucomis false)
    | 0xaf => do let (o, r) ← direct m; return .imul m.wide o.field r
    | 0xb6 => loadOr m .w8 (zeroExtendByte m)
    | 0xb7 => loadOr m .w16 (.extend .movzwl)
    | 0xbe => do let (o, r) ← direct m; if m.wide then return .extend .movsbq o.field r else failure
    | 0xbf => do let (o, r) ← direct m; if m.wide then return .extend .movswq o.field r else failure
    | _ =>
      let row := opcode &&& 0xf0
      if row = 0x40 then do let (o, r) ← direct m; return .cmov (← cond?) m.wide o.field r
      else if row = 0x80 then return .jumpIf (← cond?) (← int32)
      else if row = 0x90 then do
        let (_, r) ← direct m
        if m.secondByte r then failure else return .setcc (← cond?) r
      else failure
  | true, none =>
    match opcode with
    | 0x2e => sse m (.ucomis true)
    | 0x6e => do let (o, r) ← direct m; if m.wide then return .movqToXmm o.field r else failure
    | 0x7e => do let (o, r) ← direct m; if m.wide then return .movqFromXmm r o.field else failure
    | _ => failure
  | false, some d =>
    match opcode with
    | 0x10 => sse m (.load d)
    | 0x11 => sse m (.store d)
    | 0x2a => do let (o, r) ← direct m; if m.wide then return .intToFloat d o.field r else failure
    | 0x2c => do let (o, r) ← direct m; if m.wide then return .floatToInt d o.field r else failure
    | 0x5a => sse m (.convert d)
    | _ => do sse m (.float (← FloatOp.ofCode? opcode) d)
  | true, some _ => failure

/-- Instructions of the first opcode map. -/
def first (m : Marks) (opcode : UInt8) : Reader Instruction := do
  match opcode with
  | 0x63 => do let (o, r) ← direct m; if m.wide then return .extend .movslq o.field r else failure
  | 0x81 => do
    let o ← modRm m
    let op ← ArithOp.ofCode? o.ext
    match o.operand with
    | .reg r => return .arithImm op m.wide r (← int32)
    | .mem base offset => if m.wide then failure else return .arithMem op base offset (← int32)
  | 0x83 => do
    let (op, r) ← extension m ArithOp.ofCode?
    return .arithImm op m.wide r (← int8)
  | 0x85 => do let (o, r) ← direct m; return .test m.wide r o.field
  | 0x88 => do
    let o ← modRm m
    match o.operand with
    | .mem base offset =>
      if m.secondByte o.field then failure else return .store .w8 o.field base offset
    | .reg _ => failure
  | 0x89 => storeOr m (if m.wide then .w64 else .w32) fun src dst => some (.mov m.wide dst src)
  | 0x8b => loadOr m (if m.wide then .w64 else .w32) fun dst src => .mov m.wide dst src
  | 0x99 => if m.wide then return .cqo else failure
  | 0xc1 => do
    let (op, r) ← extension m ShiftOp.ofCode?
    return .shiftImm op m.wide r (← byte)
  | 0xc3 => return .ret
  | 0xc7 => do
    let o ← modRm m
    if o.ext ≠ 0 then failure
    match o.operand with
    | .reg r => do
      let n ← int32
      return .movImm r (if m.wide then n.toInt64.toUInt64 else n.toUInt32.toUInt64)
    | .mem base offset => if m.wide then failure else return .storeImm base offset (← int32)
  | 0xd1 => do
    let (op, r) ← extension m ShiftOp.ofCode?
    return .shiftImm op m.wide r 1
  | 0xd3 => do
    let (op, r) ← extension m ShiftOp.ofCode?
    return .shiftCl op m.wide r
  | 0xe9 => return .jump (← int32)
  | 0xf7 => do
    let (op, r) ← extension m UnaryOp.ofCode?
    return .unary op m.wide r
  | 0xff => do
    let (o, r) ← direct m
    if o.ext = 2 then return .callReg r else failure
  | _ =>
    let row := opcode &&& 0xf8
    if row = 0x50 then return .push (inOpcode m opcode)
    else if row = 0x58 then return .pop (inOpcode m opcode)
    else if row = 0xb8 then return .movImm (inOpcode m opcode) (← word (if m.wide then 8 else 4))
    else if opcode &&& 0xc7 = 0x03 then do
      let op ← ArithOp.ofCode? (opcode >>> 3)
      let (o, r) ← direct m
      return .arith op m.wide o.field r
    else failure

/-- The 16-bit store. -/
def data16 (m : Marks) (opcode : UInt8) : Reader Instruction :=
  if opcode = 0x89 && m.scalar.isNone && !m.wide then storeOr m .w16 fun _ _ => none else failure

/-- One instruction. -/
def instruction : Reader Instruction := do
  let m ← marks
  let opcode ← byte
  if opcode = 0x0f then second m
  else if m.plain then first m opcode
  else data16 m opcode

end Decode

/-- The instruction at the start of a byte sequence, and what follows it. -/
def decode (bytes : List UInt8) : Option (Instruction × List UInt8) := Decode.instruction bytes

end Recompiler.X64
