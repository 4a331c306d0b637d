import Recompiler.Guest
import Recompiler.X64.Register

/-! The x86-64 instructions that generated code uses. -/
namespace Recompiler.X64

inductive ArithOp where
  | add | or | and | sub | xor | cmp
  deriving DecidableEq, Inhabited, Repr

namespace ArithOp

def all : List ArithOp := [add, or, and, sub, xor, cmp]

def name : ArithOp → String
  | add => "add"
  | or => "or"
  | and => "and"
  | sub => "sub"
  | xor => "xor"
  | cmp => "cmp"

def ofName? (s : String) : Option ArithOp := all.find? fun o => o.name == s

/-- Number of the operation in opcodes and extension fields. -/
def code : ArithOp → UInt8
  | add => 0
  | or => 1
  | and => 4
  | sub => 5
  | xor => 6
  | cmp => 7

def ofCode? : UInt8 → Option ArithOp
  | 0 => some add
  | 1 => some or
  | 4 => some and
  | 5 => some sub
  | 6 => some xor
  | 7 => some cmp
  | _ => none

end ArithOp

inductive ShiftOp where
  | shl | shr | sar
  deriving DecidableEq, Inhabited, Repr

namespace ShiftOp

def all : List ShiftOp := [shl, shr, sar]

def name : ShiftOp → String
  | shl => "shl"
  | shr => "shr"
  | sar => "sar"

def ofName? (s : String) : Option ShiftOp := all.find? fun o => o.name == s

def code : ShiftOp → UInt8
  | shl => 4
  | shr => 5
  | sar => 7

def ofCode? : UInt8 → Option ShiftOp
  | 4 => some shl
  | 5 => some shr
  | 7 => some sar
  | _ => none

end ShiftOp

/-- Operations with one register operand. -/
inductive UnaryOp where
  | not | neg | idiv
  deriving DecidableEq, Inhabited, Repr

namespace UnaryOp

def code : UnaryOp → UInt8
  | not => 2
  | neg => 3
  | idiv => 7

def ofCode? : UInt8 → Option UnaryOp
  | 2 => some not
  | 3 => some neg
  | 7 => some idiv
  | _ => none

end UnaryOp

/-- A condition on the flags. -/
inductive Cond where
  | b | ae | e | ne | be | a | s | ns | p | np | l | ge | le | g
  deriving DecidableEq, Inhabited, Repr

namespace Cond

def all : List Cond := [b, ae, e, ne, be, a, s, ns, p, np, l, ge, le, g]

def name : Cond → String
  | b => "b"
  | ae => "ae"
  | e => "e"
  | ne => "ne"
  | be => "be"
  | a => "a"
  | s => "s"
  | ns => "ns"
  | p => "p"
  | np => "np"
  | l => "l"
  | ge => "ge"
  | le => "le"
  | g => "g"

def ofName? (s : String) : Option Cond := all.find? fun c => c.name == s

/-- Number of the condition in opcodes. -/
def code : Cond → UInt8
  | b => 2
  | ae => 3
  | e => 4
  | ne => 5
  | be => 6
  | a => 7
  | s => 8
  | ns => 9
  | p => 10
  | np => 11
  | l => 12
  | ge => 13
  | le => 14
  | g => 15

def ofCode? (n : UInt8) : Option Cond := all.find? fun c => c.code == n

/-- The condition that holds when this one does not. -/
def invert : Cond → Cond
  | b => ae
  | ae => b
  | e => ne
  | ne => e
  | be => a
  | a => be
  | s => ns
  | ns => s
  | p => np
  | np => p
  | l => ge
  | ge => l
  | le => g
  | g => le

end Cond

/-- Register extensions: source width and how the rest of the target is filled. -/
inductive Extension where
  | movzbl | movzwl | movsbq | movswq | movslq
  deriving DecidableEq, Inhabited, Repr

namespace Extension

def all : List Extension := [movzbl, movzwl, movsbq, movswq, movslq]

def name : Extension → String
  | movzbl => "movzbl"
  | movzwl => "movzwl"
  | movsbq => "movsbq"
  | movswq => "movswq"
  | movslq => "movslq"

def ofName? (s : String) : Option Extension := all.find? fun e => e.name == s

end Extension

/-- Scalar float arithmetic. -/
inductive FloatOp where
  | sqrt | add | mul | sub | div
  deriving DecidableEq, Inhabited, Repr

namespace FloatOp

def all : List FloatOp := [sqrt, add, mul, sub, div]

def name : FloatOp → String
  | sqrt => "sqrt"
  | add => "add"
  | mul => "mul"
  | sub => "sub"
  | div => "div"

def code : FloatOp → UInt8
  | sqrt => 0x51
  | add => 0x58
  | mul => 0x59
  | sub => 0x5c
  | div => 0x5e

def ofCode? (n : UInt8) : Option FloatOp := all.find? fun o => o.code == n

end FloatOp

/-- SSE operations with an SSE register and a register or memory operand. `double` picks the
64-bit form. -/
inductive SseOp where
  | load (double : Bool)
  | store (double : Bool)
  | movaps
  /-- Convert to the other precision; `double` is that of the source. -/
  | convert (double : Bool)
  | ucomis (double : Bool)
  | float (op : FloatOp) (double : Bool)
  deriving DecidableEq, Inhabited, Repr

namespace SseOp

def suffix (double : Bool) : String := if double then "sd" else "ss"

def all : List SseOp :=
  [movaps] ++ [false, true].flatMap fun d =>
    [load d, store d, convert d, ucomis d] ++ FloatOp.all.map (float · d)

def name : SseOp → String
  | load d => "mov" ++ suffix d ++ "_load"
  | store d => "mov" ++ suffix d ++ "_store"
  | movaps => "movaps"
  | convert d => "cvt" ++ suffix d ++ "2" ++ suffix (!d)
  | ucomis d => if d then "ucomisd" else "ucomiss"
  | float op d => op.name ++ suffix d

def ofName? (s : String) : Option SseOp := all.find? fun o => o.name == s

end SseOp

/-- An instruction. `wide` picks 64-bit operands over 32-bit ones. -/
inductive Instruction where
  | arith (op : ArithOp) (wide : Bool) (dst src : Gpr)
  | arithImm (op : ArithOp) (wide : Bool) (dst : Gpr) (imm : Int32)
  /-- On the 32-bit word at `base + offset`. -/
  | arithMem (op : ArithOp) (base : Gpr) (offset imm : Int32)
  | unary (op : UnaryOp) (wide : Bool) (reg : Gpr)
  | shiftImm (op : ShiftOp) (wide : Bool) (dst : Gpr) (imm : UInt8)
  /-- Shift by the low byte of `rcx`. -/
  | shiftCl (op : ShiftOp) (wide : Bool) (dst : Gpr)
  | mov (wide : Bool) (dst src : Gpr)
  | movImm (dst : Gpr) (imm : UInt64)
  | extend (e : Extension) (dst src : Gpr)
  /-- Extend the second lowest byte of one of the first four registers with zeros. -/
  | extendHigh (dst src : Gpr)
  | imul (wide : Bool) (dst src : Gpr)
  /-- Load, extending with zeros. -/
  | load (size : Width) (dst base : Gpr) (offset : Int32)
  | store (size : Width) (src base : Gpr) (offset : Int32)
  /-- Store a 32-bit constant. -/
  | storeImm (base : Gpr) (offset imm : Int32)
  /-- Extend the sign of `rax` into `rdx`. -/
  | cqo
  | ret
  | jump (disp : Int32)
  | jumpIf (cond : Cond) (disp : Int32)
  | callReg (reg : Gpr)
  | push (reg : Gpr)
  | pop (reg : Gpr)
  | setcc (cond : Cond) (dst : Gpr)
  | cmov (cond : Cond) (wide : Bool) (dst src : Gpr)
  | test (wide : Bool) (a b : Gpr)
  | sse (op : SseOp) (dst src : Xmm)
  | sseMem (op : SseOp) (xmm : Xmm) (base : Gpr) (offset : Int32)
  | movqToXmm (dst : Xmm) (src : Gpr)
  | movqFromXmm (dst : Gpr) (src : Xmm)
  /-- Convert a signed 64-bit integer. -/
  | intToFloat (double : Bool) (dst : Xmm) (src : Gpr)
  /-- Convert to a signed 64-bit integer, cutting the fraction. -/
  | floatToInt (double : Bool) (dst : Gpr) (src : Xmm)
  deriving Inhabited, Repr

end Recompiler.X64
