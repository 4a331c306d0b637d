import Recompiler.Text.Number

/-! Operations of the intermediate representation and their static properties. -/
namespace Recompiler.IR

/-- An operation. Integer and float operations work at every width of their class. -/
inductive Opcode where
  | sourceInfo | fallback
  | loadHost | storeHost | loadGuest | storeGuest | loadContext | storeContext
  | loadLocal | storeLocal
  | ftoi | itof | sext | zext | trunc | fext | ftrunc
  | select
  | cmpEq | cmpNe | cmpSge | cmpSgt | cmpUge | cmpUgt | cmpSle | cmpSlt | cmpUle | cmpUlt
  | fcmpEq | fcmpNe | fcmpGe | fcmpGt | fcmpLe | fcmpLt
  | add | sub | smul | umul | div | neg | abs
  | fadd | fsub | fmul | fdiv | fneg | fabs | sqrt
  | and | or | xor | not | shl | ashr | lshr | ashd | lshd
  | branch | branchFalse | branchTrue | call
  deriving DecidableEq, Inhabited, Repr

/-- What an operation does besides computing. -/
structure OpFlags where
  /-- It is never removed as dead. -/
  sideEffects : Bool := false
  /-- It transfers control. -/
  branch : Bool := false
  /-- It calls into the host. -/
  call : Bool := false
  /-- It produces a value. -/
  result : Bool := false
  deriving DecidableEq, Inhabited, Repr

/-- The flags as a number, lowest bit first. -/
def OpFlags.bits (f : OpFlags) : Nat :=
  f.sideEffects.toNat + 2 * f.branch.toNat + 4 * f.call.toNat + 8 * f.result.toNat

/-- Groups of operations that share operand rules. -/
inductive OpKind where
  | sourceInfo | fallback
  | loadHost | storeHost | loadGuest | storeGuest | loadContext | storeContext
  | loadLocal | storeLocal
  | convert | select | compare | floatCompare
  | intBinary | intUnary | floatBinary | floatUnary
  | shift | shiftSigned
  | branch | branchIf | call
  deriving DecidableEq, Inhabited, Repr

/-- Name, number of arguments and flags of an operation. -/
structure OpInfo where
  name : String
  arity : Nat
  flags : OpFlags

namespace OpInfo

def pure (name : String) (arity : Nat) : OpInfo := ⟨name, arity, { result := true }⟩
def effect (name : String) (arity : Nat) : OpInfo := ⟨name, arity, { sideEffects := true }⟩
def jump (name : String) (arity : Nat) : OpInfo :=
  ⟨name, arity, { sideEffects := true, branch := true }⟩
def hostCall (name : String) (arity : Nat) : OpInfo :=
  ⟨name, arity, { sideEffects := true, call := true }⟩

end OpInfo

namespace Opcode

/-- Every operation, in numbering order. -/
def all : List Opcode :=
  [sourceInfo, fallback, loadHost, storeHost, loadGuest, storeGuest, loadContext, storeContext,
   loadLocal, storeLocal, ftoi, itof, sext, zext, trunc, fext, ftrunc, select,
   cmpEq, cmpNe, cmpSge, cmpSgt, cmpUge, cmpUgt, cmpSle, cmpSlt, cmpUle, cmpUlt,
   fcmpEq, fcmpNe, fcmpGe, fcmpGt, fcmpLe, fcmpLt,
   add, sub, smul, umul, div, neg, abs, fadd, fsub, fmul, fdiv, fneg, fabs, sqrt,
   and, or, xor, not, shl, ashr, lshr, ashd, lshd,
   branch, branchFalse, branchTrue, call]

/-- Position in the numbering order. -/
def index (op : Opcode) : Nat := all.idxOf op

/-- The static description. A guest load calls into the host and yet counts as removable. -/
def info : Opcode → OpInfo
  | sourceInfo => .effect "source_info" 2
  | fallback => .hostCall "fallback" 3
  | loadHost => .pure "load_host" 1
  | storeHost => .effect "store_host" 2
  | loadGuest => ⟨"load_guest", 1, { call := true, result := true }⟩
  | storeGuest => .hostCall "store_guest" 2
  | loadContext => .pure "load_context" 1
  | storeContext => .effect "store_context" 2
  | loadLocal => .pure "load_local" 1
  | storeLocal => .effect "store_local" 2
  | ftoi => .pure "ftoi" 1
  | itof => .pure "itof" 1
  | sext => .pure "sext" 1
  | zext => .pure "zext" 1
  | trunc => .pure "trunc" 1
  | fext => .pure "fext" 1
  | ftrunc => .pure "ftrunc" 1
  | select => .pure "select" 3
  | cmpEq => .pure "eq" 2
  | cmpNe => .pure "ne" 2
  | cmpSge => .pure "sge" 2
  | cmpSgt => .pure "sgt" 2
  | cmpUge => .pure "uge" 2
  | cmpUgt => .pure "ugt" 2
  | cmpSle => .pure "sle" 2
  | cmpSlt => .pure "slt" 2
  | cmpUle => .pure "ule" 2
  | cmpUlt => .pure "ult" 2
  | fcmpEq => .pure "feq" 2
  | fcmpNe => .pure "fne" 2
  | fcmpGe => .pure "fge" 2
  | fcmpGt => .pure "fgt" 2
  | fcmpLe => .pure "fle" 2
  | fcmpLt => .pure "flt" 2
  | add => .pure "add" 2
  | sub => .pure "sub" 2
  | smul => .pure "smul" 2
  | umul => .pure "umul" 2
  | div => .pure "div" 2
  | neg => .pure "neg" 1
  | abs => .pure "abs" 1
  | fadd => .pure "fadd" 2
  | fsub => .pure "fsub" 2
  | fmul => .pure "fmul" 2
  | fdiv => .pure "fdiv" 2
  | fneg => .pure "fneg" 1
  | fabs => .pure "fabs" 1
  | sqrt => .pure "sqrt" 1
  | and => .pure "and" 2
  | or => .pure "or" 2
  | xor => .pure "xor" 2
  | not => .pure "not" 1
  | shl => .pure "shl" 2
  | ashr => .pure "ashr" 2
  | lshr => .pure "lshr" 2
  | ashd => .pure "ashd" 2
  | lshd => .pure "lshd" 2
  | branch => .jump "branch" 1
  | branchFalse => .jump "branch_false" 2
  | branchTrue => .jump "branch_true" 2
  | call => .hostCall "call" 3

/-- The group an operation belongs to. -/
def kind : Opcode → OpKind
  | sourceInfo => .sourceInfo
  | fallback => .fallback
  | loadHost => .loadHost
  | storeHost => .storeHost
  | loadGuest => .loadGuest
  | storeGuest => .storeGuest
  | loadContext => .loadContext
  | storeContext => .storeContext
  | loadLocal => .loadLocal
  | storeLocal => .storeLocal
  | ftoi | itof | sext | zext | trunc | fext | ftrunc => .convert
  | select => .select
  | cmpEq | cmpNe | cmpSge | cmpSgt | cmpUge | cmpUgt | cmpSle | cmpSlt | cmpUle | cmpUlt =>
    .compare
  | fcmpEq | fcmpNe | fcmpGe | fcmpGt | fcmpLe | fcmpLt => .floatCompare
  | add | sub | smul | umul | div | and | or | xor => .intBinary
  | neg | abs | not => .intUnary
  | fadd | fsub | fmul | fdiv => .floatBinary
  | fneg | fabs | sqrt => .floatUnary
  | shl | ashr | lshr => .shift
  | ashd | lshd => .shiftSigned
  | branch => .branch
  | branchFalse | branchTrue => .branchIf
  | call => .call

/-- The word that stands for the operation in text. -/
def name (op : Opcode) : String := op.info.name

/-- The operation a word stands for, whatever its case. -/
def ofName? (s : String) : Option Opcode := all.find? fun op => Text.sameName op.name s

def hasSideEffects (op : Opcode) : Bool := op.info.flags.sideEffects
def isBranch (op : Opcode) : Bool := op.info.flags.branch
def isCall (op : Opcode) : Bool := op.info.flags.call
def hasResult (op : Opcode) : Bool := op.info.flags.result
def isCompare (op : Opcode) : Bool := op.kind == .compare
def isFloatCompare (op : Opcode) : Bool := op.kind == .floatCompare

end Opcode
end Recompiler.IR
