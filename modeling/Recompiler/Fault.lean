import Recompiler.IR.Ty
import Recompiler.IR.Opcode

/-! Broken preconditions. A faulting operation has no result and its caller stops. -/
namespace Recompiler

open IR (Ty Opcode)

/-- Why an operation has no result. -/
inductive Fault where
  /-- A precondition that has no wording of its own. -/
  | assertion
  | outOfRange
  | overflow
  /-- A run took more steps than it was given. -/
  | outOfFuel
  | noBits (ty : Ty)
  | notConstant (wanted found : Ty) (constant : Bool)
  | notText (found : Ty)
  | notInteger (found : Ty)
  | noResult (op : Opcode)
  | removedTwice
  | stillUsed (op : Opcode)
  | selfReplacement
  | replacementType
  | noStorage (ty : Ty)
  | integerOperands (op : Opcode)
  | floatOperands (op : Opcode)
  | integerOperand (op : Opcode)
  | shiftAmount (op : Opcode)
  | integers (op : Opcode)
  | floats (op : Opcode)
  | operandTypes (op : Opcode)
  | hostAddress
  | guestAddress
  | guestLoadType
  | guestStoreType
  | localType
  | selectCondition
  | branchCondition
  | branchTarget (found : Ty)
  | callArgument
  | contextSize (bytes : Nat)
  | usedBeforeDefinition (op : Opcode)
  | lostArgument (slot : Nat) (op : Opcode)
  | noRegister (ty : Ty)
  | invalidAllocation (reason : String)
  | unallocated
  | notStaticExit (addr : UInt32)
  | missingTarget
  | notPure (op : Opcode)
  | missingArgument (op : Opcode) (slot : Nat)
  | staleHandle (handle : Nat)
  | jumpRange
  /-- Machine code did what no generated code does. -/
  | machineTrap
  | ramSize (size : Nat)
  | nestedDelaySlot (addr : UInt32)
  | emptyBlock (addr : UInt32)
  | liveEdges (addr : UInt32)
  | alreadyCached (addr : UInt32)
  deriving Repr

/-- The wording of a fault. -/
def Fault.message : Fault → String
  | assertion => "assertion failed"
  | outOfRange => "out of range"
  | overflow => "arithmetic overflow"
  | outOfFuel => "out of fuel"
  | noBits ty => s!"no bit representation for {ty.name} constants"
  | notConstant wanted found constant =>
    let kind := if constant then "constant" else "value"
    s!"expected {wanted.name} constant, found {found.name} {kind}"
  | notText found => s!"expected str constant, found {found.name}"
  | notInteger found => s!"expected integer constant, found {found.name}"
  | noResult op => s!"{op.name} has no result"
  | removedTwice => "instruction removed twice"
  | stillUsed op => s!"removing {op.name} whose result is still used"
  | selfReplacement => "value replaced with itself"
  | replacementType => "replacement value changes type"
  | noStorage ty => s!"no local storage for {ty.name}"
  | integerOperands op => s!"{op.name} expects integer operands"
  | floatOperands op => s!"{op.name} expects float operands"
  | integerOperand op => s!"{op.name} expects an integer operand"
  | shiftAmount op => s!"{op.name} amount must be an integer"
  | integers op => s!"{op.name} expects integers"
  | floats op => s!"{op.name} expects floats"
  | operandTypes op => s!"{op.name} operand types differ"
  | hostAddress => "host address must be i64"
  | guestAddress => "guest address must be i32"
  | guestLoadType => "guest loads are integer typed"
  | guestStoreType => "guest stores are integer typed"
  | localType => "local slot type mismatch"
  | selectCondition => "select condition must be integer"
  | branchCondition => "branch condition must be integer"
  | branchTarget found => s!"branch target must be blk or i32, found {found.name}"
  | callArgument => "call arguments are i64"
  | contextSize bytes => s!"unsupported context access size {bytes}"
  | usedBeforeDefinition op => s!"argument of {op.name} used before definition"
  | lostArgument slot op =>
    s!"argument {slot} of {op.name} is neither in a register nor spilled"
  | noRegister ty => s!"Failed to allocate register for {ty.name}"
  | invalidAllocation reason => s!"register allocation failed validation: {reason}"
  | unallocated => "value reached the backend unallocated"
  | notStaticExit addr => s!"{Text.address addr} is not a static exit"
  | missingTarget => "branch without a target"
  | notPure op => s!"{op.name} is not a pure op"
  | missingArgument op slot => s!"{op.name} is missing argument {slot}"
  | staleHandle handle => s!"stale code handle {handle}"
  | jumpRange => "jump displacement out of i32 range"
  | machineTrap => "machine trap"
  | ramSize size => s!"ram size must be a power of two, got {Text.hex size}"
  | nestedDelaySlot addr => s!"nested delay slot at {Text.address addr}"
  | emptyBlock addr => s!"empty sh4 block at {Text.address addr}"
  | liveEdges addr => s!"block {Text.address addr} inserted with live edges"
  | alreadyCached addr => s!"block {Text.address addr} is already cached"

/-- A result of arithmetic on signed 32-bit numbers, which has to be such a number too. -/
def checked32 (n : Int) : Except Fault Int :=
  if -0x80000000 ≤ n ∧ n < 0x80000000 then .ok n else .error .overflow

end Recompiler
