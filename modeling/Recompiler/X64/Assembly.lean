import Recompiler.IR.Constant
import Recompiler.X64.Encode

/-! Machine code with symbolic jump targets, and the distances they stand for. -/
namespace Recompiler.X64

open IR (BlockId InstrId)

/-- A place in the code of a fragment. -/
inductive Label where
  /-- The first instruction of a block. -/
  | block (b : BlockId)
  /-- The common way out. -/
  | epilogue
  /-- The `n`-th place inside the code of one operation. -/
  | inside (instr : InstrId) (n : Nat)
  deriving DecidableEq, Repr

/-- A line of assembly. -/
inductive Line where
  | instr (i : Instruction)
  /-- A jump, on a condition or always. -/
  | jump (cond : Option Cond) (target : Label)
  | label (l : Label)

namespace Line

/-- A jump over a distance. -/
def jumpBy : Option Cond → Int32 → Instruction
  | none, disp => .jump disp
  | some c, disp => .jumpIf c disp

/-- Bytes of the line. Jumps have a fixed size. -/
def size : Line → Nat
  | instr i => i.bytes.length
  | jump cond _ => (jumpBy cond 0).bytes.length
  | label _ => 0

end Line

abbrev Assembly := List Line

namespace Assembly

def size : Assembly → Nat
  | [] => 0
  | line :: rest => line.size + size rest

/-- The positions of the labels, when the code starts at `pos`. -/
def labels : Nat → Assembly → List (Label × Nat)
  | _, [] => []
  | pos, .label l :: rest => (l, pos) :: labels pos rest
  | pos, line :: rest => labels (pos + line.size) rest

/-- Replace each jump target by its distance from the end of the jump. -/
def link (places : List (Label × Nat)) : Nat → Assembly → Except Fault (List Instruction)
  | _, [] => .ok []
  | pos, .label _ :: rest => link places pos rest
  | pos, .instr i :: rest => do return i :: (← link places (pos + (Line.instr i).size) rest)
  | pos, .jump cond target :: rest => do
    let after := pos + (Line.jump cond target).size
    let some place := places.lookup target | throw .missingTarget
    let disp : Int := place - after
    return Line.jumpBy cond (Int32.ofInt disp) :: (← link places after rest)

/-- The instructions of the code. Only distances occur in them, so they fit any position. -/
def instructions (a : Assembly) : Except Fault (List Instruction) := link (labels 0 a) 0 a

end Assembly
end Recompiler.X64
