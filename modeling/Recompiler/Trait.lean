/-! Properties of guest instructions that block formation looks at. -/
namespace Recompiler

inductive Trait where
  /-- An undefined encoding. -/
  | invalid
  /-- Reads guest memory. -/
  | load
  /-- Writes guest memory. -/
  | store
  /-- Transfers control on a condition. -/
  | conditional
  /-- Sets a condition flag from a comparison. -/
  | compare
  | branch
  /-- The next instruction runs before control is transferred. -/
  | delayed
  /-- Needs the pc in the context before it runs. -/
  | loadPc
  /-- Writes the pc. -/
  | storePc
  /-- Writes the float status register. -/
  | storeFpscr
  /-- Writes the status register. -/
  | storeSr
  /-- Data processing. -/
  | data
  /-- Status register transfer. -/
  | psr
  /-- Single data transfer. -/
  | transfer
  /-- Block data transfer. -/
  | block
  /-- Software interrupt. -/
  | interrupt
  | multiply
  deriving DecidableEq, Inhabited, Repr

/-- The bit that stands for the property in a number. -/
def Trait.bit : Trait → Nat
  | invalid => 0
  | load => 1
  | store => 2
  | conditional => 3
  | compare => 4
  | branch => 5
  | delayed => 6
  | loadPc => 7
  | storePc => 8
  | storeFpscr => 9
  | storeSr => 10
  | data => 16
  | psr => 17
  | transfer => 18
  | block => 19
  | interrupt => 20
  | multiply => 21

/-- A set of properties. -/
abbrev Traits := List Trait

namespace Traits

/-- The set as a number. -/
def bits (ts : Traits) : Nat := ts.foldl (fun n t => n ||| 1 <<< t.bit) 0

/-- Whether the sets have a common element. -/
def meets (a b : Traits) : Bool := a.any b.contains

/-- Whether every element of `b` is in `a`. -/
def covers (a b : Traits) : Bool := b.all a.contains

end Traits

/-- The static description of a guest instruction. -/
structure InstrInfo where
  name : String
  /-- The disassembly, with places for operands. -/
  template : String
  cycles : UInt32
  traits : Traits
  deriving Inhabited, Repr

/-- Straight-line code is cut into blocks of at most this many instructions. -/
def maxBlockInstrs : Nat := 1024

end Recompiler
