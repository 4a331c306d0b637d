import Std.Data.HashMap
import Recompiler.IR.Builder
import Recompiler.Pass.BlockTree
import Recompiler.Pass.Register

/-!
Register allocation by bin packing. Every result is a temporary, every register a bin for one
temporary. A block starts from the state at the end of the block it is entered from; paths that
meet again are not reconciled. When no bin is free the temporary needed last gives way, and it is
filled again from its local slot where it is used.
-/
namespace Recompiler.Pass.Allocation

open IR

/-- A result through its life. -/
structure Temp where
  /-- Positions of the remaining occurrences, the definition first. -/
  uses : List Int
  /-- The value that holds it in a register now. -/
  value : Option ValueId := none
  /-- The local slot it was spilled to. -/
  slot : Option LocalId := none
  deriving Inhabited, Repr

/-- The temporary in each bin, and all temporaries. -/
structure Bins where
  packed : Array (Option Nat)
  temps : Array Temp := #[]
  deriving Inhabited

/-- The allocator: what holds on the current path, and what holds on all. -/
structure State where
  fragment : Fragment
  bins : Bins
  /-- Position of each instruction. -/
  positions : Std.HashMap InstrId Int := {}
  /-- Temporary of each value, fills included. -/
  tempOf : Std.HashMap ValueId Nat := {}
  gprsSpilled : Nat := 0
  fprsSpilled : Nat := 0

abbrev Alloc := StateT State (Except Fault)

def temp (s : State) (t : Nat) : Temp := s.bins.temps.getD t default

def modifyTemp (s : State) (t : Nat) (g : Temp → Temp) : State :=
  { s with bins := { s.bins with temps := s.bins.temps.modify t g } }

def position (s : State) (i : InstrId) : Int := s.positions.getD i 0

/-- Positions lie four apart, one for the instruction and one for a fill before each argument. -/
def stride : Int := 4

/-- Number the instructions in visiting order. -/
def number (f : Fragment) (order : List BlockId) : Std.HashMap InstrId Int :=
  ((order.flatMap f.blockInstrs).foldl
    (fun (m, n) i => (m.insert i n, n + stride)) ((∅ : Std.HashMap InstrId Int), 0)).1

def addUse (s : State) (t : Nat) (pos : Int) : State :=
  modifyTemp s t fun tmp => { tmp with uses := tmp.uses ++ [pos] }

/-- Record an argument. -/
def recordArg (op : Opcode) (pos : Int) (s : State) (v : ValueId) : Except Fault State :=
  if s.fragment.isConstant v then .ok s
  else
    match s.tempOf[v]? with
    | some t => .ok (addUse s t pos)
    | none => .error (.usedBeforeDefinition op)

/-- Give a result a temporary of its own. -/
def recordResult (pos : Int) (s : State) : Option ValueId → State
  | none => s
  | some v =>
    { s with
      tempOf := s.tempOf.insert v s.bins.temps.size
      bins := { s.bins with temps := s.bins.temps.push { uses := [pos] } } }

/-- Record the definition and the arguments of one instruction. -/
def record (s : State) (i : InstrId) : Except Fault State :=
  let ins := s.fragment.instr i
  let pos := position s i
  let s := recordResult pos s ins.result
  ins.operands.foldlM (fun s (_, v) => recordArg ins.op pos s v) s

/-! ### Bins -/

/-- Empty a bin or give it to a temporary. The occupant loses its value. -/
def pack (bin : Nat) (new : Option Nat) (s : State) : State :=
  let s := match s.bins.packed.getD bin none with
    | some old => modifyTemp s old ({ · with value := none })
    | none => s
  let s := match new.bind fun t => (temp s t).value with
    | some v => { s with fragment := s.fragment.modifyValue v ({ · with reg := some bin.toUInt8 }) }
    | none => s
  { s with bins := { s.bins with packed := s.bins.packed.setIfInBounds bin new } }

/-- Forget the uses before `pos`. A temporary keeps its last use. -/
def dropUses (pos : Int) : List Int → List Int
  | u :: v :: us => if u < pos then dropUses pos (v :: us) else u :: v :: us
  | us => us

/-- Free the bin if its temporary is not used from `pos` on. -/
def expireBin (pos : Int) (s : State) (bin : Nat) : State :=
  match s.bins.packed.getD bin none with
  | none => s
  | some t =>
    let uses := dropUses pos (temp s t).uses
    let s := modifyTemp s t ({ · with uses })
    match uses with
    | u :: _ => if u < pos then pack bin none s else s
    | [] => pack bin none s

def expire (pos : Int) (s : State) : State :=
  (List.range s.bins.packed.size).foldl (expireBin pos) s

/-! ### Choice of a register -/

/-- The register of the first argument, if the defining instruction is its last use. -/
def reusable? (regs : Array Register) (s : State) (ty : Ty) (i : InstrId) : Option Nat := do
  let arg ← (s.fragment.instr i).arg 0
  guard (!s.fragment.isConstant arg)
  let t ← s.tempOf[arg]?
  let current ← (temp s t).value
  guard ((temp s t).uses.length = 1)
  let reg ← (s.fragment.value current).reg
  let r ← regs[reg.toNat]?
  guard (r.holds ty)
  return reg.toNat

/-- The first free bin for a type. -/
def free? (regs : Array Register) (s : State) (ty : Ty) : Option Nat :=
  (List.range regs.size).find? fun bin =>
    (s.bins.packed.getD bin none).isNone && (regs.getD bin default).holds ty

/-- The next use of the temporary in a bin that holds a type. -/
def nextUse? (regs : Array Register) (s : State) (ty : Ty) (bin : Nat) : Option Int := do
  let t ← s.bins.packed.getD bin none
  guard ((regs.getD bin default).holds ty)
  (temp s t).uses.head?

/-- The bin whose temporary is needed last, the first of several. -/
def victim? (regs : Array Register) (s : State) (ty : Ty) : Option Nat :=
  ((List.range regs.size).foldl (fun (best : Option (Nat × Int)) bin =>
    match nextUse? regs s ty bin, best with
    | none, best => best
    | some u, none => some (bin, u)
    | some u, some (b, furthest) => if u > furthest then some (bin, u) else some (b, furthest))
    none).map (·.1)

/-- Run builder steps on the fragment right before an instruction. -/
def insertBefore {α : Type} (i : InstrId) (m : Build α) : Alloc α := fun s => do
  let saved := s.fragment.point
  let (a, f) ← m (s.fragment.beforeInstr i)
  return (a, { s with fragment := f.setPoint saved })

/-- Store a value to a new slot. -/
def storeNew (v : ValueId) : Build LocalId := do
  let slot ← Build.allocLocal (← Build.tyOf v)
  Build.storeLocal slot v
  return slot

/-- Store the temporary of a bin to a slot of its own before `i`, unless it has one. False if it
has no value to store. -/
def spill (bin : Nat) (i : InstrId) : Alloc Bool := do
  let s ← get
  match s.bins.packed.getD bin none with
  | none => return false
  | some t =>
    match (temp s t).slot, (temp s t).value with
    | some _, _ => return true
    | none, none => return false
    | none, some v =>
      let ty := s.fragment.ty v
      let slot ← insertBefore i (storeNew v)
      modify fun s => modifyTemp s t ({ · with slot := some slot })
      modify fun s =>
        if ty.isInt then { s with gprsSpilled := s.gprsSpilled + 1 }
        else { s with fprsSpilled := s.fprsSpilled + 1 }
      return true

/-- Find a register of a type for a temporary that `i` defines: that of a dying first argument, a
free one, or a spilled one. -/
def assign (regs : Array Register) (t : Nat) (ty : Ty) (i : InstrId) : Alloc Unit := do
  let s ← get
  match reusable? regs s ty i <|> free? regs s ty with
  | some bin => modify (pack bin (some t))
  | none =>
    match victim? regs s ty with
    | none => throw (.noRegister ty)
    | some bin =>
      if ← spill bin i then modify (pack bin (some t))
      else throw (.noRegister ty)

/-- Find a register for a value, which becomes the one that holds its temporary. -/
def allocate (regs : Array Register) (v : ValueId) : Alloc Unit := do
  let t := (← get).tempOf.getD v 0
  modify fun s => modifyTemp s t ({ · with value := some v })
  let s ← get
  match (s.fragment.value v).definition? with
  | none => return ()
  | some i => assign regs t (s.fragment.ty v) i

/-- Load a temporary from its slot before `i`. -/
def fill (regs : Array Register) (i : InstrId) (t : Nat) (slot : LocalId) : Alloc Unit := do
  let v ← insertBefore i (Build.loadLocal slot)
  modify fun s => { s with tempOf := s.tempOf.insert v t }
  allocate regs v

/-- Bring the temporary of an argument into a register, if it is in none. -/
def reload (regs : Array Register) (i : InstrId) (n : Slot) (t : Nat) : Alloc Unit := do
  let s ← get
  match (temp s t).value, (temp s t).slot with
  | some _, _ => return ()
  | none, some slot => fill regs i t slot
  | none, none => throw (.lostArgument n.val (s.fragment.instr i).op)

/-- Make an argument `v` refer to the value that holds its temporary. -/
def refer (i : InstrId) (n : Slot) (v : ValueId) (t : Nat) : Alloc Unit :=
  modify fun s =>
    match (temp s t).value with
    | some current =>
      if current ≠ v then { s with fragment := s.fragment.setArg i n current } else s
    | none => s

/-- Place an argument, filling its temporary first if needed. -/
def placeArg (regs : Array Register) (i : InstrId) (n : Slot) : Alloc Unit := do
  let s ← get
  match (s.fragment.instr i).arg n with
  | none => return ()
  | some v =>
    if s.fragment.isConstant v then return ()
    else
      let t := s.tempOf.getD v 0
      reload regs i n t
      refer i n v t

/-- Allocate one instruction: free what is over, place the arguments, then the result. -/
def visitInstr (regs : Array Register) (i : InstrId) : Alloc Unit := do
  modify fun s => expire (position s i) s
  (List.finRange 3).forM (placeArg regs i)
  match ((← get).fragment.instr i).result with
  | some v => allocate regs v
  | none => return ()

/-- Allocate one block. Returns the bins at its end. -/
def visitBlock (regs : Array Register) (b : BlockId) (start : Bins) : Alloc Bins := do
  modify fun s => { s with bins := start }
  ((← get).fragment.blockInstrs b).forM (visitInstr regs)
  return (← get).bins

/-- Allocate the blocks in visiting order, each from the end of its parent. -/
def visitAll (regs : Array Register) (initial : Bins) :
    Std.HashMap BlockId Bins → List Visit → Alloc Unit
  | _, [] => return ()
  | ends, v :: vs => do
    let start := (v.parent.bind fun p => ends[p]?).getD initial
    let bins ← visitBlock regs v.block start
    visitAll regs initial (ends.insert v.block bins) vs

/-- The allocated fragment and how many integer and float temporaries were spilled. -/
structure Outcome where
  fragment : Fragment
  gprsSpilled : Nat
  fprsSpilled : Nat

/-- Give every result a register, inserting spills and fills. -/
def run (f : Fragment) (regs : Array Register) : Except Fault Outcome := do
  let visits := BlockTree.visits f
  let order := visits.map (·.block)
  let s : State :=
    { fragment := f
      bins := { packed := Array.replicate regs.size none }
      positions := number f order }
  let s ← (order.flatMap f.blockInstrs).foldlM record s
  let ((), s) ← visitAll regs s.bins {} visits s
  return ⟨s.fragment, s.gprsSpilled, s.fprsSpilled⟩

end Recompiler.Pass.Allocation
