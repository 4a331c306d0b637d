import Recompiler.IR.Constant
import Recompiler.Index

/-!
A fragment: the blocks, instructions, values and local slots made for one run of guest code.
Instructions are linked into their block; a removed instruction keeps its number.
-/
namespace Recompiler.IR

/-- An argument position. -/
abbrev Slot := Fin 3

/-- The position numbered `n`. -/
def Slot.ofNat (n : Nat) : Except Fault Slot :=
  if h : n < 3 then .ok ⟨n, h⟩ else .error .outOfRange

/-- Fill a position of a row with one entry for each position. -/
def Slot.put {α : Type} (n : Slot) (a : α) (row : Vector α 3) : Vector α 3 := row.set n a

/-- One argument position that refers to a value. -/
structure Use where
  instr : InstrId
  slot : Slot
  deriving DecidableEq, Repr

/-- Where a value comes from. -/
inductive Origin where
  | constant (c : Constant)
  | result (instr : InstrId)
  deriving DecidableEq, Repr

instance : Inhabited Origin := ⟨.result default⟩

/-- A typed operand. -/
structure Value where
  ty : Ty
  origin : Origin
  /-- The register chosen by allocation. -/
  reg : Option UInt8 := none
  /-- The positions that refer to the value, oldest first. -/
  uses : List Use := []
  deriving Inhabited, Repr

namespace Value

def isConstant (v : Value) : Bool :=
  match v.origin with
  | .constant _ => true
  | .result _ => false

def constant? (v : Value) : Option Constant :=
  match v.origin with
  | .constant c => some c
  | .result _ => none

/-- The instruction that produces the value. -/
def definition? (v : Value) : Option InstrId :=
  match v.origin with
  | .constant _ => none
  | .result i => some i

/-- The payload of a constant whose type is exactly `wanted`. -/
def payload (v : Value) (wanted : Ty) : Except Fault Constant :=
  match v.constant? with
  | some c => if c.ty = wanted then .ok c else .error (.notConstant wanted v.ty true)
  | none => .error (.notConstant wanted v.ty false)

/-- The bits of a scalar constant whose type is exactly `wanted`. -/
def scalar (v : Value) (wanted : Ty) : Except Fault UInt64 := do
  let c ← v.payload wanted
  match c.bits? with
  | some b => return b
  | none => throw (.notConstant wanted v.ty true)

/-- The bits of a 32-bit integer constant. -/
def i32 (v : Value) : Except Fault UInt32 := UInt64.toUInt32 <$> v.scalar .i32

/-- The block a reference names. -/
def block (v : Value) : Except Fault BlockId := do
  match ← v.payload .blk with
  | .blk b => return b
  | _ => throw (.notConstant .blk v.ty true)

/-- The text of a string constant. -/
def text (v : Value) : Except Fault String :=
  match v.constant? with
  | some (.str s) => .ok s
  | _ => .error (.notText v.ty)

/-- An integer constant, extended with zeros. -/
def zext (v : Value) : Except Fault UInt64 :=
  match v.constant?.bind Constant.zext? with
  | some b => .ok b
  | none => .error (.notInteger v.ty)

/-- An integer constant, extended with its sign. -/
def sext (v : Value) : Except Fault Int64 :=
  match v.constant?.bind Constant.sext? with
  | some n => .ok n
  | none => .error (.notInteger v.ty)

/-- The bits of a scalar constant, extended with zeros. -/
def bits (v : Value) : Except Fault UInt64 :=
  match v.constant?.bind Constant.bits? with
  | some b => .ok b
  | none => .error (.notInteger v.ty)

end Value

/-- An instruction and its neighbours in the block. -/
structure Instr where
  op : Opcode
  args : Vector (Option ValueId) 3 := Vector.replicate 3 none
  result : Option ValueId := none
  label : Option String := none
  block : BlockId
  prev : Option InstrId := none
  next : Option InstrId := none
  removed : Bool := false
  deriving Inhabited, Repr

namespace Instr

/-- The argument in position `n`. -/
def arg (i : Instr) (n : Slot) : Option ValueId := i.args.get n

/-- The filled positions with their values. -/
def operands (i : Instr) : List (Slot × ValueId) :=
  (List.finRange 3).filterMap fun n => (i.arg n).map (n, ·)

end Instr

/-- A run of instructions and the blocks it may continue with. -/
structure Block where
  label : Option String := none
  head : Option InstrId := none
  tail : Option InstrId := none
  edges : List BlockId := []
  deriving Inhabited, Repr

/-- A typed slot of the local area. -/
structure Local where
  ty : Ty
  offset : Int
  deriving DecidableEq, Inhabited, Repr

/-- Where the next instruction goes: after `after`, or first in `block`. -/
structure InsertPoint where
  block : Option BlockId := none
  after : Option InstrId := none
  deriving DecidableEq, Inhabited, Repr

/-- Everything made for one run of guest code. -/
structure Fragment where
  values : Array Value := #[]
  instrs : Array Instr := #[]
  blocks : Array Block := #[]
  /-- Program order of the blocks. -/
  order : List BlockId := []
  locals : Array Local := #[]
  localsSize : Int := 0
  point : InsertPoint := {}
  deriving Inhabited, Repr

namespace Fragment

/-- The fragment without blocks. -/
def empty : Fragment := {}

def value (f : Fragment) (v : ValueId) : Value := f.values.getD v.index default
def instr (f : Fragment) (i : InstrId) : Instr := f.instrs.getD i.index default
def block (f : Fragment) (b : BlockId) : Block := f.blocks.getD b.index default
def localSlot (f : Fragment) (l : LocalId) : Local := f.locals.getD l.index default

def ty (f : Fragment) (v : ValueId) : Ty := (f.value v).ty
def isConstant (f : Fragment) (v : ValueId) : Bool := (f.value v).isConstant

def modifyValue (f : Fragment) (v : ValueId) (g : Value → Value) : Fragment :=
  { f with values := f.values.modify v.index g }

def modifyInstr (f : Fragment) (i : InstrId) (g : Instr → Instr) : Fragment :=
  { f with instrs := f.instrs.modify i.index g }

def modifyBlock (f : Fragment) (b : BlockId) (g : Block → Block) : Fragment :=
  { f with blocks := f.blocks.modify b.index g }

/-! ### Values -/

/-- Add a value. -/
def addValue (f : Fragment) (v : Value) : Fragment × ValueId :=
  ({ f with values := f.values.push v }, ⟨f.values.size⟩)

/-- Add a constant. -/
def addConstant (f : Fragment) (c : Constant) : Fragment × ValueId :=
  f.addValue { ty := c.ty, origin := .constant c }

/-- Add the scalar of type `ty` with the low bits of `bits`. -/
def addScalar (f : Fragment) (ty : Ty) (bits : UInt64) : Except Fault (Fragment × ValueId) :=
  match Constant.ofBits? ty bits with
  | some c => .ok (f.addConstant c)
  | none => .error (.noBits ty)

/-! ### Blocks -/

/-- Add an empty block at the end. -/
def appendBlock (f : Fragment) : Fragment × BlockId :=
  let b : BlockId := ⟨f.blocks.size⟩
  ({ f with blocks := f.blocks.push {}, order := f.order ++ [b] }, b)

/-- The list with `b` right after the first `a`, or at the end. -/
def insertAfter (a b : BlockId) : List BlockId → List BlockId
  | [] => [b]
  | x :: xs => if x = a then x :: b :: xs else x :: insertAfter a b xs

/-- Add an empty block right after `a` in program order. -/
def insertBlockAfter (f : Fragment) (a : BlockId) : Fragment × BlockId :=
  let b : BlockId := ⟨f.blocks.size⟩
  ({ f with blocks := f.blocks.push {}, order := insertAfter a b f.order }, b)

def setBlockLabel (f : Fragment) (b : BlockId) (label : String) : Fragment :=
  f.modifyBlock b ({ · with label := some label })

/-- The first block in program order with this label. -/
def findBlock? (f : Fragment) (label : String) : Option BlockId :=
  f.order.find? fun b => (f.block b).label == some label

/-- Record that control may pass from `a` to `b`, once. -/
def addEdge (f : Fragment) (a b : BlockId) : Fragment :=
  f.modifyBlock a fun blk =>
    if blk.edges.contains b then blk else { blk with edges := blk.edges ++ [b] }

/-! ### Instructions -/

/-- Follow `step` from `cur`, for at most as many instructions as there are. -/
def walk (step : InstrId → Option InstrId) : Nat → Option InstrId → List InstrId
  | 0, _ => []
  | _, none => []
  | n + 1, some i => i :: walk step n (step i)

/-- The instructions of a block, first to last. -/
def blockInstrs (f : Fragment) (b : BlockId) : List InstrId :=
  walk (fun i => (f.instr i).next) f.instrs.size (f.block b).head

/-- The instructions of a block, last to first. -/
def blockInstrsBackward (f : Fragment) (b : BlockId) : List InstrId :=
  walk (fun i => (f.instr i).prev) f.instrs.size (f.block b).tail

/-- Every linked instruction in program order. -/
def allInstrs (f : Fragment) : List InstrId := f.order.flatMap f.blockInstrs

/-- The result of an instruction that has one. -/
def resultOf (f : Fragment) (i : InstrId) : Except Fault ValueId :=
  match (f.instr i).result with
  | some v => .ok v
  | none => .error (.noResult (f.instr i).op)

/-- How many instructions have not been removed. -/
def liveInstrs (f : Fragment) : Nat := f.instrs.foldl (fun n i => if i.removed then n else n + 1) 0

def setInstrLabel (f : Fragment) (i : InstrId) (label : String) : Fragment :=
  f.modifyInstr i ({ · with label := some label })

/-- The first instruction in program order with this label. -/
def findInstr? (f : Fragment) (label : String) : Option InstrId :=
  f.allInstrs.find? fun i => (f.instr i).label == some label

/-! ### Insert point -/

def setPoint (f : Fragment) (p : InsertPoint) : Fragment := { f with point := p }

/-- Continue at the end of `b`. -/
def atEndOf (f : Fragment) (b : BlockId) : Fragment :=
  f.setPoint { block := some b, after := (f.block b).tail }

/-- Continue right after `i`. -/
def afterInstr (f : Fragment) (i : InstrId) : Fragment :=
  f.setPoint { block := some (f.instr i).block, after := some i }

/-- Continue right before `i`. -/
def beforeInstr (f : Fragment) (i : InstrId) : Fragment :=
  f.setPoint { block := some (f.instr i).block, after := (f.instr i).prev }

/-- The instruction of `b` that follows `after`, or the first one. -/
def following (f : Fragment) (b : BlockId) : Option InstrId → Option InstrId
  | some a => (f.instr a).next
  | none => (f.block b).head

/-- Link `i` into `b`, after `after` or at the head. -/
def linkAfter (f : Fragment) (b : BlockId) (after : Option InstrId) (i : InstrId) : Fragment :=
  let next := f.following b after
  let f := f.modifyInstr i ({ · with prev := after, next := next })
  let f := match after with
    | some a => f.modifyInstr a ({ · with next := some i })
    | none => f.modifyBlock b ({ · with head := some i })
  match next with
  | some n => f.modifyInstr n ({ · with prev := some i })
  | none => f.modifyBlock b ({ · with tail := some i })

/-- The current block; a block is appended if there is none. -/
def ensureBlock (f : Fragment) : Fragment × BlockId :=
  match f.point.block with
  | some b => (f, b)
  | none =>
    let (f, b) := f.appendBlock
    (f.setPoint { block := some b }, b)

/-- Create an instruction at the insert point and move the point past it. -/
def appendInstr (f : Fragment) (op : Opcode) (resultTy : Option Ty) : Fragment × InstrId :=
  let (f, b) := f.ensureBlock
  let i : InstrId := ⟨f.instrs.size⟩
  let (f, result) := match resultTy with
    | some ty =>
      let (f, v) := f.addValue { ty, origin := .result i }
      (f, some v)
    | none => (f, none)
  let f := { f with instrs := f.instrs.push { op, result, block := b } }
  let f := f.linkAfter b f.point.after i
  (f.setPoint { f.point with after := some i }, i)

/-- Empty an argument position. -/
def clearArg (f : Fragment) (i : InstrId) (n : Slot) : Fragment :=
  match (f.instr i).arg n with
  | some v =>
    let f := f.modifyInstr i fun ins => { ins with args := Slot.put n none ins.args }
    f.modifyValue v fun val => { val with uses := val.uses.filter (· != ⟨i, n⟩) }
  | none => f

/-- Fill an argument position. -/
def setArg (f : Fragment) (i : InstrId) (n : Slot) (v : ValueId) : Fragment :=
  let f := f.clearArg i n
  let f := f.modifyInstr i fun ins => { ins with args := Slot.put n (some v) ins.args }
  f.modifyValue v fun val => { val with uses := val.uses ++ [⟨i, n⟩] }

/-- Fill the positions from the first on. -/
def setArgs (f : Fragment) (i : InstrId) (vs : List ValueId) : Fragment :=
  ((List.finRange 3).zip vs).foldl (fun f (n, v) => f.setArg i n v) f

/-- Empty every argument position. -/
def clearArgs (f : Fragment) (i : InstrId) : Fragment :=
  (List.finRange 3).foldl (fun f n => f.clearArg i n) f

/-- Join the neighbours of `i` and take it out of its block. -/
def unlink (f : Fragment) (i : InstrId) : Fragment :=
  let ins := f.instr i
  let f := match ins.prev with
    | some p => f.modifyInstr p ({ · with next := ins.next })
    | none => f.modifyBlock ins.block ({ · with head := ins.next })
  let f := match ins.next with
    | some n => f.modifyInstr n ({ · with prev := ins.prev })
    | none => f.modifyBlock ins.block ({ · with tail := ins.prev })
  let f := if f.point.after = some i then f.setPoint { f.point with after := ins.prev } else f
  f.modifyInstr i ({ · with prev := none, next := none, removed := true })

/-- Take an instruction out of its block and drop its arguments. Its result must be unused. -/
def removeInstr (f : Fragment) (i : InstrId) : Except Fault Fragment :=
  let ins := f.instr i
  if ins.removed then .error .removedTwice
  else if ins.result.any fun v => !(f.value v).uses.isEmpty then .error (.stillUsed ins.op)
  else .ok ((f.clearArgs i).unlink i)

/-- Redirect one use to `v`. -/
def redirect (f : Fragment) (u : Use) (v : ValueId) : Fragment :=
  let f := f.modifyInstr u.instr fun ins => { ins with args := Slot.put u.slot (some v) ins.args }
  f.modifyValue v fun val => { val with uses := val.uses ++ [u] }

/-- Redirect every use of `a` to `b`, which must be another value of the same type. -/
def replaceUses (f : Fragment) (a b : ValueId) : Except Fault Fragment :=
  if a = b then .error .selfReplacement
  else if f.ty a ≠ f.ty b then .error .replacementType
  else
    .ok ((f.value a).uses.foldl (fun f u => f.redirect u b)
      (f.modifyValue a ({ · with uses := [] })))

/-! ### Local slots -/

/-- The least multiple of `align` that is at least `n`. -/
def alignUp (n align : Int) : Int := (n + align - 1) / align * align

/-- The size that a local area cannot pass. Offsets into it are signed 32-bit numbers. -/
def maxLocalsSize : Int := 0x7fffffff

/-- Add a naturally aligned slot. -/
def allocLocal (f : Fragment) (ty : Ty) : Except Fault (Fragment × LocalId) :=
  if ty.bytes = 0 then .error (.noStorage ty)
  else
    let offset := alignUp f.localsSize ty.bytes
    if offset + ty.bytes > maxLocalsSize then .error .overflow
    else
      .ok ({ f with locals := f.locals.push { ty, offset }, localsSize := offset + ty.bytes },
        ⟨f.locals.size⟩)

/-- The slot of this type at this offset, made if it does not exist. -/
def reserveLocal (f : Fragment) (ty : Ty) (offset : Int) : Except Fault (Fragment × LocalId) :=
  match f.locals.findIdx? (· == { ty, offset }) with
  | some n => .ok (f, ⟨n⟩)
  | none =>
    if offset + ty.bytes > maxLocalsSize then .error .overflow
    else
      .ok ({ f with
          locals := f.locals.push { ty, offset }
          localsSize := max f.localsSize (offset + ty.bytes) },
        ⟨f.locals.size⟩)

end Fragment
end Recompiler.IR
