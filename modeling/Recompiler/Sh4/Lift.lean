import Recompiler.Lift
import Recompiler.Sh4.Op
import Recompiler.Sh4.State

/-!
Lifting of SH4 code. A delayed branch leaves a mark just before the operation that transfers
control, and the code of the slot is inserted there.
-/
namespace Recompiler.Sh4

open IR Recompiler.Lift

namespace Lift

/-! ### Registers -/

def load (f : Field) : Build ValueId := Build.loadContext f.offset .i32
def store (f : Field) (v : ValueId) : Build Unit := Build.storeContext f.offset v

def loadT : Build ValueId := do
  let sr ← load .sr
  Build.and sr (← Build.i32 srT)

/-- Set T from 0 or 1. Nothing else of the status register changes, so the banks stay. -/
def storeT (v : ValueId) : Build Unit := do
  let t ← if (← Build.tyOf v) == .i32 then pure v else Build.zext v .i32
  let sr ← load .sr
  let cleared ← Build.and sr (← Build.i32 (~~~srT))
  store .sr (← Build.or cleared t)

/-- Call a routine with the former value of a register. -/
def notify (r : Routine) (old : ValueId) : Build Unit := do
  let old ← Build.zext old .i64
  Build.call r.address (some old) none

def storeSr (v : ValueId) : Build Unit := do
  let old ← load .sr
  store .sr v
  notify .statusChanged old

def storeFpscr (v : ValueId) : Build Unit := do
  let old ← load .fpscr
  let mask ← Build.i32 fpscrMask
  store .fpscr (← Build.and v mask)
  notify .floatStatusChanged old

/-! ### Groups of instructions -/

/-- Write `f (Rn, Rm)` to `Rn`. -/
def arith (raw : UInt32) (f : ValueId → ValueId → Build ValueId) : Build Unit := do
  let a ← load (.r (rn raw))
  let b ← load (.r (rm raw))
  store (.r (rn raw)) (← f a b)

/-- Write `op (Rn, Rm)` to T. -/
def test (raw : UInt32) (op : Opcode) : Build Unit := do
  let a ← load (.r (rn raw))
  let b ← load (.r (rm raw))
  storeT (← Build.compare op a b)

/-- Extend the low bits of `Rm` into `Rn`. -/
def extend (raw : UInt32) (ty : Ty) (op : Opcode) : Build Unit := do
  let v ← load (.r (rm raw))
  let v ← Build.trunc v ty
  store (.r (rn raw)) (← Build.convert op v .i32)

/-- Load from `@Rm` to `Rn`, extending with the sign. -/
def loadReg (mem : Option FastMem) (raw : UInt32) (ty : Ty) : Build Unit := do
  let addr ← load (.r (rm raw))
  let v ← loadMem mem addr ty
  let v ← if ty == .i32 then pure v else Build.sext v .i32
  store (.r (rn raw)) v

/-- Store the low bits of `Rm` to `@Rn`. -/
def storeReg (mem : Option FastMem) (raw : UInt32) (ty : Ty) : Build Unit := do
  let addr ← load (.r (rn raw))
  let v ← load (.r (rm raw))
  let v ← if ty == .i32 then pure v else Build.trunc v ty
  storeMem mem addr v

/-- Where the next instruction goes. -/
def here : Build InsertPoint := return (← get).point

/-- A conditional branch on T, which is read before the slot. -/
def branchIf (addr raw : UInt32) (op : Opcode) : Build InsertPoint := do
  let cond ← loadT
  let mark ← here
  let dst ← Build.i32 (condTarget addr raw)
  Build.branchIf op cond dst
  return mark

/-- A delayed jump. The slot sees the old link register. -/
def jump (addr : UInt32) (dst : ValueId) (link : Bool) : Build InsertPoint := do
  let mark ← here
  if link then store .pr (← Build.i32 (addr + 4))
  Build.branch dst
  return mark

/-- The target `Rn` plus the pc. -/
def relativeTarget (addr raw : UInt32) : Build ValueId := do
  let r ← load (.r (rn raw))
  let base ← Build.i32 (addr + 4)
  Build.add r base

/-- A jump to a constant. -/
def jumpTo (addr target : UInt32) (link : Bool) : Build InsertPoint := do
  jump addr (← Build.i32 target) link

/-! ### Instructions -/

/-- Write a constant to a register. -/
def storeConst (f : Field) (v : UInt32) : Build Unit := do store f (← Build.i32 v)

/-- Copy a register. -/
def move (dst src : Field) : Build Unit := do store dst (← load src)

/-- The operations of an instruction that does not branch. -/
def simple (mem : Option FastMem) (op : Op) (addr raw : UInt32) : Build Unit :=
  let n := Field.r (rn raw)
  let m := Field.r (rm raw)
  let imm := (simm8 raw).toUInt32
  match op with
  | .movImm => storeConst n imm
  | .mov => move n m
  | .loadByte => loadReg mem raw .i8
  | .loadWord => loadReg mem raw .i16
  | .loadLong => loadReg mem raw .i32
  | .storeByte => storeReg mem raw .i8
  | .storeWord => storeReg mem raw .i16
  | .storeLong => storeReg mem raw .i32
  | .loadPcRel => do
    let place ← Build.i32 (pcRelative addr (imm8 raw))
    store n (← loadMem mem place .i32)
  | .mova => storeConst (.r 0) (pcRelative addr (imm8 raw))
  | .movt => do store n (← loadT)
  | .extSByte => extend raw .i8 .sext
  | .extSWord => extend raw .i16 .sext
  | .extUByte => extend raw .i8 .zext
  | .extUWord => extend raw .i16 .zext
  | .add => arith raw Build.add
  | .addImm => do
    let a ← load n
    store n (← Build.add a (← Build.i32 imm))
  | .sub => arith raw Build.sub
  | .and => arith raw Build.and
  | .or => arith raw Build.or
  | .xor => arith raw Build.xor
  | .not => do
    let v ← load m
    store n (← Build.not v)
  | .dt => do
    let v ← load n
    let r ← Build.sub v (← Build.i32 1)
    store n r
    storeT (← Build.compare .cmpEq r (← Build.i32 0))
  | .shll => do
    let v ← load n
    storeT (← Build.shiftBy .lshr v 31)
    store n (← Build.shiftBy .shl v 1)
  | .shlr => do
    let v ← load n
    storeT (← Build.and v (← Build.i32 1))
    store n (← Build.shiftBy .lshr v 1)
  | .shad => arith raw (Build.shiftSigned .ashd)
  | .shld => arith raw (Build.shiftSigned .lshd)
  | .cmpEq => test raw .cmpEq
  | .cmpHs => test raw .cmpUge
  | .cmpGe => test raw .cmpSge
  | .cmpHi => test raw .cmpUgt
  | .cmpGt => test raw .cmpSgt
  | .cmpEqImm => do
    let r0 ← load (.r 0)
    storeT (← Build.compare .cmpEq r0 (← Build.i32 imm))
  | .tst => do
    let a ← load n
    let b ← load m
    let v ← Build.and a b
    storeT (← Build.compare .cmpEq v (← Build.i32 0))
  | .clrt => do storeT (← Build.i32 0)
  | .sett => do storeT (← Build.i32 1)
  | .ldcSr => do storeSr (← load n)
  | .stcSr => move n .sr
  | .ldsFpscr => do storeFpscr (← load n)
  | .stsFpscr => move n .fpscr
  | .ldsPr => move .pr n
  | .stsPr => move n .pr
  | _ => return ()

/-- The operations of a lifted instruction, and the place for the slot of a branch. -/
def lifted (mem : Option FastMem) (op : Op) (addr raw : UInt32) : Build (Option InsertPoint) :=
  match op with
  | .bt | .btS => some <$> branchIf addr raw .branchTrue
  | .bf | .bfS => some <$> branchIf addr raw .branchFalse
  | .bra => some <$> jumpTo addr (farTarget addr raw) false
  | .bsr => some <$> jumpTo addr (farTarget addr raw) true
  | .braf => do some <$> jump addr (← relativeTarget addr raw) false
  | .bsrf => do some <$> jump addr (← relativeTarget addr raw) true
  | .jmp => do some <$> jump addr (← load (.r (rn raw))) false
  | .jsr => do some <$> jump addr (← load (.r (rn raw))) true
  | .rts => do some <$> jump addr (← load .pr) false
  | op => do
    simple mem op addr raw
    return none

/-- How many times the cost of an instruction is charged in a loop that waits for an interrupt;
this lets the dispatcher reach its interrupt check sooner. -/
def idleScale : UInt32 := 10

/-- Charge an instruction. -/
def charge (op : Op) (addr scale : UInt32) : Build Unit :=
  Build.sourceInfo addr (op.info.cycles * scale)

/-- One instruction, charged and lifted, or left to the interpreter. -/
def instr (mem : Option FastMem) (scale : UInt32) (op : Op) (addr raw : UInt32) :
    Build (Option InsertPoint) := do
  charge op addr scale
  if op.has .loadPc then storeConst .pc addr
  if op.isLifted then lifted mem op addr raw
  else
    Build.fallback Routine.interpret.address addr raw
    return none

/-- Insert the code of a slot at a mark. -/
def insertAt (mark : InsertPoint) (b : Build (Option InsertPoint)) : Build Unit := do
  let back ← here
  Build.update (·.setPoint mark)
  let _ ← b
  Build.update (·.setPoint back)

/-- The delay slot of `op`. The interpreter runs the slot of an instruction left to it. -/
def slot (s : State) (mem : Option FastMem) (scale : UInt32) (op : Op) (mark : Option InsertPoint)
    (addr : UInt32) : Build Unit := do
  let raw := s.fetch addr
  let slotOp := decode raw
  Build.check (!slotOp.has .delayed) (.nestedDelaySlot addr)
  match op.isLifted, mark with
  | true, some mark => insertAt mark (instr mem scale slotOp addr raw)
  | _, _ => charge slotOp addr scale

/-- The instructions from `offset` up to `size` bytes behind `begin`; the last one that is not in a
slot is returned. -/
def instrs (s : State) (mem : Option FastMem) (scale begin : UInt32) (size : Nat) :
    Nat → Nat → Option Op → Build (Option Op)
  | 0, _, last => return last
  | fuel + 1, offset, last => do
    if offset < size then
      let addr := begin + UInt32.ofNat offset
      let raw := s.fetch addr
      let op := decode raw
      let mark ← instr mem scale op addr raw
      if op.has .delayed then
        slot s mem scale op mark (addr + 2)
        instrs s mem scale begin size fuel (offset + 4) (some op)
      else instrs s mem scale begin size fuel (offset + 2) (some op)
    else return last

/-- The way out behind the last instruction. An unconditional branch has left already; an
interpreted instruction that wrote the pc leaves to it; everything else goes on behind the block. -/
def finish (op : Op) (next : UInt32) : Build Unit := do
  if op.has .storePc && !op.has .conditional then
    if !op.isLifted then Build.branch (← load .pc)
  else
    match (← get).order.getLast? with
    | some tail => Build.update (·.atEndOf tail)
    | none => pure ()
    Build.branch (← Build.i32 next)

end Lift

/-! ### Extent of blocks -/

/-- The size of the block at `begin`, from `size` bytes on. -/
def blockSizeFrom (s : State) (begin : UInt32) : Nat → Nat → Except Fault Nat
  | 0, size => .ok size
  | fuel + 1, size => do
    let op := decode (s.fetch (begin + UInt32.ofNat size))
    let next := size + 2
    if op.has .delayed then
      let slotAddr := begin + UInt32.ofNat next
      if (decode (s.fetch slotAddr)).has .delayed then throw (.nestedDelaySlot slotAddr)
    let next := if op.has .delayed then next + 2 else next
    if op.endsBlock || next / 2 ≥ maxBlockInstrs then return next
    else blockSizeFrom s begin fuel next

/-- Blocks go up to the first instruction that ends one, with its slot. -/
def blockSize (s : State) (begin : UInt32) : Except Fault Nat :=
  blockSizeFrom s begin maxBlockInstrs 0

/-- The kinds of instructions of a loop that waits. -/
def idleKinds : Traits := [.load, .conditional, .compare]

/-- A loop that waits goes back at most this many bytes. -/
def idleReach : UInt32 := 32

/-- Whether the rest of a block looks like a loop that waits: `seen` are the properties so far. -/
def isIdleFrom (s : State) (begin : UInt32) : Nat → UInt32 → Bool → Traits → Bool
  | 0, _, _, _ => false
  | fuel + 1, offset, idle, seen =>
    let addr := begin + offset
    let raw := s.fetch addr
    let op := decode raw
    let idle := idle && op.info.traits.meets idleKinds
    let seen := seen ++ op.info.traits
    let slotOp := decode (s.fetch (addr + 2))
    let isDelayed := op.has .delayed
    let idle := if isDelayed then idle && slotOp.info.traits.meets idleKinds else idle
    let seen := if isDelayed then seen ++ slotOp.info.traits else seen
    let offset := if isDelayed then offset + 4 else offset + 2
    if op.endsBlock then
      let near := match branchTarget? addr raw with
        | some target => begin - target ≤ idleReach
        | none => false
      idle && seen.covers idleKinds && (!op.has .storePc || near)
    else if offset.toNat / 2 ≥ maxBlockInstrs then false
    else isIdleFrom s begin fuel offset idle seen

/-- Whether the block only polls memory and goes back to itself: each instruction loads, compares
or branches on a condition, all three occur, and the last branch goes back a short way. -/
def isIdleLoop (s : State) (begin : UInt32) : Bool :=
  isIdleFrom s begin maxBlockInstrs 0 true []

/-- Lift so many bytes. -/
def lift (mem : Option FastMem) (s : State) (begin : UInt32) (size : Nat) : Build Unit := do
  let scale := if isIdleLoop s begin then Lift.idleScale else 1
  match ← Lift.instrs s mem scale begin size size 0 none with
  | some op => Lift.finish op (begin + UInt32.ofNat size)
  | none => throw (.emptyBlock begin)

/-- The lines of a disassembly, from `offset` up to `size` bytes behind `begin`. -/
def listingFrom (s : State) (begin : UInt32) (size : Nat) : Nat → Nat → List String
  | 0, _ => []
  | fuel + 1, offset =>
    if offset < size then
      let line (addr : UInt32) : String := "# " ++ disassembly addr (s.fetch addr) ++ "\n"
      let addr := begin + UInt32.ofNat offset
      if (decode (s.fetch addr)).has .delayed then
        line addr :: line (addr + 2) :: listingFrom s begin size fuel (offset + 4)
      else line addr :: listingFrom s begin size fuel (offset + 2)
    else []

/-- The disassembly of so many bytes. -/
def listing (s : State) (begin : UInt32) (size : Nat) : String :=
  String.join (listingFrom s begin size size 0)

end Recompiler.Sh4
