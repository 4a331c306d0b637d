import Recompiler.Guest
import Recompiler.IR.Eval
import Recompiler.Interp.Code

/-! Execution of register code. -/
namespace Recompiler.Interp

open IR

variable {σ : Type}

/-- The local area of a running block, and the guest. -/
structure Memory (σ : Type) where
  locals : Array UInt8
  world : World σ

/-- The registers of a running block and its memory. -/
structure Frame (σ : Type) extends Memory σ where
  regs : Array UInt64

/-- What follows an operation. -/
inductive Next where
  | goto (pos : Nat)
  | leave (exit : Exit)
  deriving Repr

namespace Memory

/-- Read the local area. -/
def readLocal (m : Memory σ) (offset : UInt64) (size : Nat) : Except Fault UInt64 :=
  if offset.toNat + size ≤ m.locals.size then .ok (Bytes.read m.locals offset.toNat size)
  else .error .outOfRange

/-- Write the local area. -/
def writeLocal (m : Memory σ) (offset : UInt64) (size : Nat) (v : UInt64) :
    Except Fault (Memory σ) :=
  if offset.toNat + size ≤ m.locals.size then
    .ok { m with locals := Bytes.write m.locals offset.toNat size v }
  else .error .outOfRange

end Memory

/-- The bits that a result of a type keeps. Integers are cut to their width. -/
def fit (ty : Ty) (bits : UInt64) : UInt64 := if ty.isInt then Eval.truncate ty bits else bits

namespace Frame

/-- The bits of an operand. -/
def operand (f : Frame σ) : Operand → UInt64
  | .reg r => f.regs.getD r.toNat 0
  | .imm bits => bits
  | .none | .label _ => 0

/-- Write the result of an operation that has one. -/
def setResult (f : Frame σ) (op : Op) (bits : Option UInt64) : Frame σ :=
  match op.result, bits with
  | some r, some bits => { f with regs := f.regs.setIfInBounds r.toNat (fit op.ty bits) }
  | _, _ => f

end Frame

/-- The width of a context access of a type. -/
def contextWidth (ty : Ty) : Except Fault Width :=
  match Context.width? ty.bytes with
  | some w => .ok w
  | none => .error (.contextSize ty.bytes)

/-- Whether a branch is taken, and its target. -/
def branchOf (op : Op) (a : UInt64) : Bool × Operand :=
  match op.op with
  | .branch => (true, op.args[0])
  | .branchTrue => (a ≠ 0, op.args[1])
  | _ => (a = 0, op.args[1])

/-- Take a branch. -/
def jump (o : Offsets) (code : Code) (f : Frame σ) (target : Operand) :
    Except Fault (Next × Frame σ) :=
  match target with
  | .label pos => .ok (.goto pos, f)
  | .imm addr => do
    let slot ← Exit.slot code.exits addr.toUInt32
    return (.leave (.static slot), { f with world := f.world.set32 o.pc addr.toUInt32 })
  | .reg r =>
    let addr := (f.operand (.reg r)).toUInt32
    .ok (.leave .dynamic, { f with world := f.world.set32 o.pc addr })
  | .none => .error .missingTarget

/-- What an operation that does not branch does. `ty` is its type, `aty` and `bty` are the types of
the first two operands, and `a`, `b` and `c` their bits. Gives the bits of the result, if there is
one. -/
def perform (g : Guest σ) (o : Offsets) (op : Opcode) (ty aty bty : Ty) (a b c : UInt64)
    (m : Memory σ) : Except Fault (Option UInt64 × Memory σ) :=
  match op with
  | .sourceInfo => .ok (none, { m with world := m.world.charge o b.toUInt32 })
  | .fallback => do
    return (none, { m with world := ← g.fallback a b.toUInt32 c.toUInt32 m.world })
  | .call => .ok (none, { m with world := g.call a b c m.world })
  | .loadHost => .ok (some (g.readHost a (.ofBytes ty.bytes) m.world), m)
  | .storeHost =>
    let w := Width.ofBytes ty.bytes
    .ok (none, { m with world := g.writeHost a w (b &&& w.mask) m.world })
  | .loadGuest =>
    let (v, world) := g.read (.ofTy ty) a.toUInt32 m.world
    .ok (some v, { m with world })
  | .storeGuest =>
    let w := Width.ofTy ty
    .ok (none, { m with world := g.write w a.toUInt32 (b &&& w.mask) m.world })
  | .loadContext => do
    let w ← contextWidth ty
    return (some (m.world.ctx.get a.toUInt32.toInt32.toInt w), m)
  | .storeContext => do
    let w ← contextWidth ty
    let ctx := m.world.ctx.set a.toUInt32.toInt32.toInt w b
    return (none, { m with world := { m.world with ctx } })
  | .loadLocal => do return (some (← m.readLocal a ty.bytes), m)
  | .storeLocal => do return (none, ← m.writeLocal a ty.bytes b)
  | op => do return (some (← Eval.apply op ty aty bty a b c), m)

/-- Execute the operation at `pos`. -/
def step (g : Guest σ) (o : Offsets) (code : Code) (pos : Nat) (op : Op) (f : Frame σ) :
    Except Fault (Next × Frame σ) :=
  let a := f.operand op.args[0]
  let b := f.operand op.args[1]
  let c := f.operand op.args[2]
  let next := Next.goto (pos + 1)
  if op.op.isBranch then
    let (taken, target) := branchOf op a
    if taken then jump o code f target else .ok (next, f)
  else do
    let (bits, memory) ← perform g o op.op op.ty op.argTys[0] op.argTys[1] a b c f.toMemory
    return (next, { f with toMemory := memory }.setResult op bits)

/-- Execute from `pos` on, for at most `fuel` operations. Past the end the pc stays as it is. -/
def run (g : Guest σ) (o : Offsets) (code : Code) :
    Nat → Nat → Frame σ → Except Fault (Exit × World σ)
  | 0, _, _ => .error .outOfFuel
  | fuel + 1, pos, f =>
    match code.ops[pos]? with
    | none => .ok (.dynamic, f.world)
    | some op => do
      match ← step g o code pos op f with
      | (.goto pos, f) => run g o code fuel pos f
      | (.leave exit, f) => return (exit, f.world)

/-- Execute a block on `nregs` registers. -/
def Code.execute (g : Guest σ) (o : Offsets) (nregs fuel : Nat) (code : Code) (w : World σ) :
    Except Fault (Exit × World σ) :=
  run g o code fuel 0
    { regs := Array.replicate nregs 0, locals := Array.replicate code.localsSize 0, world := w }

end Recompiler.Interp
