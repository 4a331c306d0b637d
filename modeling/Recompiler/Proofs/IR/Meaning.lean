import Recompiler.Interp.Exec
import Recompiler.Proofs.Machine

/-!
The meaning of a fragment: its instructions run one after another on a store of values. With a cell
for each value the meaning does not depend on registers; on a register file it is that of allocated
code. What a single operation does is the same in both, and is what register code does.
-/
namespace Recompiler.Meaning

open IR Interp Machine

/-- A place for results. -/
structure Store (α : Type) where
  get : α → ValueId → UInt64
  set : α → ValueId → UInt64 → α

/-- A cell for each value. -/
abbrev Cells := ValueId → UInt64

def cells : Store Cells where
  get s v := s v
  set s v bits := fun u => if u = v then bits else s u

/-- The registers that values are assigned to. A value without one is not kept. -/
def registers (f : Fragment) : Store (Array UInt64) where
  get s v :=
    match (f.value v).reg with
    | some r => s.getD r.toNat 0
    | none => 0
  set s v bits :=
    match (f.value v).reg with
    | some r => s.setIfInBounds r.toNat bits
    | none => s

/-- The place before an instruction: what is left of its block, and the blocks behind it. -/
structure Point where
  code : List InstrId
  blocks : List BlockId

/-- The place before the first instruction of a block. -/
def startOf (f : Fragment) (b : BlockId) : Point :=
  ⟨f.blockInstrs b, (f.order.dropWhile (· ≠ b)).tail⟩

variable {α σ : Type}

/-- A fragment at work. -/
structure Config (α σ : Type) where
  point : Point
  store : α
  memory : Memory σ

/-- How the run of a fragment ends. -/
abbrev Result (σ : Type) := Except Fault (Exit × World σ)

section
variable (f : Fragment) (st : Store α)

/-- The bits of a value. -/
def bits (s : α) (v : ValueId) : UInt64 :=
  match (f.value v).origin with
  | .constant c => c.bits?.getD 0
  | .result _ => st.get s v

/-- The bits of an argument; a missing one is zero. -/
def argBits (s : α) (ins : Instr) (n : Slot) : UInt64 :=
  match ins.arg n with
  | some v => bits f st s v
  | none => 0

/-- Keep the result of an instruction, if it has one. -/
def keep (ins : Instr) (s : α) (bits : Option UInt64) : α :=
  match ins.result, bits with
  | some v, some bits => st.set s v (fit (f.ty v) bits)
  | _, _ => s

/-- Whether a branch is taken, given its condition. -/
def isTaken (op : Opcode) (a : UInt64) : Bool :=
  match op with
  | .branch => true
  | .branchTrue => a ≠ 0
  | _ => a = 0

/-- Take a branch. -/
def jump (o : Offsets) (s : α) (m : Memory σ) (target : Option ValueId) :
    Turn (Config α σ) (Result σ) :=
  match target with
  | none => .stop (.error .missingTarget)
  | some v =>
    match (f.value v).origin with
    | .constant (.blk b) => .go ⟨startOf f b, s, m⟩
    | .constant c =>
      let addr := (c.bits?.getD 0).toUInt32
      match Exit.slot (Exit.statics f) addr with
      | .ok n => .stop (.ok (.static n, m.world.set32 o.pc addr))
      | .error e => .stop (.error e)
    | .result _ => .stop (.ok (.dynamic, m.world.set32 o.pc (st.get s v).toUInt32))

/-- Run the instruction `i`; `rest` is the place behind it. -/
def runInstr (g : Guest σ) (o : Offsets) (i : InstrId) (rest : Point) (s : α) (m : Memory σ) :
    Turn (Config α σ) (Result σ) :=
  let ins := f.instr i
  let a := argBits f st s ins 0
  if ins.op.isBranch then
    if isTaken ins.op a then jump f st o s m (Exit.target? ins) else .go ⟨rest, s, m⟩
  else
    match perform g o ins.op (opTy f ins) (argTy f ins 0) (argTy f ins 1) a (argBits f st s ins 1)
      (argBits f st s ins 2) m with
    | .ok (bits, m) => .go ⟨rest, keep f st ins s bits, m⟩
    | .error e => .stop (.error e)

/-- One step: an instruction, or the way into the next block. -/
def step (g : Guest σ) (o : Offsets) (c : Config α σ) : Turn (Config α σ) (Result σ) :=
  match c.point with
  | ⟨i :: code, blocks⟩ => runInstr f st g o i ⟨code, blocks⟩ c.store c.memory
  | ⟨[], b :: blocks⟩ => .go { c with point := ⟨f.blockInstrs b, blocks⟩ }
  | ⟨[], []⟩ => .stop (.ok (.dynamic, c.memory.world))

theorem step_instr (g : Guest σ) (o : Offsets) (i : InstrId) (code : List InstrId)
    (blocks : List BlockId) (s : α) (m : Memory σ) :
    step f st g o ⟨⟨i :: code, blocks⟩, s, m⟩ = runInstr f st g o i ⟨code, blocks⟩ s m := rfl

theorem step_enter (g : Guest σ) (o : Offsets) (b : BlockId) (blocks : List BlockId) (s : α)
    (m : Memory σ) :
    step f st g o ⟨⟨[], b :: blocks⟩, s, m⟩ = .go ⟨⟨f.blockInstrs b, blocks⟩, s, m⟩ := rfl

theorem step_end (g : Guest σ) (o : Offsets) (s : α) (m : Memory σ) :
    step f st g o ⟨⟨[], []⟩, s, m⟩ = .stop (.ok (.dynamic, m.world)) := rfl

/-- The state in which a fragment is entered. -/
def start (s : α) (w : World σ) : Config α σ :=
  ⟨⟨[], f.order⟩, s, ⟨Array.replicate f.localsSize.toNat 0, w⟩⟩

end

/-- Evaluated with a cell for each value, the fragment ends with `r`. -/
def Evaluates (g : Guest σ) (o : Offsets) (f : Fragment) (w : World σ) (r : Result σ) : Prop :=
  Ends (step f cells g o) (start f (fun _ => 0) w) r

end Recompiler.Meaning
