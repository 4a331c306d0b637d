import Recompiler.Proofs.IR.Chain

/-!
Requests to a fragment. Clients make and change a fragment by one request after another; a request
that names a value, an instruction or a block that is not there faults.
-/
namespace Recompiler.IR

namespace Build

/-- A building method with its operands. -/
inductive Method where
  | sourceInfo (addr cycles : UInt32)
  | fallback (routine : UInt64) (addr raw : UInt32)
  | loadContext (offset : Int) (ty : Ty)
  | storeContext (offset : Int) (v : ValueId)
  | loadLocal (l : LocalId)
  | storeLocal (l : LocalId) (v : ValueId)
  | call (routine : UInt64) (a b : Option ValueId)
  /-- A shift by a constant. -/
  | shiftBy (op : Opcode) (a : ValueId) (n : UInt32)
  /-- An operation on values. `ty` is the type of the result where the operands leave it open. -/
  | operate (op : Opcode) (ty : Ty) (a b c : ValueId)

namespace Method

/-- The values a method refers to. -/
def operands : Method → List ValueId
  | storeContext _ v | storeLocal _ v | shiftBy _ v _ => [v]
  | call _ a b => a.toList ++ b.toList
  | operate op _ a b c => [a, b, c].take op.info.arity
  | sourceInfo .. | fallback .. | loadContext .. | loadLocal _ => []

/-- The local slots a method refers to. -/
def slots : Method → List LocalId
  | loadLocal l | storeLocal l _ => [l]
  | _ => []

/-- Run a method. Only shifts shift by a constant. -/
def run : Method → Build Unit
  | sourceInfo addr cycles => Build.sourceInfo addr cycles
  | fallback routine addr raw => Build.fallback routine addr raw
  | loadContext offset ty => do let _ ← Build.loadContext offset ty
  | storeContext offset v => Build.storeContext offset v
  | loadLocal l => do let _ ← Build.loadLocal l
  | storeLocal l v => Build.storeLocal l v
  | call routine a b => Build.call routine a b
  | shiftBy op a n =>
    match op.kind with
    | .shift => do let _ ← Build.shiftBy op a n
    | _ => return ()
  | operate op ty a b c => do let _ ← Build.ofOpcode op ty a b c

end Method
end Build

namespace Fragment

variable {f f' f'' : Fragment} {i : InstrId}

/-- The instruction is there and has not been removed. -/
def Live (f : Fragment) (i : InstrId) : Prop :=
  i.index < f.instrs.size ∧ (f.instr i).removed = false

/-- Whether the next instruction has a block to go into, or a new one will be made for it. -/
def canAppend (f : Fragment) : Bool := f.point.block.all (·.index < f.blocks.size)

/-- A request to a fragment. -/
inductive Request where
  | constant (c : Constant)
  | scalar (ty : Ty) (bits : UInt64)
  | appendBlock
  | insertBlockAfter (b : BlockId)
  | setBlockLabel (b : BlockId) (label : String)
  | addEdge (a b : BlockId)
  | appendInstr (op : Opcode) (ty : Option Ty)
  | removeInstr (i : InstrId)
  | setInstrLabel (i : InstrId) (label : String)
  | setArg (i : InstrId) (n : Nat) (v : ValueId)
  | clearArg (i : InstrId) (n : Nat)
  | replaceUses (a b : ValueId)
  | setPoint (p : InsertPoint)
  | atEndOf (b : BlockId)
  | afterInstr (i : InstrId)
  | beforeInstr (i : InstrId)
  | allocLocal (ty : Ty)
  | reserveLocal (ty : Ty) (offset : Int)
  | method (m : Build.Method)

namespace Request

/-- Whether everything the request looks up is there. -/
def found (f : Fragment) : Request → Bool
  | constant _ | scalar .. | appendBlock | insertBlockAfter _ | setPoint _ | allocLocal _
  | reserveLocal .. => true
  | setBlockLabel b _ | addEdge b _ | atEndOf b => b.index < f.blocks.size
  | removeInstr i | setInstrLabel i _ | clearArg i _ | afterInstr i | beforeInstr i =>
    i.index < f.instrs.size
  | setArg i _ v => i.index < f.instrs.size && v.index < f.values.size
  | replaceUses a b => a.index < f.values.size && b.index < f.values.size
  | appendInstr .. => f.canAppend
  | method m => f.canAppend && m.operands.all (·.index < f.values.size) &&
    m.slots.all (·.index < f.locals.size)

/-- The fragment after a request whose subjects are there. -/
def apply (f : Fragment) : Request → Except Fault Fragment
  | constant c => .ok (f.addConstant c).1
  | scalar ty bits => (f.addScalar ty bits).map (·.1)
  | appendBlock => .ok f.appendBlock.1
  | insertBlockAfter b => .ok (f.insertBlockAfter b).1
  | setBlockLabel b label => .ok (f.setBlockLabel b label)
  | addEdge a b => .ok (f.addEdge a b)
  | appendInstr op ty => .ok (f.appendInstr op ty).1
  | removeInstr i => f.removeInstr i
  | setInstrLabel i label => .ok (f.setInstrLabel i label)
  | setArg i n v => (Slot.ofNat n).map (f.setArg i · v)
  | clearArg i n => (Slot.ofNat n).map (f.clearArg i ·)
  | replaceUses a b => f.replaceUses a b
  | setPoint p => .ok (f.setPoint p)
  | atEndOf b => .ok (f.atEndOf b)
  | afterInstr i => .ok (f.afterInstr i)
  | beforeInstr i => .ok (f.beforeInstr i)
  | allocLocal ty => (f.allocLocal ty).map (·.1)
  | reserveLocal ty offset => (f.reserveLocal ty offset).map (·.1)
  | method m => (m.run f).map (·.2)

/-- The fragment after a request. -/
def serve (f : Fragment) (r : Request) : Except Fault Fragment :=
  if r.found f then r.apply f else .error .outOfRange

/-- Arguments are set on live instructions, and an insert point that is set stands behind a live
instruction of its block. -/
def Allowed (f : Fragment) : Request → Prop
  | setArg i _ _ | afterInstr i | beforeInstr i => f.Live i
  | setPoint p => ∀ b a, p.block = some b → p.after = some a → f.Live a ∧ (f.instr a).block = b
  | _ => True

end Request

/-- The requests lead from one fragment to the other; each is allowed, and none faults. -/
inductive Serves : Fragment → List Request → Fragment → Prop
  | nil (f : Fragment) : Serves f [] f
  | cons {r : Request} {rs : List Request} {f f' f'' : Fragment} (allowed : r.Allowed f)
      (done : r.serve f = .ok f') (rest : Serves f' rs f'') : Serves f (r :: rs) f''

theorem Request.serve_eq_ok {r : Request} (h : r.serve f = .ok f') :
    r.found f = true ∧ r.apply f = .ok f' := by
  unfold serve at h
  split at h
  · exact ⟨‹_›, h⟩
  · cases h

end Fragment
end Recompiler.IR
