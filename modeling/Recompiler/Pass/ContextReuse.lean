import Recompiler.IR.Fragment

/-!
Reuse of context loads and removal of context stores that a later store of the same block covers.
The bytes of the context whose contents are known are kept as disjoint entries; an access drops
every entry it touches.
-/
namespace Recompiler.Pass.ContextReuse

open IR

/-- The bytes from `offset` on hold `value`. -/
structure Entry where
  offset : Int
  size : Nat
  value : ValueId
  deriving Repr

/-- What is known of the context. -/
abbrev Known := List Entry

namespace Known

/-- The value that starts at `offset`. -/
def get? (k : Known) (offset : Int) : Option ValueId :=
  (k.find? fun e => e.offset == offset).map (·.value)

/-- Drop every entry that shares a byte with the range, or that an empty range divides. -/
def erase (k : Known) (offset : Int) (size : Nat) : Known :=
  k.filter fun e => !(e.offset < offset + size && offset < e.offset + e.size)

/-- Record a value of `size` bytes. -/
def set (k : Known) (offset : Int) (size : Nat) (v : ValueId) : Known :=
  let k := k.erase offset size
  if size = 0 then k else ⟨offset, size, v⟩ :: k

end Known

/-- The offset of a context access, if it is constant and not negative. -/
def contextOffset? (f : Fragment) (ins : Instr) : Except Fault (Option Int) :=
  match ins.arg 0 with
  | none => .ok none
  | some v =>
    if f.isConstant v then do
      let offset := (← (f.value v).i32).toInt32.toInt
      return if offset ≥ 0 then some offset else none
    else .ok none

/-- A fragment under change, what is known at this point, and how many instructions went. -/
structure State where
  fragment : Fragment
  known : Known := []
  removed : Nat := 0

/-- Going forward: reuse a load whose value is known, record loads and stores. -/
def forwardInstr (s : State) (i : InstrId) : Except Fault State := do
  let f := s.fragment
  let ins := f.instr i
  match ins.op with
  | .loadContext =>
    let result ← f.resultOf i
    match ← contextOffset? f ins with
    | none => return { s with known := [] }
    | some offset =>
      match (s.known.get? offset).filter fun v => f.ty v == f.ty result with
      | some v =>
        let f ← f.replaceUses result v
        return { s with fragment := ← f.removeInstr i, removed := s.removed + 1 }
      | none =>
        let size := (f.ty result).bytes
        let _ ← checked32 (offset + size)
        return { s with known := s.known.set offset size result }
  | .storeContext =>
    match ← contextOffset? f ins with
    | none => return { s with known := [] }
    | some offset =>
      match ins.arg 1 with
      | some v =>
        let size := (f.ty v).bytes
        let _ ← checked32 (offset + size)
        return { s with known := s.known.set offset size v }
      | none => return s
  | op => return if op.isCall then { s with known := [] } else s

/-- Going backward: drop a store whose bytes a later store covers before anything can see them. -/
def backwardInstr (s : State) (i : InstrId) : Except Fault State := do
  let f := s.fragment
  let ins := f.instr i
  match ins.op with
  | .loadContext =>
    let size := (f.ty (← f.resultOf i)).bytes
    match ← contextOffset? f ins with
    | some offset =>
      let _ ← checked32 (offset + size)
      return { s with known := s.known.erase offset size }
    | none => return { s with known := [] }
  | .storeContext =>
    match ← contextOffset? f ins with
    | none => return { s with known := [] }
    | some offset =>
      match ins.arg 1 with
      | none => return s
      | some v =>
        let size := (f.ty v).bytes
        let later := ((s.known.get? offset).map fun w => (f.ty w).bytes).getD 0
        if later ≥ size then
          return { s with fragment := ← f.removeInstr i, removed := s.removed + 1 }
        else
          let _ ← checked32 (offset + size)
          return { s with known := s.known.set offset size v }
  | op => return if op.isCall || op.isBranch then { s with known := [] } else s

def forwardBlock (s : State) (b : BlockId) : Except Fault State :=
  (s.fragment.blockInstrs b).foldlM forwardInstr { s with known := [] }

def backwardBlock (s : State) (b : BlockId) : Except Fault State :=
  (s.fragment.blockInstrsBackward b).foldlM backwardInstr { s with known := [] }

/-- Reuse loads, then drop stores; returns how many of each. -/
def run (f : Fragment) : Except Fault (Fragment × Nat × Nat) := do
  let loads ← f.order.foldlM forwardBlock { fragment := f }
  let f := loads.fragment
  let stores ← f.order.foldlM backwardBlock { fragment := f }
  return (stores.fragment, loads.removed, stores.removed)

end Recompiler.Pass.ContextReuse
