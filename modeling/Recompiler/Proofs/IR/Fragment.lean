import Mathlib
import Recompiler.IR.Builder

/-! What the operations of a fragment do to its values, instructions and blocks. -/
namespace Recompiler.IR

theorem Slot.forall {P : Slot → Prop} (h₀ : P 0) (h₁ : P 1) (h₂ : P 2) (n : Slot) : P n := by
  obtain ⟨n, hn⟩ := n
  rcases n with _ | _ | _ | n
  · exact h₀
  · exact h₁
  · exact h₂
  · omega

theorem Slot.get_put {α : Type} (n m : Slot) (a : α) (row : Vector α 3) :
    (n.put a row).get m = if m = n then a else row.get m := by
  change (row.set n.val a)[m.val] = if m = n then a else row[m.val]
  rw [Vector.getElem_set]
  simp only [eq_comm, Fin.ext_iff]

theorem ValueId.ext_index {u v : ValueId} (h : u.index = v.index) : u = v := by
  cases u
  cases v
  cases h
  rfl

theorem InstrId.ext_index {i j : InstrId} (h : i.index = j.index) : i = j := by
  cases i
  cases j
  cases h
  rfl

theorem BlockId.ext_index {a b : BlockId} (h : a.index = b.index) : a = b := by
  cases a
  cases b
  cases h
  rfl

theorem getD_modify {α : Type} (xs : Array α) (i j : Nat) (g : α → α) (d : α) :
    (xs.modify i g).getD j d = if i = j ∧ j < xs.size then g (xs.getD j d) else xs.getD j d := by
  rw [Array.getD_eq_getD_getElem?, Array.getD_eq_getD_getElem?, Array.getElem?_modify]
  by_cases h : i = j
  · by_cases hj : j < xs.size
    · simp [h, hj]
    · simp [h, hj]
  · simp [h]

theorem getD_push_lt {α : Type} (xs : Array α) (x d : α) {i : Nat} (h : i < xs.size) :
    (xs.push x).getD i d = xs.getD i d := by
  rw [Array.getD_eq_getD_getElem?, Array.getD_eq_getD_getElem?, Array.getElem?_push_lt h]
  simp [h]

theorem getD_push_self {α : Type} (xs : Array α) (x d : α) : (xs.push x).getD xs.size d = x := by
  rw [Array.getD_eq_getD_getElem?]
  simp

theorem getD_setIfInBounds {α : Type} (xs : Array α) (i j : Nat) (a d : α) :
    (xs.setIfInBounds i a).getD j d = if i = j ∧ j < xs.size then a else xs.getD j d := by
  rw [Array.getD_eq_getD_getElem?, Array.getD_eq_getD_getElem?, Array.getElem?_setIfInBounds]
  by_cases h : i = j
  · by_cases hj : j < xs.size
    · simp [h, hj]
    · simp [h, hj]
  · simp [h]

namespace Fragment

variable (f : Fragment)

/-! ### Changes in place -/

theorem value_modifyValue (u v : ValueId) (g : Value → Value) :
    (f.modifyValue v g).value u =
      if u = v ∧ u.index < f.values.size then g (f.value u) else f.value u := by
  rw [value, modifyValue, getD_modify, value]
  by_cases h : u = v
  · simp [h]
  · have : v.index ≠ u.index := fun e => h (ValueId.ext_index e.symm)
    simp [h, this]

theorem instr_modifyInstr (i j : InstrId) (g : Instr → Instr) :
    (f.modifyInstr j g).instr i =
      if i = j ∧ i.index < f.instrs.size then g (f.instr i) else f.instr i := by
  rw [instr, modifyInstr, getD_modify, instr]
  by_cases h : i = j
  · simp [h]
  · have : j.index ≠ i.index := fun e => h (InstrId.ext_index e.symm)
    simp [h, this]

theorem block_modifyBlock (a b : BlockId) (g : Block → Block) :
    (f.modifyBlock b g).block a =
      if a = b ∧ a.index < f.blocks.size then g (f.block a) else f.block a := by
  rw [block, modifyBlock, getD_modify, block]
  by_cases h : a = b
  · simp [h]
  · have : b.index ≠ a.index := fun e => h (BlockId.ext_index e.symm)
    simp [h, this]

@[simp] theorem instr_modifyValue (i : InstrId) (v : ValueId) (g : Value → Value) :
    (f.modifyValue v g).instr i = f.instr i := rfl

@[simp] theorem block_modifyValue (b : BlockId) (v : ValueId) (g : Value → Value) :
    (f.modifyValue v g).block b = f.block b := rfl

@[simp] theorem value_modifyInstr (v : ValueId) (i : InstrId) (g : Instr → Instr) :
    (f.modifyInstr i g).value v = f.value v := rfl

@[simp] theorem block_modifyInstr (b : BlockId) (i : InstrId) (g : Instr → Instr) :
    (f.modifyInstr i g).block b = f.block b := rfl

@[simp] theorem value_modifyBlock (v : ValueId) (b : BlockId) (g : Block → Block) :
    (f.modifyBlock b g).value v = f.value v := rfl

@[simp] theorem instr_modifyBlock (i : InstrId) (b : BlockId) (g : Block → Block) :
    (f.modifyBlock b g).instr i = f.instr i := rfl

@[simp] theorem size_values_modifyValue (v : ValueId) (g : Value → Value) :
    (f.modifyValue v g).values.size = f.values.size := by simp [modifyValue]

@[simp] theorem size_instrs_modifyValue (v : ValueId) (g : Value → Value) :
    (f.modifyValue v g).instrs.size = f.instrs.size := rfl

@[simp] theorem size_blocks_modifyValue (v : ValueId) (g : Value → Value) :
    (f.modifyValue v g).blocks.size = f.blocks.size := rfl

@[simp] theorem size_values_modifyInstr (i : InstrId) (g : Instr → Instr) :
    (f.modifyInstr i g).values.size = f.values.size := rfl

@[simp] theorem size_blocks_modifyInstr (i : InstrId) (g : Instr → Instr) :
    (f.modifyInstr i g).blocks.size = f.blocks.size := rfl

@[simp] theorem size_values_modifyBlock (b : BlockId) (g : Block → Block) :
    (f.modifyBlock b g).values.size = f.values.size := rfl

@[simp] theorem size_instrs_modifyBlock (b : BlockId) (g : Block → Block) :
    (f.modifyBlock b g).instrs.size = f.instrs.size := rfl

@[simp] theorem size_instrs_modifyInstr (i : InstrId) (g : Instr → Instr) :
    (f.modifyInstr i g).instrs.size = f.instrs.size := by simp [modifyInstr]

@[simp] theorem size_blocks_modifyBlock (b : BlockId) (g : Block → Block) :
    (f.modifyBlock b g).blocks.size = f.blocks.size := by simp [modifyBlock]

end Fragment
end Recompiler.IR
