import Recompiler.Proofs.IR.Chain

/-! What holds of every fragment that was made instruction by instruction. -/
namespace Recompiler.IR

/-- Links, origins, edges and local slots of a fragment are consistent. -/
structure WellFormed (f : Fragment) : Prop where
  order_nodup : f.order.Nodup
  chain : ∀ b ∈ f.order, f.Chain b (f.blockInstrs b)
  edges : ∀ b ∈ f.order, ∀ c ∈ (f.block b).edges, c ∈ f.order
  target : ∀ v b, (f.value v).origin = .constant (.blk b) → b ∈ f.order
  result : ∀ i ∈ f.allInstrs, ∀ v, (f.instr i).result = some v →
    v.index < f.values.size ∧ (f.value v).origin = .result i
  arg_lt : ∀ i ∈ f.allInstrs, ∀ n v, (f.instr i).arg n = some v → v.index < f.values.size
  constant_ty : ∀ v : ValueId, v.index < f.values.size → ∀ c,
    (f.value v).origin = .constant c → (f.value v).ty = c.ty
  localsSize_nonneg : 0 ≤ f.localsSize
  local_le : ∀ s ∈ f.locals, s.offset + s.ty.bytes ≤ f.localsSize

variable {f : Fragment}

theorem Value.isConstant_iff (v : Value) : v.isConstant = true ↔ ∃ c, v.origin = .constant c := by
  rw [isConstant]
  cases v.origin <;> simp

theorem Value.isConstant_eq_false_iff (v : Value) :
    v.isConstant = false ↔ ∃ i, v.origin = .result i := by
  rw [isConstant]
  cases v.origin <;> simp

theorem Instr.mem_operands {ins : Instr} {n : Slot} {v : ValueId} :
    (n, v) ∈ ins.operands ↔ ins.arg n = some v := by
  rw [operands, List.mem_filterMap]
  constructor
  · rintro ⟨m, -, h⟩
    obtain ⟨u, hu, e⟩ := Option.map_eq_some_iff.mp h
    cases e
    exact hu
  · intro h
    exact ⟨n, List.mem_finRange n, by rw [h]; rfl⟩

/-! ### Fragments written down -/

/-- The arguments of an instruction, written out. -/
def slots (a : Option ValueId) (b c : Option ValueId := none) : Vector (Option ValueId) 3 :=
  #v[a, b, c]

/-- A statement about the places in a list is one about each of them in turn. -/
theorem forall_split_nil {α : Type} {P : List α → α → List α → Prop} :
    (∀ l₁ a l₂, [] = l₁ ++ a :: l₂ → P l₁ a l₂) ↔ True := by
  simp

theorem forall_split_cons {α : Type} {P : List α → α → List α → Prop} {c : α} {l : List α} :
    (∀ l₁ a l₂, c :: l = l₁ ++ a :: l₂ → P l₁ a l₂) ↔
      P [] c l ∧ ∀ l₁ a l₂, l = l₁ ++ a :: l₂ → P (c :: l₁) a l₂ := by
  constructor
  · intro h
    exact ⟨h [] c l rfl, fun l₁ a l₂ e => h (c :: l₁) a l₂ (by rw [e]; rfl)⟩
  · rintro ⟨h₀, h⟩ l₁ a l₂ e
    cases l₁ with
    | nil =>
      cases e
      exact h₀
    | cons d l₁ =>
      cases e
      exact h l₁ a l₂ rfl

instance decidableSplit {α : Type} : ∀ (l : List α) (P : List α → α → List α → Prop)
    [∀ l₁ a l₂, Decidable (P l₁ a l₂)], Decidable (∀ l₁ a l₂, l = l₁ ++ a :: l₂ → P l₁ a l₂)
  | [], _, _ => isTrue (by simp)
  | c :: l, P, _ =>
    have := decidableSplit l fun l₁ => P (c :: l₁)
    decidable_of_iff _ forall_split_cons.symm

theorem Fragment.chain_iff {b : BlockId} {l : List InstrId} : f.Chain b l ↔
    b.index < f.blocks.size ∧ (f.block b).head = l.head? ∧ (f.block b).tail = l.getLast? ∧
    (∀ l₁ i l₂, l = l₁ ++ i :: l₂ →
      (f.instr i).prev = l₁.getLast? ∧ (f.instr i).next = l₂.head?) ∧
    l.Nodup ∧ ∀ i ∈ l, i.index < f.instrs.size ∧ (f.instr i).block = b ∧
      (f.instr i).removed = false := by
  constructor
  · intro h
    exact ⟨h.block_lt, h.head_eq, h.tail_eq,
      fun l₁ i l₂ e => ⟨h.prev_eq l₁ i l₂ e, h.next_eq l₁ i l₂ e⟩, h.nodup,
      fun i hi => ⟨h.lt i hi, h.block_eq i hi, h.live i hi⟩⟩
  · rintro ⟨hb, hhead, htail, hlinks, hnodup, hall⟩
    exact ⟨hb, hhead, htail, fun l₁ i l₂ e => (hlinks l₁ i l₂ e).1,
      fun l₁ i l₂ e => (hlinks l₁ i l₂ e).2, hnodup, fun i hi => (hall i hi).1,
      fun i hi => (hall i hi).2.1, fun i hi => (hall i hi).2.2⟩

instance (f : Fragment) (b : BlockId) (l : List InstrId) : Decidable (f.Chain b l) :=
  decidable_of_iff _ Fragment.chain_iff.symm

theorem Fragment.value_mem (f : Fragment) (v : ValueId) :
    f.value v ∈ f.values ∨ f.value v = default := by
  rw [Fragment.value, Array.getD_eq_getD_getElem?]
  by_cases h : v.index < f.values.size
  · rw [Array.getElem?_eq_getElem h]
    exact .inl (Array.getElem_mem h)
  · rw [Array.getElem?_eq_none (by omega)]
    exact .inr rfl

/-- A statement about the constants of a fragment is one about its values. -/
theorem Fragment.forall_constant {P : Value → Constant → Prop} :
    (∀ v c, (f.value v).origin = .constant c → P (f.value v) c) ↔
      ∀ x ∈ f.values, ∀ c ∈ x.constant?, P x c := by
  have hconst : ∀ (x : Value) c, c ∈ x.constant? ↔ x.origin = .constant c := by
    intro x c
    unfold Value.constant?
    cases x.origin <;> simp
  constructor
  · intro h x hx c hc
    obtain ⟨k, hk, rfl⟩ := Array.mem_iff_getElem.mp hx
    have hvalue : f.value ⟨k⟩ = f.values[k] := by simp [Fragment.value, hk]
    rw [← hvalue] at hc ⊢
    exact h ⟨k⟩ c ((hconst _ c).mp hc)
  · intro h v c ho
    rcases f.value_mem v with hv | hv
    · exact h _ hv c ((hconst _ c).mpr ho)
    · rw [hv] at ho
      cases ho

/-- The block that a constant names. -/
def Constant.block? : Constant → Option BlockId
  | .blk b => some b
  | _ => none

theorem Constant.block?_eq_some {c : Constant} {b : BlockId} : c.block? = some b ↔ c = .blk b := by
  cases c <;> simp [Constant.block?]

theorem wellFormed_iff : WellFormed f ↔
    f.order.Nodup ∧
    (∀ b ∈ f.order, f.Chain b (f.blockInstrs b) ∧ ∀ c ∈ (f.block b).edges, c ∈ f.order) ∧
    (∀ x ∈ f.values, ∀ c ∈ x.constant?, x.ty = c.ty ∧ ∀ b ∈ c.block?, b ∈ f.order) ∧
    (∀ i ∈ f.allInstrs,
      (∀ v ∈ (f.instr i).result, v.index < f.values.size ∧ (f.value v).origin = .result i) ∧
      ∀ n, ∀ v ∈ (f.instr i).arg n, v.index < f.values.size) ∧
    0 ≤ f.localsSize ∧ ∀ s ∈ f.locals, s.offset + s.ty.bytes ≤ f.localsSize := by
  rw [← Fragment.forall_constant (P := fun x c => x.ty = c.ty ∧ ∀ b ∈ c.block?, b ∈ f.order)]
  constructor
  · intro h
    refine ⟨h.order_nodup, fun b hb => ⟨h.chain b hb, h.edges b hb⟩, fun v c ho => ⟨?_, ?_⟩,
      fun i hi => ⟨h.result i hi, h.arg_lt i hi⟩, h.localsSize_nonneg, h.local_le⟩
    · by_cases hv : v.index < f.values.size
      · exact h.constant_ty v hv c ho
      · rw [Fragment.value, Array.getD_eq_getD_getElem?, Array.getElem?_eq_none (by omega)] at ho
        cases ho
    · intro b hb
      rw [Constant.block?_eq_some.mp hb] at ho
      exact h.target v b ho
  · rintro ⟨hnodup, hblocks, hconst, hinstrs, hsize, hlocals⟩
    exact ⟨hnodup, fun b hb => (hblocks b hb).1, fun b hb => (hblocks b hb).2,
      fun v b ho => (hconst v _ ho).2 b rfl, fun i hi => (hinstrs i hi).1,
      fun i hi => (hinstrs i hi).2, fun v _ c ho => (hconst v c ho).1, hsize, hlocals⟩

instance (f : Fragment) : Decidable (WellFormed f) := decidable_of_iff _ wellFormed_iff.symm

namespace WellFormed

theorem mem_allInstrs {b : BlockId} {i : InstrId} (hb : b ∈ f.order)
    (hi : i ∈ f.blockInstrs b) : i ∈ f.allInstrs := List.mem_flatMap.mpr ⟨b, hb, hi⟩

/-- A value is the result of one instruction only. -/
theorem result_inj (h : WellFormed f) {i j : InstrId} (hi : i ∈ f.allInstrs)
    (hj : j ∈ f.allInstrs) {v : ValueId} (hiv : (f.instr i).result = some v)
    (hjv : (f.instr j).result = some v) : i = j := by
  have e := (h.result i hi v hiv).2.symm.trans (h.result j hj v hjv).2
  cases e
  rfl

end WellFormed
end Recompiler.IR
