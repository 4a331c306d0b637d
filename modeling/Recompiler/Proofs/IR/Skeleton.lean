import Recompiler.Proofs.IR.Listing
import Recompiler.Proofs.IR.Linked

/-!
Changes that keep what stands in a fragment: its blocks, instructions, labels and old values.
-/
namespace Recompiler.IR.Fragment

variable {f f' f'' : Fragment} {b : BlockId} {i j : InstrId} {v : ValueId} {n m : Slot}
  {l : List InstrId} {op : Opcode} {ty : Option Ty}

/-! ### Changes to arguments and values -/

/-- Two fragments differ in arguments, new values, edges and local slots only. -/
structure SameSkeleton (f f' : Fragment) : Prop where
  links : SameLinks f f'
  blockLabel_eq : ∀ b, (f'.block b).label = (f.block b).label
  op_eq : ∀ i, (f'.instr i).op = (f.instr i).op
  result_eq : ∀ i, (f'.instr i).result = (f.instr i).result
  label_eq : ∀ i, (f'.instr i).label = (f.instr i).label
  values_le : f.values.size ≤ f'.values.size
  ty_eq : ∀ v : ValueId, v.index < f.values.size → f'.ty v = f.ty v
  origin_eq : ∀ v : ValueId, v.index < f.values.size → (f'.value v).origin = (f.value v).origin

theorem SameLinks.refl (f : Fragment) : SameLinks f f :=
  ⟨rfl, fun _ => rfl, fun _ => rfl, rfl, rfl, fun _ => rfl, fun _ => rfl, fun _ => rfl,
    fun _ => rfl, rfl⟩

theorem SameLinks.trans (h : SameLinks f f') (h' : SameLinks f' f'') : SameLinks f f'' :=
  ⟨h'.size_blocks.trans h.size_blocks, fun b => (h'.head_eq b).trans (h.head_eq b),
    fun b => (h'.tail_eq b).trans (h.tail_eq b), h'.order_eq.trans h.order_eq,
    h'.size_instrs.trans h.size_instrs, fun i => (h'.prev_eq i).trans (h.prev_eq i),
    fun i => (h'.next_eq i).trans (h.next_eq i), fun i => (h'.block_eq i).trans (h.block_eq i),
    fun i => (h'.removed_eq i).trans (h.removed_eq i), h'.point_eq.trans h.point_eq⟩

theorem SameLinks.blockInstrs_eq (h : SameLinks f f') (b : BlockId) :
    f'.blockInstrs b = f.blockInstrs b := by
  unfold blockInstrs
  rw [h.size_instrs, h.head_eq]
  congr 1
  funext i
  exact h.next_eq i

namespace SameSkeleton

theorem refl (f : Fragment) : SameSkeleton f f :=
  ⟨.refl f, fun _ => rfl, fun _ => rfl, fun _ => rfl, fun _ => rfl, Nat.le_refl _, fun _ _ => rfl,
    fun _ _ => rfl⟩

theorem trans (h : SameSkeleton f f') (h' : SameSkeleton f' f'') : SameSkeleton f f'' where
  links := h.links.trans h'.links
  blockLabel_eq b := (h'.blockLabel_eq b).trans (h.blockLabel_eq b)
  op_eq i := (h'.op_eq i).trans (h.op_eq i)
  result_eq i := (h'.result_eq i).trans (h.result_eq i)
  label_eq i := (h'.label_eq i).trans (h.label_eq i)
  values_le := Nat.le_trans h.values_le h'.values_le
  ty_eq v hv := (h'.ty_eq v (Nat.lt_of_lt_of_le hv h.values_le)).trans (h.ty_eq v hv)
  origin_eq v hv := (h'.origin_eq v (Nat.lt_of_lt_of_le hv h.values_le)).trans (h.origin_eq v hv)

theorem operand_eq (h : SameSkeleton f f') (hv : v.index < f.values.size) :
    f'.operand v = f.operand v := by
  unfold operand
  rw [h.origin_eq v hv, h.ty_eq v hv]
  split
  · rw [h.blockLabel_eq]
  · rfl
  · rw [h.label_eq]

theorem resultLabel_eq (h : SameSkeleton f f') (hf : f.Consistent) (i : InstrId) :
    f'.resultLabel i = f.resultLabel i := by
  unfold resultLabel
  rw [h.result_eq, h.label_eq]
  cases hr : (f.instr i).result with
  | none => rfl
  | some v => rw [Option.map_some, Option.map_some, h.ty_eq v (hf.result_lt i v hr)]

end SameSkeleton

theorem sameSkeleton_addConstant (f : Fragment) (c : Constant) :
    SameSkeleton f (f.addConstant c).1 where
  links := ⟨rfl, fun _ => rfl, fun _ => rfl, rfl, rfl, fun _ => rfl, fun _ => rfl, fun _ => rfl,
    fun _ => rfl, rfl⟩
  blockLabel_eq _ := rfl
  op_eq _ := rfl
  result_eq _ := rfl
  label_eq _ := rfl
  values_le := by simp [addConstant, addValue]
  ty_eq v hv := congrArg Value.ty (value_addValue_lt _ hv)
  origin_eq v hv := congrArg Value.origin (value_addValue_lt _ hv)

theorem sameSkeleton_setArg (f : Fragment) (i : InstrId) (n : Slot) (v : ValueId) :
    SameSkeleton f (f.setArg i n v) := by
  have hframe := sameFrame_setArg f i n v
  have hvalues := sameValues_setArg f i n v
  have hinstr : ∀ j, SameButArgs (f.instr j) ((f.setArg i n v).instr j) := by
    intro j
    rw [instr_setArg]
    split
    · exact ⟨rfl, rfl, rfl, rfl, rfl, rfl⟩
    · exact .refl _
  have hlabel : ∀ j, ((f.setArg i n v).instr j).label = (f.instr j).label := by
    intro j
    rw [instr_setArg]
    split <;> rfl
  refine ⟨hframe.sameLinks (size_instrs_setArg i n v) hinstr, ?_, fun j => (hinstr j).op_eq,
    fun j => (hinstr j).result_eq, hlabel, Nat.le_of_eq hvalues.size_eq.symm,
    fun u _ => hvalues.ty_eq u, fun u _ => hvalues.origin_eq u⟩
  intro b
  rw [block, hframe.blocks_eq, block]

theorem sameSkeleton_addEdge (f : Fragment) (a b : BlockId) : SameSkeleton f (f.addEdge a b) := by
  have hblock : ∀ c, ((f.addEdge a b).block c).head = (f.block c).head ∧
      ((f.addEdge a b).block c).tail = (f.block c).tail ∧
      ((f.addEdge a b).block c).label = (f.block c).label := by
    intro c
    rw [addEdge, block_modifyBlock]
    split
    · split <;> exact ⟨rfl, rfl, rfl⟩
    · exact ⟨rfl, rfl, rfl⟩
  exact ⟨⟨size_blocks_modifyBlock f a _, fun c => (hblock c).1, fun c => (hblock c).2.1, rfl, rfl,
    fun _ => rfl, fun _ => rfl, fun _ => rfl, fun _ => rfl, rfl⟩, fun c => (hblock c).2.2,
    fun _ => rfl, fun _ => rfl, fun _ => rfl, Nat.le_refl _, fun _ _ => rfl, fun _ _ => rfl⟩

/-! ### Consistency -/

theorem consistent_empty : Consistent empty where
  constant_ty v c h := by cases h
  result_lt i v h := by cases h
  result_origin i v h := by cases h

theorem Consistent.sameSkeleton (hf : f.Consistent) (h : SameSkeleton f f')
    (hnew : ∀ v : ValueId, f.values.size ≤ v.index → ∀ c, (f'.value v).origin = .constant c →
      f'.ty v = c.ty) : f'.Consistent where
  constant_ty v c hc := by
    by_cases hv : v.index < f.values.size
    · rw [h.ty_eq v hv]
      exact hf.constant_ty v c ((h.origin_eq v hv).symm.trans hc)
    · exact hnew v (Nat.not_lt.mp hv) c hc
  result_lt i v hr := by
    rw [h.result_eq] at hr
    exact Nat.lt_of_lt_of_le (hf.result_lt i v hr) h.values_le
  result_origin i v hr := by
    rw [h.result_eq] at hr
    rw [h.origin_eq v (hf.result_lt i v hr)]
    exact hf.result_origin i v hr

theorem Consistent.addConstant (hf : f.Consistent) (c : Constant) :
    (f.addConstant c).1.Consistent := by
  refine hf.sameSkeleton (sameSkeleton_addConstant f c) fun v hv k hk => ?_
  unfold ty
  rw [Fragment.addConstant, value_addValue] at hk ⊢
  split at hk
  · cases hk
    rw [if_pos ‹_›]
  · rw [value_eq_default hv] at hk
    cases hk

theorem Consistent.setArg (hf : f.Consistent) (i : InstrId) (n : Slot) (v : ValueId) :
    (f.setArg i n v).Consistent := by
  refine hf.sameSkeleton (sameSkeleton_setArg f i n v) fun u hu k hk => ?_
  rw [(sameValues_setArg f i n v).origin_eq, value_eq_default hu] at hk
  cases hk

theorem Consistent.addEdge (hf : f.Consistent) (a b : BlockId) : (f.addEdge a b).Consistent :=
  ⟨hf.constant_ty, hf.result_lt, hf.result_origin⟩

theorem Consistent.withLocals (hf : f.Consistent) (ls : Array Local) (size : Int) :
    ({ f with locals := ls, localsSize := size } : Fragment).Consistent :=
  ⟨hf.constant_ty, hf.result_lt, hf.result_origin⟩

/-! ### Labels and arguments -/

theorem arg_setArg (hi : i.index < f.instrs.size) (j : InstrId) (m : Slot) :
    ((f.setArg i n v).instr j).arg m =
      if j = i ∧ m = n then some v else (f.instr j).arg m := by
  rw [instr_setArg]
  by_cases hj : j = i
  · subst hj
    rw [if_pos ⟨rfl, hi⟩]
    change (n.put (some v) (f.instr j).args).get m = _
    rw [Slot.get_put]
    simp [Instr.arg]
  · rw [if_neg fun h => hj h.1, if_neg fun h => hj h.1]

theorem sameLinks_setInstrLabel (f : Fragment) (i : InstrId) (name : String) :
    SameLinks f (f.setInstrLabel i name) := by
  have hinstr : ∀ j, SameButArgs (f.instr j) ((f.setInstrLabel i name).instr j) := by
    intro j
    rw [setInstrLabel, instr_modifyInstr]
    split
    · exact ⟨rfl, rfl, rfl, rfl, rfl, rfl⟩
    · exact .refl _
  exact ⟨rfl, fun _ => rfl, fun _ => rfl, rfl, size_instrs_modifyInstr f i _,
    fun j => (hinstr j).prev_eq, fun j => (hinstr j).next_eq, fun j => (hinstr j).block_eq,
    fun j => (hinstr j).removed_eq, rfl⟩

theorem lt_of_origin {c : Constant} (ho : (f.value v).origin = .constant c) :
    v.index < f.values.size := by
  by_contra hv
  rw [value_eq_default (Nat.not_lt.mp hv)] at ho
  cases ho

theorem order_nodup (h : Linked f) : f.order.Nodup :=
  h.order_perm.nodup_iff.mpr
    (List.nodup_range.map fun _ _ e => congrArg BlockId.index e)

theorem lt_of_mem_order (h : Linked f) (hb : b ∈ f.order) : b.index < f.blocks.size := by
  obtain ⟨k, hk, rfl⟩ := List.mem_map.mp (h.order_perm.mem_iff.mp hb)
  exact List.mem_range.mp hk

/-! ### New instructions -/

theorem label_linkAfter (after : Option InstrId) (j : InstrId) :
    ((f.linkAfter b after i).instr j).label = (f.instr j).label := by
  unfold linkAfter
  dsimp only
  split <;> split <;> simp only [instr_modifyInstr, instr_modifyBlock, size_instrs_modifyInstr,
    size_instrs_modifyBlock] <;> repeat' split
  all_goals rfl

theorem instr_eq_default (h : f.instrs.size ≤ i.index) : f.instr i = default := by
  rw [instr, Array.getD_eq_getD_getElem?, Array.getElem?_eq_none h]
  rfl

/-- A new instruction has no label; labels that were given stay. -/
theorem label_appendInstr (hchain : f.Chain b l) (hp : f.point = ⟨some b, l.getLast?⟩) (op : Opcode)
    (ty : Option Ty) :
    (∀ j : InstrId, j.index < f.instrs.size →
      ((f.appendInstr op ty).1.instr j).label = (f.instr j).label) ∧
    ((f.appendInstr op ty).1.instr ⟨f.instrs.size⟩).label = none ∧
    ∀ c, ((f.appendInstr op ty).1.block c).label = (f.block c).label := by
  rw [appendInstr_eq op ty hp]
  refine ⟨fun j hj => ?_, ?_, fun c => ?_⟩
  · refine (label_linkAfter (f := f.withInstr op ty b) _ j).trans ?_
    rw [instr_withInstr_lt op ty b hj]
  · refine (label_linkAfter (f := f.withInstr op ty b) _ _).trans ?_
    rw [instr_withInstr_new]
  · have hblocks : (f.withInstr op ty b).blocks = f.blocks := by cases ty <;> rfl
    have hblock := block_linkAfter (f := f.withInstr op ty b) (i := ⟨f.instrs.size⟩)
      (rfl : (f.withInstr op ty b).following b l.getLast? = _)
      (by rw [hblocks]; exact hchain.block_lt) c
    change (((f.withInstr op ty b).linkAfter b l.getLast? ⟨f.instrs.size⟩).block c).label = _
    rw [hblock, block, hblocks, ← block]
    split <;> rfl

theorem Consistent.emitted {l₁ l₂ : List InstrId} (hf : f.Consistent)
    (h : Emitted f f' b l₁ l₂ op ty [] i) : f'.Consistent := by
  obtain rfl := h.id_eq
  have hvalue : ∀ v : ValueId, f.values.size ≤ v.index →
    ∀ c, (f'.value v).origin ≠ .constant c := by
    intro v hv c hc
    by_cases hlt : v.index < f'.values.size
    · rw [h.size_values] at hlt
      cases ty with
      | none => simp at hlt; omega
      | some t =>
        obtain rfl : v = ⟨f.values.size⟩ :=
          ValueId.ext_index (Nat.le_antisymm (Nat.le_of_lt_succ hlt) hv)
        rw [(h.value_eq t rfl).2.1] at hc
        cases hc
    · rw [value_eq_default (Nat.not_lt.mp hlt)] at hc
      cases hc
  have hresult : ∀ j v, (f'.instr j).result = some v → (j.index < f.instrs.size ∧
      (f.instr j).result = some v) ∨ (j = ⟨f.instrs.size⟩ ∧ v = ⟨f.values.size⟩ ∧ ty.isSome) := by
    intro j v hv
    rcases Nat.lt_trichotomy j.index f.instrs.size with hj | hj | hj
    · exact .inl ⟨hj, (h.grows.result_eq j hj).symm.trans hv⟩
    · obtain rfl : j = ⟨f.instrs.size⟩ := InstrId.ext_index hj
      rw [h.result_eq] at hv
      cases ty with
      | none => cases hv
      | some t =>
        cases hv
        exact .inr ⟨rfl, rfl, rfl⟩
    · rw [instr_eq_default (by rw [h.size_instrs]; omega)] at hv
      cases hv
  refine ⟨fun v c hc => ?_, fun j v hv => ?_, fun j v hv => ?_⟩
  · by_cases hlt : v.index < f.values.size
    · rw [Fragment.ty, h.grows.ty_eq v hlt]
      exact hf.constant_ty v c ((h.grows.origin_eq v hlt).symm.trans hc)
    · exact absurd hc (hvalue v (Nat.not_lt.mp hlt) c)
  · rcases hresult j v hv with ⟨-, hold⟩ | ⟨-, rfl, hsome⟩
    · exact Nat.lt_of_lt_of_le (hf.result_lt j v hold) h.grows.values_le
    · rw [h.size_values]
      cases ty with
      | none => cases hsome
      | some t => simp
  · rcases hresult j v hv with ⟨-, hold⟩ | ⟨rfl, rfl, hsome⟩
    · rw [h.grows.origin_eq v (hf.result_lt j v hold)]
      exact hf.result_origin j v hold
    · obtain ⟨t, ht⟩ := Option.isSome_iff_exists.mp hsome
      exact (h.value_eq t ht).2.1

end Recompiler.IR.Fragment
