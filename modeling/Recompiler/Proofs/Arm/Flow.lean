import Recompiler.Proofs.Arm.State

/-!
Which instructions leave the pc at the next one. All that do not count as writing the pc do, but for
products, swapped words and written-back addresses that go to r15.
-/
namespace Recompiler.Arm

open State

variable (s : State)

theorem get_pc_set {f : Field} (h : f ≠ pc) (v : UInt32) : (s.set f v).get pc = s.get pc :=
  s.get_set_ne h.symm v

theorem get_pc_set_r {n : Fin 16} (h : n ≠ 15) (v : UInt32) : (s.set (.r n) v).get pc = s.get pc :=
  get_pc_set s (fun e => h (Field.r.inj e)) v

@[simp] theorem get_pc_setFlag (bit : UInt32) (on : Bool) : (s.setFlag bit on).get pc = s.get pc :=
  get_pc_set s (by decide) _

@[simp] theorem get_pc_setNz (v : UInt32) : (s.setNz v).get pc = s.get pc := by
  unfold setNz
  rw [get_pc_setFlag, get_pc_setFlag]

theorem ctx_write32 (addr v : UInt32) : (s.write32 addr v).ctx = s.ctx := by
  rw [write32, write]

@[simp] theorem ctx_writeByte (addr v : UInt32) : (writeByte s addr v).ctx = s.ctx := by
  rw [writeByte, write]

@[simp] theorem ctx_writeAligned (addr v : UInt32) : (writeAligned s addr v).ctx = s.ctx := by
  rw [writeAligned, ctx_write32]

theorem get_congr {s t : State} (h : s.ctx = t.ctx) (f : Field) : s.get f = t.get f := by
  unfold State.get World.get32
  rw [h]

@[simp] theorem get_writeByte (addr v : UInt32) (f : Field) :
    (writeByte s addr v).get f = s.get f := get_congr (ctx_writeByte s addr v) f

@[simp] theorem get_writeAligned (addr v : UInt32) (f : Field) :
    (writeAligned s addr v).get f = s.get f := get_congr (ctx_writeAligned s addr v) f

theorem get_pc_performData {raw : UInt32} (h : rd raw ≠ 15) (addr : UInt32) :
    (performData addr raw s).get pc = s.get pc := by
  have hset : ∀ (writes : Bool) (v : UInt32),
      (if writes then s.set (.r (rd raw)) v else s).get pc = s.get pc := by
    intro writes v
    split
    · exact get_pc_set_r s h v
    · rfl
  unfold performData
  simp only [h, decide_false, Bool.and_false, Bool.false_eq_true, if_false]
  split
  · exact hset _ _
  · split
    · rw [get_pc_setFlag, get_pc_setFlag, get_pc_setNz, hset]
    · rw [get_pc_setFlag, get_pc_setNz, hset]

theorem get_pc_performMul {raw : UInt32} (h : field raw 16 ≠ 15) :
    (performMul raw s).get pc = s.get pc := by
  unfold performMul
  simp only
  split
  · rw [get_pc_setNz, get_pc_set_r s h]
  · rw [get_pc_set_r s h]

theorem get_pc_performSwp {raw : UInt32} (h : rd raw ≠ 15) :
    (performSwp raw s).get pc = s.get pc := by
  unfold performSwp
  simp only
  split
  · rw [get_pc_set_r _ h, get_writeByte]
  · rw [get_pc_set_r _ h, get_writeAligned]

theorem get_pc_performTransfer {raw : UInt32} (h : rd raw ≠ 15) (addr : UInt32) :
    (performTransfer addr raw s).get pc = s.get pc := by
  have hback : ∀ (p : Bool) (v : UInt32) (t : State),
      (if p && field raw 16 ≠ 15 then t.set (.r (field raw 16)) v else t).get pc = t.get pc := by
    intro p v t
    split
    case isTrue hp =>
      simp only [Bool.and_eq_true, decide_eq_true_eq] at hp
      exact get_pc_set_r t hp.2 v
    case isFalse => rfl
  unfold performTransfer
  simp only
  split
  · rw [get_pc_set_r _ h, hback]
  · rw [hback]
    split
    · exact get_writeByte s _ _ pc
    · exact get_writeAligned s _ _ pc

theorem get_pc_loadRegs {regs : List (Fin 16)} (h : 15 ∉ regs) (addr : UInt32) :
    (loadRegs regs addr s).get pc = s.get pc := by
  induction regs generalizing addr s with
  | nil => rfl
  | cons n regs ih =>
    rw [List.mem_cons, not_or] at h
    unfold loadRegs
    rw [ih _ h.2, get_pc_set_r s (Ne.symm h.1)]

@[simp] theorem get_storeRegs (p : UInt32) (regs : List (Fin 16)) (addr : UInt32) (f : Field) :
    (storeRegs p regs addr s).get f = s.get f := by
  induction regs generalizing addr s with
  | nil => rfl
  | cons n regs ih =>
    unfold storeRegs
    rw [ih, get_congr (ctx_write32 s _ _)]

theorem pc_notMem_registerList {raw : UInt32} (h : bit raw 15 = false) : 15 ∉ registerList raw := by
  unfold registerList
  rw [List.mem_filter, not_and]
  intro _
  rw [Bool.not_eq_true]
  exact h

theorem get_pc_performBlock {raw : UInt32} (hlist : bit raw 15 = false)
    (hbase : (bit raw 21 && field raw 16 = 15) = false) (addr : UInt32) :
    (performBlock addr raw s).get pc = s.get pc := by
  have hback : ∀ (v : UInt32) (t : State),
      (if bit raw 21 then t.set (.r (field raw 16)) v else t).get pc = t.get pc := by
    intro v t
    split
    case isTrue hp =>
      simp only [hp, Bool.true_and, decide_eq_false_iff_not] at hbase
      exact get_pc_set_r t hbase v
    case isFalse => rfl
  unfold performBlock
  simp only [hlist, Bool.and_false, Bool.false_eq_true, if_false]
  split
  · rw [get_pc_loadRegs _ (pc_notMem_registerList hlist), hback]
  · rw [hback, get_storeRegs]

/-- The instruction writes the pc in a place that `writesPc` does not look at: the destination of a
product, the destination of a swap, or the base that a block transfer writes back. -/
def hidesPc (raw : UInt32) : Bool :=
  match decode raw with
  | .mul => field raw 16 = 15
  | .swp => rd raw = 15
  | .ldm | .stm => bit raw 21 && field raw 16 = 15
  | _ => false

theorem get_pc_perform {raw : UInt32} (h : writesPc raw = false) (hseen : hidesPc raw = false)
    (addr : UInt32) : (perform (decode raw) addr raw s).get pc = s.get pc := by
  unfold writesPc at h
  unfold hidesPc at hseen
  cases hop : decode raw with
  | mul =>
    simp only [hop, decide_eq_false_iff_not] at hseen
    exact get_pc_performMul s hseen
  | swp =>
    simp only [hop, decide_eq_false_iff_not] at hseen
    exact get_pc_performSwp s hseen
  | ldm | stm =>
    simp only [hop] at h hseen
    exact get_pc_performBlock s h hseen addr
  | ldr | str =>
    simp only [hop] at h
    exact get_pc_performTransfer s (by simpa [Op.traits, Traits.meets] using h) addr
  | invalid | mrs | msr | b | swi =>
    rw [hop] at h
    exact absurd h (by simp [Op.traits, Traits.meets])
  | _ =>
    simp only [hop] at h
    exact get_pc_performData s (by simpa [Op.traits, Traits.meets] using h) addr

theorem get_pc_interpret {s : State} (hs : s.Sized) {raw : UInt32} (h : writesPc raw = false)
    (hseen : hidesPc raw = false) (addr : UInt32) : (interpret addr raw s).get pc = addr + 4 := by
  unfold interpret
  simp only
  split
  · rw [get_pc_perform _ h hseen, get_set_same hs]
  · exact get_set_same hs pc _

/-! ### The size of the context -/

@[simp] theorem size_set (f : Field) (v : UInt32) : (s.set f v).ctx.size = s.ctx.size := by
  rw [ctx_set, Context.size_set32]

@[simp] theorem size_setFlag (bit : UInt32) (on : Bool) :
  (s.setFlag bit on).ctx.size = s.ctx.size :=
  size_set s _ _

@[simp] theorem size_setNz (v : UInt32) : (s.setNz v).ctx.size = s.ctx.size := by
  unfold setNz
  rw [size_setFlag, size_setFlag]

@[simp] theorem size_enterException (mode vector ret : UInt32) :
    (s.enterException mode vector ret).ctx.size = s.ctx.size := by
  unfold enterException
  simp only [size_set]

@[simp] theorem size_loadRegs (regs : List (Fin 16)) (addr : UInt32) :
    (loadRegs regs addr s).ctx.size = s.ctx.size := by
  induction regs generalizing addr s with
  | nil => rfl
  | cons n regs ih =>
    unfold loadRegs
    rw [ih, size_set]

@[simp] theorem size_storeRegs (p : UInt32) (regs : List (Fin 16)) (addr : UInt32) :
    (storeRegs p regs addr s).ctx.size = s.ctx.size := by
  induction regs generalizing addr s with
  | nil => rfl
  | cons n regs ih =>
    unfold storeRegs
    rw [ih, ctx_write32]

@[simp] theorem size_performData (addr raw : UInt32) :
    (performData addr raw s).ctx.size = s.ctx.size := by
  unfold performData
  simp only
  repeat' split
  all_goals simp

@[simp] theorem size_performMul (raw : UInt32) : (performMul raw s).ctx.size = s.ctx.size := by
  unfold performMul
  simp only
  split <;> simp

@[simp] theorem size_performSwp (raw : UInt32) : (performSwp raw s).ctx.size = s.ctx.size := by
  unfold performSwp
  simp only
  split <;> simp

@[simp] theorem size_performTransfer (addr raw : UInt32) :
    (performTransfer addr raw s).ctx.size = s.ctx.size := by
  unfold performTransfer
  simp only [apply_ite World.ctx, apply_ite Array.size, size_set, ctx_writeByte, ctx_writeAligned,
    ite_self]

@[simp] theorem size_performBlock (addr raw : UInt32) :
    (performBlock addr raw s).ctx.size = s.ctx.size := by
  unfold performBlock
  simp only [apply_ite World.ctx, apply_ite Array.size, size_set, size_loadRegs, size_storeRegs,
    ite_self]

@[simp] theorem size_performBranch (addr raw : UInt32) :
    (performBranch addr raw s).ctx.size = s.ctx.size := by
  unfold performBranch
  simp only [apply_ite World.ctx, apply_ite Array.size, size_set, ite_self]

theorem size_perform (op : Op) (addr raw : UInt32) :
    (perform op addr raw s).ctx.size = s.ctx.size := by
  cases op <;> simp only [perform, performMrs, performMsr, size_set, size_enterException,
    size_performData, size_performMul, size_performSwp, size_performTransfer, size_performBlock,
    size_performBranch]

theorem State.Sized.interpret {s : State} (h : s.Sized) (addr raw : UInt32) :
    (Arm.interpret addr raw s).Sized := by
  unfold Sized Arm.interpret
  simp only [apply_ite World.ctx, apply_ite Array.size, size_perform, size_set, ite_self]
  exact h

theorem State.Sized.charged {s : State} (h : s.Sized) : s.charged.Sized := by
  unfold Sized
  rw [charged_eq, size_set, size_set]
  exact h

end Recompiler.Arm
