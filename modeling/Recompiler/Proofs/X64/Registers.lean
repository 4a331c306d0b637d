import Recompiler.X64.Machine

/-! The registers of the machine are independent of each other. -/
namespace Recompiler.X64.Machine

variable {σ : Type} (m : Machine σ)

theorem gpr_setGpr (r r' : Gpr) (v : UInt64) :
    (m.setGpr r v).gpr r' = if r' = r then v else m.gpr r' := by
  change (m.gprs.set r v)[r'.val] = _
  rw [Vector.getElem_set]
  exact ite_cond_congr (propext (by rw [eq_comm, Fin.ext_iff]))

@[simp] theorem gpr_setGpr_self (r : Gpr) (v : UInt64) : (m.setGpr r v).gpr r = v := by
  rw [gpr_setGpr, if_pos rfl]

theorem gpr_setGpr_of_ne {r r' : Gpr} (hne : r' ≠ r) (v : UInt64) :
    (m.setGpr r v).gpr r' = m.gpr r' := by
  rw [gpr_setGpr, if_neg hne]

theorem xmm_setXmm (x x' : Xmm) (v : UInt64) :
    (m.setXmm x v).xmm x' = if x' = x then v else m.xmm x' := by
  change (m.xmms.set x v)[x'.val] = _
  rw [Vector.getElem_set]
  exact ite_cond_congr (propext (by rw [eq_comm, Fin.ext_iff]))

@[simp] theorem xmm_setXmm_self (x : Xmm) (v : UInt64) : (m.setXmm x v).xmm x = v := by
  rw [xmm_setXmm, if_pos rfl]

theorem xmm_setXmm_of_ne {x x' : Xmm} (hne : x' ≠ x) (v : UInt64) :
    (m.setXmm x v).xmm x' = m.xmm x' := by
  rw [xmm_setXmm, if_neg hne]

@[simp] theorem xmm_setGpr (r : Gpr) (v : UInt64) (x : Xmm) : (m.setGpr r v).xmm x = m.xmm x := rfl

@[simp] theorem gpr_setXmm (x : Xmm) (v : UInt64) (r : Gpr) : (m.setXmm x v).gpr r = m.gpr r := rfl

end Recompiler.X64.Machine
