import Recompiler.Arm.Interpret
import Recompiler.Proofs.Context

/-!
Laws of the registers, and what does not depend on the counters: an instruction can be charged
before it is interpreted as well as behind it.
-/
namespace Recompiler.Arm

theorem Field.index_inj {a b : Field} (h : a.index = b.index) : a = b := by
  cases a <;> cases b <;> simp only [Field.index] at h <;> first | rfl | omega | skip
  exact congrArg Field.r (Fin.ext h)

theorem Field.index_lt (f : Field) : f.index < Field.all.length := by
  change f.index < 21
  cases f <;> simp only [Field.index] <;> omega

namespace State

variable (s : State)

/-- The context has all its words. -/
def Sized (s : State) : Prop := s.ctx.size = 4 * Field.all.length

theorem ctx_set (f : Field) (v : UInt32) : (s.set f v).ctx = s.ctx.set32 f.offset v := by
  rw [set, World.set32]

theorem Sized.set {s : State} (h : s.Sized) (f : Field) (v : UInt32) : (s.set f v).Sized := by
  unfold Sized
  rw [ctx_set, Context.size_set32]
  exact h

theorem get_set_same {s : State} (h : s.Sized) (f : Field) (v : UInt32) :
    (s.set f v).get f = v := by
  have hlt := f.index_lt
  unfold Sized at h
  rw [get, World.get32, ctx_set]
  exact Context.get32_set32_same s.ctx (by omega) v

theorem get_set_ne {f f' : Field} (h : f' ≠ f) (v : UInt32) : (s.set f v).get f' = s.get f' := by
  rw [get, get, World.get32, World.get32, ctx_set]
  exact Context.get32_set32_ne s.ctx (fun e => h (Field.index_inj e)) v

theorem set_comm {f f' : Field} (h : f' ≠ f) (v v' : UInt32) :
    (s.set f v).set f' v' = (s.set f' v').set f v := by
  have hcomm := Context.set32_comm s.ctx (fun e => h (Field.index_inj e)) v v'
  simp only [set, World.set32]
  exact congrArg (World.mk · s.rest) hcomm

theorem set_get (f : Field) : s.set f (s.get f) = s :=
  congrArg (fun c => { s with ctx := c }) (Context.set32_get32 s.ctx f.index)

/-! ### Charging -/

/-- The state with an instruction charged and counted. -/
def charged (s : State) : State := s.charge offsets Op.cycles

theorem charged_eq : s.charged =
    (s.set .cycles (s.get .cycles - Op.cycles)).set .instrs
      ((s.set .cycles (s.get .cycles - Op.cycles)).get .instrs + 1) := rfl

theorem get_charged {f : Field} (h : f ≠ .cycles) (h' : f ≠ .instrs) :
    s.charged.get f = s.get f := by
  rw [charged_eq, get_set_ne _ h', get_set_ne _ h]

theorem set_charged {f : Field} (h : f ≠ .cycles) (h' : f ≠ .instrs) (v : UInt32) :
    s.charged.set f v = (s.set f v).charged := by
  have hc : (s.set f v).get .cycles = s.get .cycles := s.get_set_ne h.symm v
  have hi : ∀ t : State, (t.set f v).get .instrs = t.get .instrs := fun t => t.get_set_ne h'.symm v
  rw [charged_eq, charged_eq, set_comm _ h', set_comm _ h, hc, ← hi (s.set .cycles _), set_comm _ h]

@[simp] theorem get_r_charged (n : Fin 16) : s.charged.get (.r n) = s.get (.r n) :=
  s.get_charged (by simp) (by simp)

@[simp] theorem get_cpsr_charged : s.charged.get .cpsr = s.get .cpsr :=
  s.get_charged (by simp) (by simp)

@[simp] theorem get_spsr_charged : s.charged.get .spsr = s.get .spsr :=
  s.get_charged (by simp) (by simp)

@[simp] theorem set_r_charged (n : Fin 16) (v : UInt32) :
    s.charged.set (.r n) v = (s.set (.r n) v).charged := s.set_charged (by simp) (by simp) v

@[simp] theorem set_cpsr_charged (v : UInt32) : s.charged.set .cpsr v = (s.set .cpsr v).charged :=
  s.set_charged (by simp) (by simp) v

@[simp] theorem set_spsr_charged (v : UInt32) : s.charged.set .spsr v = (s.set .spsr v).charged :=
  s.set_charged (by simp) (by simp) v

theorem rest_set (f : Field) (v : UInt32) : (s.set f v).rest = s.rest := by
  rw [set, World.set32]

/-- Charging changes the context only. -/
theorem rest_charged : s.charged.rest = s.rest := by
  rw [charged_eq, rest_set, rest_set]

theorem charged_withRest (r : Board) : (⟨s.charged.ctx, r⟩ : State) = charged ⟨s.ctx, r⟩ := by
  simp only [charged, World.charge, World.set32, World.get32]

@[simp] theorem read_charged (w : Width) (addr : UInt32) :
  s.charged.read w addr = s.read w addr := by
  unfold read
  rw [rest_charged]

@[simp] theorem write_charged (w : Width) (addr : UInt32) (v : UInt64) :
    s.charged.write w addr v = (s.write w addr v).charged := by
  unfold write
  rw [charged_withRest, rest_charged]

@[simp] theorem read32_charged (addr : UInt32) : s.charged.read32 addr = s.read32 addr := by
  unfold read32
  rw [read_charged]

@[simp] theorem write32_charged (addr v : UInt32) :
    s.charged.write32 addr v = (s.write32 addr v).charged := by
  unfold write32
  rw [write_charged]

@[simp] theorem ite_charged (p : Prop) [Decidable p] (s t : State) :
    (if p then s.charged else t.charged) = (if p then s else t).charged :=
  (apply_ite charged p s t).symm

@[simp] theorem flag_charged (bit : UInt32) : s.charged.flag bit = s.flag bit := by
  unfold flag
  rw [get_cpsr_charged]

@[simp] theorem mode_charged : s.charged.mode = s.mode := by
  unfold mode
  rw [get_cpsr_charged]

@[simp] theorem setFlag_charged (bit : UInt32) (on : Bool) :
    s.charged.setFlag bit on = (s.setFlag bit on).charged := by
  unfold setFlag
  simp

@[simp] theorem setNz_charged (v : UInt32) : s.charged.setNz v = (s.setNz v).charged := by
  unfold setNz
  simp

@[simp] theorem enterException_charged (mode vector ret : UInt32) :
    s.charged.enterException mode vector ret = (s.enterException mode vector ret).charged := by
  unfold enterException pc
  simp

end State

/-! ### Interpretation -/

open State

variable (s : State)

@[simp] theorem operand_charged (n : Fin 16) (pc : UInt32) :
  operand s.charged n pc = operand s n pc := by
  unfold operand
  simp

@[simp] theorem shifterOperand_charged (raw pc : UInt32) :
    shifterOperand s.charged raw pc = shifterOperand s raw pc := by
  unfold shifterOperand
  simp

@[simp] theorem readByte_charged (addr : UInt32) : readByte s.charged addr = readByte s addr := by
  unfold readByte
  rw [read_charged]

@[simp] theorem readRotated_charged (addr : UInt32) :
    readRotated s.charged addr = readRotated s addr := by
  unfold readRotated
  rw [read32_charged]

@[simp] theorem writeByte_charged (addr v : UInt32) :
    writeByte s.charged addr v = (writeByte s addr v).charged := by
  unfold writeByte
  rw [write_charged]

@[simp] theorem writeAligned_charged (addr v : UInt32) :
    writeAligned s.charged addr v = (writeAligned s addr v).charged := by
  unfold writeAligned
  rw [write32_charged]

theorem performData_charged (addr raw : UInt32) :
    performData addr raw s.charged = (performData addr raw s).charged := by
  unfold performData
  simp only [shifterOperand_charged, operand_charged, flag_charged, set_r_charged, ite_charged,
    get_spsr_charged, set_cpsr_charged, setNz_charged]
  split
  · rfl
  · split
    · rfl
    · split
      · simp only [setFlag_charged]
      · simp only [setFlag_charged]

theorem performMul_charged (raw : UInt32) :
    performMul raw s.charged = (performMul raw s).charged := by
  unfold performMul
  simp

theorem performSwp_charged (raw : UInt32) :
    performSwp raw s.charged = (performSwp raw s).charged := by
  unfold performSwp
  simp

theorem statusField_cases (raw : UInt32) : statusField raw = .spsr ∨ statusField raw = .cpsr := by
  unfold statusField
  split
  · exact .inl rfl
  · exact .inr rfl

theorem performMrs_charged (raw : UInt32) :
    performMrs raw s.charged = (performMrs raw s).charged := by
  unfold performMrs
  obtain h | h := statusField_cases raw <;> simp [h]

theorem performMsr_charged (raw : UInt32) :
    performMsr raw s.charged = (performMsr raw s).charged := by
  unfold performMsr
  obtain h | h := statusField_cases raw <;> simp [h]

theorem performTransfer_charged (addr raw : UInt32) :
    performTransfer addr raw s.charged = (performTransfer addr raw s).charged := by
  unfold performTransfer
  simp

theorem loadRegs_charged (regs : List (Fin 16)) (addr : UInt32) :
    loadRegs regs addr s.charged = (loadRegs regs addr s).charged := by
  induction regs generalizing addr s with
  | nil => rfl
  | cons n regs ih =>
    unfold loadRegs
    rw [read32_charged, set_r_charged, ih]

theorem storeRegs_charged (pc : UInt32) (regs : List (Fin 16)) (addr : UInt32) :
    storeRegs pc regs addr s.charged = (storeRegs pc regs addr s).charged := by
  induction regs generalizing addr s with
  | nil => rfl
  | cons n regs ih =>
    unfold storeRegs
    rw [operand_charged, write32_charged, ih]

theorem performBlock_charged (addr raw : UInt32) :
    performBlock addr raw s.charged = (performBlock addr raw s).charged := by
  unfold performBlock
  simp [loadRegs_charged, storeRegs_charged]

theorem performBranch_charged (addr raw : UInt32) :
    performBranch addr raw s.charged = (performBranch addr raw s).charged := by
  unfold performBranch pc
  simp

theorem perform_charged (op : Op) (addr raw : UInt32) :
    perform op addr raw s.charged = (perform op addr raw s).charged := by
  cases op <;> simp only [perform, performData_charged, performMul_charged, performSwp_charged,
    performMrs_charged, performMsr_charged, performTransfer_charged, performBlock_charged,
    performBranch_charged, enterException_charged]

/-- Charging first makes no difference to what an instruction does. -/
theorem interpret_charged (addr raw : UInt32) :
    interpret addr raw s.charged = (interpret addr raw s).charged := by
  unfold interpret pc
  simp only [set_r_charged, get_cpsr_charged, perform_charged, ite_charged]

end Recompiler.Arm
