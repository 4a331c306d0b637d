import Recompiler.Arm.Cpu
import Recompiler.Proofs.Arm.BlockTransfer
import Recompiler.Proofs.Counters

/-!
The counters of an ARMv3 core. The interpreter, to which all instructions are left, leaves them to
its caller.
-/
namespace Recompiler.Arm

open State

/-- A word that counts. -/
def Field.IsCounter (f : Field) : Prop := f = .cycles ∨ f = .instrs

section
variable {f : Field} (s : State) (hf : f.IsCounter)

include hf

theorem get_set_counter {r : Field} (hr : ¬r.IsCounter) (v : UInt32) :
    (s.set r v).get f = s.get f :=
  get_set_ne s (fun e : f = r => hr (e ▸ hf)) v

theorem get_set_r (n : Fin 16) (v : UInt32) : (s.set (.r n) v).get f = s.get f :=
  get_set_counter s hf (by rintro (h | h) <;> cases h) v

theorem get_set_cpsr (v : UInt32) : (s.set .cpsr v).get f = s.get f :=
  get_set_counter s hf (by rintro (h | h) <;> cases h) v

theorem get_set_spsr (v : UInt32) : (s.set .spsr v).get f = s.get f :=
  get_set_counter s hf (by rintro (h | h) <;> cases h) v

theorem get_setFlag (bit : UInt32) (on : Bool) : (s.setFlag bit on).get f = s.get f :=
  get_set_cpsr s hf _

theorem get_setNz (v : UInt32) : (s.setNz v).get f = s.get f := by
  unfold setNz
  rw [get_setFlag _ hf, get_setFlag _ hf]

theorem get_enterException (mode vector ret : UInt32) :
    (s.enterException mode vector ret).get f = s.get f := by
  unfold enterException
  simp only [pc, get_set_r _ hf, get_set_cpsr _ hf, get_set_spsr _ hf]

theorem get_performData (addr raw : UInt32) : (performData addr raw s).get f = s.get f := by
  unfold performData
  simp only
  repeat' split
  all_goals simp only [get_set_r _ hf, get_set_cpsr _ hf, get_setNz _ hf, get_setFlag _ hf]

theorem get_performMul (raw : UInt32) : (performMul raw s).get f = s.get f := by
  unfold performMul
  simp only
  split <;> simp only [get_set_r _ hf, get_setNz _ hf]

theorem get_performSwp (raw : UInt32) : (performSwp raw s).get f = s.get f := by
  unfold performSwp
  simp only
  split <;> rw [get_set_r _ hf]
  · exact get_congr (ctx_writeByte _ _ _) f
  · exact get_congr (ctx_writeAligned _ _ _) f

theorem get_performTransfer (addr raw : UInt32) : (performTransfer addr raw s).get f = s.get f := by
  have hbyte : ∀ (t : State) (addr v : UInt32), (writeByte t addr v).get f = t.get f :=
    fun t addr v => get_congr (ctx_writeByte t addr v) f
  have hword : ∀ (t : State) (addr v : UInt32), (writeAligned t addr v).get f = t.get f :=
    fun t addr v => get_congr (ctx_writeAligned t addr v) f
  unfold performTransfer
  simp only [apply_ite (State.get · f), get_set_r _ hf, hbyte, hword, ite_self]

theorem get_performBlock (addr raw : UInt32) : (performBlock addr raw s).get f = s.get f := by
  have hload : ∀ (regs : List (Fin 16)) (addr : UInt32) (s : State),
      (loadRegs regs addr s).get f = s.get f :=
    fun regs => get_loadRegs_of_notMem fun n _ => by rintro rfl; rcases hf with h | h <;> cases h
  unfold performBlock
  simp only [apply_ite (State.get · f), get_set_r _ hf, get_set_cpsr _ hf, hload,
    get_storeRegs, ite_self]

theorem get_performBranch (addr raw : UInt32) : (performBranch addr raw s).get f = s.get f := by
  unfold performBranch
  simp only [pc, apply_ite (State.get · f), get_set_r _ hf, ite_self]

theorem get_perform (op : Op) (addr raw : UInt32) : (perform op addr raw s).get f = s.get f := by
  have hstatus : ∀ v, (s.set (statusField raw) v).get f = s.get f := by
    intro v
    rcases statusField_cases raw with h | h <;> rw [h]
    · exact get_set_spsr s hf v
    · exact get_set_cpsr s hf v
  cases op <;> simp only [perform, performMrs, performMsr, get_set_r _ hf, hstatus,
    get_enterException _ hf, get_performData _ hf, get_performMul _ hf, get_performSwp _ hf,
    get_performTransfer _ hf, get_performBlock _ hf, get_performBranch _ hf]

/-- The interpreter leaves counting to its caller. -/
theorem get_interpret (addr raw : UInt32) : (interpret addr raw s).get f = s.get f := by
  unfold interpret
  dsimp only
  split
  · rw [get_perform _ hf, pc, get_set_r _ hf]
  · rw [pc, get_set_r _ hf]

end

theorem placed_offsets : offsets.Placed (4 * Field.all.length) := by
  constructor <;> decide

theorem unmetered_guest : guest.Unmetered offsets (4 * Field.all.length) where
  read _ _ _ _ := .refl offsets _
  write _ _ _ _ _ := spends_of_ctx rfl
  fallback _ addr raw s s' hs h := by
    cases h
    refine ⟨(State.Sized.interpret hs addr raw).trans hs.symm, ?_, ?_⟩
    · rw [UInt32.sub_zero]
      exact get_interpret s (.inl rfl) addr raw
    · rw [UInt32.add_zero]
      exact get_interpret s (.inr rfl) addr raw
  call _ _ _ _ _ := .refl offsets _
  writeHost _ _ _ _ _ := spends_of_ctx rfl

/-- Delivering an interrupt leaves the counters alone. -/
theorem spends_interruptCheck (s : State) : Spends offsets s 0 0 s.interruptCheck := by
  have hkept : ∀ f : Field, f.IsCounter → s.interruptCheck.get f = s.get f := by
    intro f hf
    have hpending : ¬Field.pending.IsCounter := by rintro (h | h) <;> cases h
    unfold interruptCheck
    split
    · rfl
    · rw [get_enterException _ hf, get_set_counter _ hf hpending]
  refine ⟨?_, ?_, ?_⟩
  · unfold interruptCheck
    split
    · rfl
    · rw [size_enterException, size_set]
  · rw [UInt32.sub_zero]
    exact hkept .cycles (.inl rfl)
  · rw [UInt32.add_zero]
    exact hkept .instrs (.inr rfl)

end Recompiler.Arm
