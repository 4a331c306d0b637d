import Recompiler.Proofs.X64.Arithmetic
import Recompiler.Proofs.X64.Walking

/-!
Code that works on scratch registers. It loads operands from constants and allocated registers, and
disturbs nothing that lives longer than the operation, until the result is moved to its register.
-/
namespace Recompiler.X64

open IR X64.Machine

variable {σ : Type} {g : Guest σ} {m m' m'' : Machine σ} {a b : Assembly}

/-! ### Places -/

namespace HostReg

def get (m : Machine σ) : HostReg → UInt64
  | gpr r => m.gpr r
  | xmm x => m.xmm x

def put (m : Machine σ) (v : UInt64) : HostReg → Machine σ
  | gpr r => m.setGpr r v
  | xmm x => m.setXmm x v

/-- Free for use inside one operation. -/
def isScratch : HostReg → Bool
  | gpr r => r = tmp0 || r = tmp1 || r = tmp2
  | xmm x => x = xtmp0 || x = xtmp1

theorem isScratch_of_mem {h : HostReg} (hmem : h ∈ hostRegs) : h.isScratch = false := by
  have hall : ∀ h ∈ hostRegs, h.isScratch = false := by decide
  exact hall h hmem

theorem get_put (m : Machine σ) (v : UInt64) (h h' : HostReg) :
    h'.get (h.put m v) = if h' = h then v else h'.get m := by
  cases h with
  | gpr r =>
    cases h' with
    | gpr r' => simp [get, put, gpr_setGpr]
    | xmm x' => simp [get, put]
  | xmm x =>
    cases h' with
    | gpr r' => simp [get, put]
    | xmm x' => simp [get, put, xmm_setXmm]

theorem stack_put (m : Machine σ) (v : UInt64) (h : HostReg) : (h.put m v).stack = m.stack := by
  cases h <;> rfl

theorem world_put (m : Machine σ) (v : UInt64) (h : HostReg) : (h.put m v).world = m.world := by
  cases h <;> rfl

theorem get_moved (m : Machine σ) (pos : Nat) (h : HostReg) : h.get (m.moved pos) = h.get m := by
  cases h <;> rfl

theorem put_get (m : Machine σ) (h : HostReg) : h.put m (h.get m) = m := by
  cases h with
  | gpr r => simp [put, get, Machine.setGpr, Machine.gpr]
  | xmm x => simp [put, get, Machine.setXmm, Machine.xmm]

end HostReg

/-- The bits of an operand. -/
def Source.bits (m : Machine σ) : Source → UInt64
  | reg h => h.get m
  | imm bits => bits

/-- An operand in a register that allocation uses, or a constant. -/
def Source.IsPlaced (s : Source) : Prop := ∀ h, s = .reg h → h ∈ hostRegs

/-- Only scratch registers, flags and the position differ. -/
structure Undisturbed (m m' : Machine σ) : Prop where
  kept : ∀ h : HostReg, h.isScratch = false → h.get m' = h.get m
  stack : m'.stack = m.stack
  world : m'.world = m.world

namespace Undisturbed

theorem refl (m : Machine σ) : Undisturbed m m := ⟨fun _ _ => rfl, rfl, rfl⟩

theorem trans (h : Undisturbed m m') (h' : Undisturbed m' m'') : Undisturbed m m'' where
  kept r hr := (h'.kept r hr).trans (h.kept r hr)
  stack := h'.stack.trans h.stack
  world := h'.world.trans h.world

theorem put {h : HostReg} (hscratch : h.isScratch = true) (m : Machine σ) (v : UInt64) :
    Undisturbed m (h.put m v) where
  kept h' hh' := by
    have hne : h' ≠ h := fun e => by simp [e, hscratch] at hh'
    rw [HostReg.get_put, if_neg hne]
  stack := h.stack_put m v
  world := h.world_put m v

theorem flags (m : Machine σ) (flags : Flags) : Undisturbed m { m with flags } :=
  ⟨fun h _ => by cases h <;> rfl, rfl, rfl⟩

theorem bits_eq (h : Undisturbed m m') {s : Source} (hs : s.IsPlaced) : s.bits m' = s.bits m := by
  cases s with
  | imm bits => rfl
  | reg r => exact h.kept r (HostReg.isScratch_of_mem (hs r rfl))

end Undisturbed

/-! ### Working code -/

/-- Every instruction is read back as itself. -/
def Assembly.Plain (a : Assembly) : Prop := ∀ j, .instr j ∈ a → j.said = j

theorem Assembly.Plain.append (ha : a.Plain) (hb : b.Plain) : Assembly.Plain (a ++ b) := fun j hj =>
  (List.mem_append.mp hj).elim (ha j) (hb j)

/-- The walk over the code leads from one machine to the other, whatever follows. -/
structure Runs (g : Guest σ) (a : Assembly) (m m' : Machine σ) : Prop where
  plain : a.Plain
  walks : ∀ rest, walk g none (a ++ rest) m = walk g none rest m'

/-- The code runs and disturbs nothing. -/
structure Works (g : Guest σ) (a : Assembly) (m m' : Machine σ) : Prop extends Runs g a m m' where
  undisturbed : Undisturbed m m'

theorem Runs.append (h : Runs g a m m') (h' : Runs g b m' m'') : Runs g (a ++ b) m m'' where
  plain := h.plain.append h'.plain
  walks rest := by rw [List.append_assoc, h.walks, h'.walks]

theorem Works.append (h : Works g a m m') (h' : Works g b m' m'') : Works g (a ++ b) m m'' where
  toRuns := h.toRuns.append h'.toRuns
  undisturbed := h.undisturbed.trans h'.undisturbed

theorem runs_nil (m : Machine σ) : Runs g [] m m :=
  ⟨fun _ h => absurd h List.not_mem_nil, fun _ => rfl⟩

theorem runs_instr {j : Instruction} (hsaid : j.said = j) (hstep : m.step g j = .ok (.inl m')) :
    Runs g [.instr j] m m' where
  plain j' hj' := by
    cases List.mem_singleton.mp hj'
    exact hsaid
  walks rest := by
    rw [List.singleton_append, walk, hstep]

theorem works_nil (m : Machine σ) : Works g [] m m := ⟨runs_nil m, .refl m⟩

/-- An instruction whose result goes to a scratch register. -/
theorem works_put {j : Instruction} {h : HostReg} (hscratch : h.isScratch = true) {v : UInt64}
    (hsaid : j.said = j) (hstep : m.step g j = .ok (.inl (h.put m v))) :
    Works g [.instr j] m (h.put m v) :=
  ⟨runs_instr hsaid hstep, .put hscratch m v⟩

/-! ### Moves -/

theorem works_loadSource (dst : Gpr) (hdst : (HostReg.gpr dst).isScratch = true) (s : Source)
    (m : Machine σ) : Works g (loadSource dst s) m (m.setGpr dst (s.bits m)) := by
  match s with
  | .imm bits => exact works_put (h := .gpr dst) hdst rfl rfl
  | .reg (.gpr r) =>
    simp only [loadSource]
    by_cases hr : r = dst
    · rw [if_pos hr, hr]
      have hself := HostReg.put_get m (.gpr dst)
      rw [show m.setGpr dst (Source.bits m (.reg (.gpr dst))) = m from hself]
      exact works_nil m
    · rw [if_neg hr]
      exact works_put (h := .gpr dst) hdst rfl rfl
  | .reg (.xmm x) => exact works_put (h := .gpr dst) hdst rfl rfl

/-- A constant passes through the first scratch register. -/
theorem works_loadXmmSource (dst : Xmm) (hdst : (HostReg.xmm dst).isScratch = true) (s : Source)
    (m : Machine σ) : ∃ m', Works g (loadXmmSource dst s) m m' ∧ m'.xmm dst = s.bits m := by
  have hself (m : Machine σ) (v : UInt64) : (m.setXmm dst v).xmm dst = v := xmm_setXmm_self m dst v
  match s with
  | .imm bits =>
    have hfirst : Works g [.instr (.movImm tmp0 bits)] m (m.setGpr tmp0 bits) :=
      works_put (h := .gpr tmp0) rfl rfl rfl
    have hsecond : Works g [.instr (.movqToXmm dst tmp0)] (m.setGpr tmp0 bits)
        ((m.setGpr tmp0 bits).setXmm dst ((m.setGpr tmp0 bits).gpr tmp0)) :=
      works_put (h := .xmm dst) hdst rfl rfl
    have hbits :
      ((m.setGpr tmp0 bits).setXmm dst ((m.setGpr tmp0 bits).gpr tmp0)).xmm dst = bits := by
      rw [hself, gpr_setGpr_self]
    exact ⟨_, hfirst.append hsecond, hbits⟩
  | .reg (.xmm x) =>
    simp only [loadXmmSource]
    by_cases hx : x = dst
    · rw [if_pos hx, hx]
      exact ⟨m, works_nil m, rfl⟩
    · rw [if_neg hx]
      exact ⟨_, works_put (h := .xmm dst) hdst rfl rfl, hself m _⟩
  | .reg (.gpr r) => exact ⟨_, works_put (h := .xmm dst) hdst rfl rfl, hself m _⟩

/-- The move of a result. -/
def moveOut (h : HostReg) : HostReg → Assembly
  | .gpr src =>
    match h with
    | .gpr r => [.instr (.mov true r src)]
    | .xmm x => [.instr (.movqToXmm x src)]
  | .xmm src =>
    match h with
    | .xmm x => if x = src then [] else [.instr (.sse .movaps x src)]
    | .gpr r => [.instr (.movqFromXmm r src)]

theorem runs_moveOut (h src : HostReg) (m : Machine σ) :
    Runs g (moveOut h src) m (h.put m (src.get m)) := by
  match src, h with
  | .gpr src, .gpr r => exact runs_instr rfl rfl
  | .gpr src, .xmm x => exact runs_instr rfl rfl
  | .xmm src, .gpr r => exact runs_instr rfl rfl
  | .xmm src, .xmm x =>
    unfold moveOut
    by_cases hx : x = src
    · simp only [hx, if_true]
      rw [HostReg.put_get]
      exact runs_nil m
    · simp only [hx, if_false]
      exact runs_instr rfl rfl

/-- The result is in its register, and the other allocatable registers and memory are as before. -/
structure Delivers (h : HostReg) (y : UInt64) (m m' : Machine σ) : Prop where
  result : h.get m' = y
  others : ∀ h' ∈ hostRegs, h' ≠ h → h'.get m' = h'.get m
  stack : m'.stack = m.stack
  world : m'.world = m.world

theorem Delivers.moved {h : HostReg} {y : UInt64} (hd : Delivers h y m m') (pos : Nat) :
    Delivers h y m (m'.moved pos) where
  result := (h.get_moved m' pos).trans hd.result
  others h' hmem hne := (h'.get_moved m' pos).trans (hd.others h' hmem hne)
  stack := hd.stack
  world := hd.world

theorem Works.delivers {y : UInt64} (hw : Works g a m m') (src : HostReg) (hy : src.get m' = y)
    (h : HostReg) : ∃ m'', Runs g (a ++ moveOut h src) m m'' ∧ Delivers h y m m'' := by
  have hmove : Runs g (moveOut h src) m' (h.put m' (src.get m')) := runs_moveOut h src m'
  have hdelivers : Delivers h y m (h.put m' (src.get m')) :=
    { result := by rw [HostReg.get_put, if_pos rfl, hy]
      others := fun h' hmem hne => by
        rw [HostReg.get_put, if_neg hne]
        exact hw.undisturbed.kept h' (HostReg.isScratch_of_mem hmem)
      stack := (h.stack_put _ _).trans hw.undisturbed.stack
      world := (h.world_put _ _).trans hw.undisturbed.world }
  exact ⟨_, hw.toRuns.append hmove, hdelivers⟩

/-! ### Extensions -/

/-- Extensions of scratch registers are read back as they are. -/
theorem works_extend {r : Gpr} (hr : (HostReg.gpr r).isScratch = true) {e : Extension} {v : UInt64}
    (hv : e.apply (m.gpr r) = v) : Works g [.instr (.extend e r r)] m (m.setGpr r v) := by
  have hsmall : r.val < 4 := by
    have hall : ∀ r : Gpr, (HostReg.gpr r).isScratch = true → r.val < 4 := by decide
    exact hall r hr
  have hvisible : e.hidesByte r r = false := by
    simp only [Extension.hidesByte, Bool.and_eq_false_iff, decide_eq_false_iff_not]
    omega
  have hsaid : (Instruction.extend e r r).said = .extend e r r := by
    simp [Instruction.said, Instruction.saidExtend, hvisible]
  subst hv
  exact works_put (h := .gpr r) hr hsaid rfl

theorem works_zeroExtend {r : Gpr} (hr : (HostReg.gpr r).isScratch = true) (ty : Ty)
    (m : Machine σ) : Works g (zeroExtend ty r) m (m.setGpr r (Eval.truncate ty (m.gpr r))) := by
  have hself : m.setGpr r (m.gpr r) = m := HostReg.put_get m (.gpr r)
  -- A type as wide as a register needs no code.
  have hwhole : Works g [] m (m.setGpr r (m.gpr r &&& 0xffffffffffffffff)) := by
    rw [Meaning.toUInt64_and_all, hself]
    exact works_nil m
  have hword : Works g [.instr (.mov false r r)] m (m.setGpr r (m.gpr r &&& 0xffffffff)) :=
    works_put (h := .gpr r) hr rfl rfl
  cases ty with
  | i8 => exact works_extend hr (Meaning.toUInt8_and_low (m.gpr r)).symm
  | i16 => exact works_extend hr (Meaning.toUInt16_and_low (m.gpr r)).symm
  | i32 => exact hword
  | f32 => exact hword
  | _ => exact hwhole

theorem works_signExtend {r : Gpr} (hr : (HostReg.gpr r).isScratch = true) {ty : Ty}
    (hty : ty.isInt = true) (m : Machine σ) :
    Works g (signExtend ty r) m (m.setGpr r (Eval.signed ty (m.gpr r)).toUInt64) := by
  cases ty with
  | i8 => exact works_extend hr (congrArg Int64.toUInt64 (Meaning.signed_i8 _)).symm
  | i16 => exact works_extend hr (congrArg Int64.toUInt64 (Meaning.signed_i16 _)).symm
  | i32 => exact works_extend hr (congrArg Int64.toUInt64 (Meaning.signed_i32 _)).symm
  | i64 =>
    have hself : m.setGpr r (m.gpr r) = m := HostReg.put_get m (.gpr r)
    rw [signed_i64, hself]
    exact works_nil m
  | _ => cases hty

end Recompiler.X64
