import Recompiler.Pass.ContextReuse
import Recompiler.Proofs.IR.Reaching

/-!
What is known of the context: entries as ranges of bytes, and what the instructions of a fragment do
to the context as the passes see it.
-/
namespace Recompiler.Pass.ContextReuse

open IR Fragment Interp Meaning

namespace Known

variable {k : Known} {e : Entry} {d : Int} {n : Nat} {v : ValueId}

theorem mem_erase : e ∈ k.erase d n ↔ e ∈ k ∧ (e.offset + e.size ≤ d ∨ d + n ≤ e.offset) := by
  simp only [erase, List.mem_filter, Bool.not_eq_true', Bool.and_eq_false_iff,
    decide_eq_false_iff_not,
    not_lt]
  exact and_congr_right fun _ => Or.comm

theorem mem_set : e ∈ k.set d n v ↔ e ∈ k.erase d n ∨ n ≠ 0 ∧ e = ⟨d, n, v⟩ := by
  unfold set
  split
  · next hn => simp [hn]
  · next hn => simp [hn, or_comm]

theorem mem_of_get? (h : k.get? d = some v) : ∃ e ∈ k, e.offset = d ∧ e.value = v := by
  obtain ⟨e, he, rfl⟩ := Option.map_eq_some_iff.mp h
  exact ⟨e, List.mem_of_find?_eq_some he, by simpa using List.find?_some he, rfl⟩

end Known

/-- What an instruction does to the context. -/
inductive Effect where
  | load (offset : Int) (result : ValueId)
  | store (offset : Int) (stored : ValueId)
  /-- Any byte may be read or written. -/
  | anywhere
  | branch
  | nothing

/-- What the passes see an instruction do. -/
def effect (f : Fragment) (i : InstrId) : Effect :=
  let ins := f.instr i
  match ins.op with
  | .loadContext =>
    match contextOffset? f ins, ins.result with
    | .ok (some d), some r => .load d r
    | _, _ => .anywhere
  | .storeContext =>
    match contextOffset? f ins, ins.arg 1 with
    | .ok (some d), some v => .store d v
    | _, _ => .anywhere
  | op => if op.isCall then .anywhere else if op.isBranch then .branch else .nothing

variable {f : Fragment} {i : InstrId} {d : Int} {r v : ValueId}

theorem i32_eq_ok {v : Value} {w : UInt32} (h : v.i32 = .ok w) : v.origin = .constant (.i32 w) := by
  unfold Value.i32 Value.scalar Value.payload Value.constant? at h
  cases ho : v.origin with
  | result i =>
    rw [ho] at h
    cases h
  | constant c =>
    rw [ho] at h
    cases c with
    | i32 x =>
      cases h
      simp
    | _ => cases h

/-- An offset that the passes know is a constant argument. -/
theorem contextOffset_constant (h : contextOffset? f (f.instr i) = .ok (some d)) :
    0 ≤ d ∧ ∃ a x, (f.instr i).arg 0 = some a ∧ (f.value a).origin = .constant (.i32 x) ∧
      x.toInt32.toInt = d := by
  unfold contextOffset? at h
  cases ha : (f.instr i).arg 0 with
  | none =>
    rw [ha] at h
    cases h
  | some a =>
    rw [ha] at h
    dsimp only at h
    split at h
    · obtain ⟨w, hw, h⟩ := bind_eq_ok h
      split at h
      · next hle =>
        cases h
        exact ⟨hle, a, w, rfl, i32_eq_ok hw, rfl⟩
      · cases h
    · cases h

theorem contextOffset_eq_some (h : contextOffset? f (f.instr i) = .ok (some d)) :
    0 ≤ d ∧ ∀ s, accessAt f s i = d := by
  obtain ⟨hle, a, x, ha, hx, rfl⟩ := contextOffset_constant h
  refine ⟨hle, fun s => ?_⟩
  have hbits : bits f cells s a = x.toUInt64 := by
    unfold bits
    rw [hx]
    rfl
  rw [accessAt, argBits, ha]
  dsimp only
  rw [hbits, UInt32.toUInt32_toUInt64]

theorem effect_eq_load (h : effect f i = .load d r) : (f.instr i).op = .loadContext ∧
    (f.instr i).result = some r ∧ 0 ≤ d ∧ ∀ s, accessAt f s i = d := by
  unfold effect at h
  dsimp only at h
  split at h
  · next hop =>
    split at h
    · next hd hr =>
      cases h
      exact ⟨hop, hr, contextOffset_eq_some hd⟩
    · cases h
  · split at h <;> cases h
  · split at h
    · cases h
    · split at h <;> cases h

theorem effect_eq_store (h : effect f i = .store d v) : (f.instr i).op = .storeContext ∧
    (f.instr i).arg 1 = some v ∧ 0 ≤ d ∧ ∀ s, accessAt f s i = d := by
  unfold effect at h
  dsimp only at h
  split at h
  · split at h <;> cases h
  · next hop =>
    split at h
    · next hd hv =>
      cases h
      exact ⟨hop, hv, contextOffset_eq_some hd⟩
    · cases h
  · split at h
    · cases h
    · split at h <;> cases h

theorem effect_eq_branch (h : effect f i = .branch) : (f.instr i).op.isBranch = true := by
  unfold effect at h
  dsimp only at h
  split at h
  · split at h <;> cases h
  · split at h <;> cases h
  · split at h
    · cases h
    · split at h
      · assumption
      · cases h

theorem effect_of_branch (h : (f.instr i).op.isBranch = true) : effect f i = .branch := by
  have hcall := isCall_of_isBranch h
  unfold effect
  dsimp only
  split
  · next hop =>
    rw [hop] at h
    cases h
  · next hop =>
    rw [hop] at h
    cases h
  · rw [hcall, h]
    rfl

theorem effect_eq_nothing (h : effect f i = .nothing) : (f.instr i).op.isBranch = false ∧
    (f.instr i).op.isCall = false ∧ (f.instr i).op.isAccess = false := by
  unfold effect at h
  dsimp only at h
  split at h
  · split at h <;> cases h
  · split at h <;> cases h
  · next hload hstore =>
    split at h
    · cases h
    · split at h
      · cases h
      · next hcall hbranch =>
        refine ⟨by simpa using hbranch, by simpa using hcall, ?_⟩
        simpa [Opcode.isAccess] using ⟨hload, hstore⟩

/-! ### Accesses -/

variable {σ : Type} {g : Guest σ} {o : Offsets} {s : Cells} {m : Memory σ}

theorem opTy_store (hr : (f.instr i).result = none) (hv : (f.instr i).arg 1 = some v) :
    opTy f (f.instr i) = f.ty v := by
  rw [opTy, hr]
  dsimp only
  rw [argTy, hv]

theorem performed_load (hop : (f.instr i).op = .loadContext) (hr : (f.instr i).result = some r) :
    performed g o f i s m =
      match Context.width? (f.ty r).bytes with
      | some w => .ok (some (m.world.ctx.get (accessAt f s i) w), m)
      | none => .error (.contextSize (f.ty r).bytes) := by
  have hty : opTy f (f.instr i) = f.ty r := by rw [opTy, hr]
  unfold performed
  rw [hop, hty]
  simp only [perform, contextWidth]
  cases Context.width? (f.ty r).bytes <;> rfl

theorem performed_store (hop : (f.instr i).op = .storeContext) (hr : (f.instr i).result = none)
    (hv : (f.instr i).arg 1 = some v) : performed g o f i s m =
      match Context.width? (f.ty v).bytes with
      | some w =>
        .ok (none, withCtx m (m.world.ctx.set (accessAt f s i) w (argBits f cells s (f.instr i) 1)))
      | none => .error (.contextSize (f.ty v).bytes) := by
  unfold performed
  rw [hop, opTy_store hr hv]
  simp only [perform, contextWidth]
  cases Context.width? (f.ty v).bytes <;> rfl

/-! ### The steps of the passes -/

/-- The bytes of an access at a constant offset end at a signed 32-bit number. -/
def EndsFit (f : Fragment) : Prop :=
  ∀ i ∈ f.allInstrs, (f.instr i).op.isAccess = true → ∀ d,
    contextOffset? f (f.instr i) = .ok (some d) → d + (opTy f (f.instr i)).bytes < 2 ^ 31

/-- The end of an access is computed without a fault. -/
theorem EndsFit.checked (h : EndsFit f) (hi : i ∈ f.allInstrs)
    (haccess : (f.instr i).op.isAccess = true) (hd : contextOffset? f (f.instr i) = .ok (some d)) :
    checked32 (d + (opTy f (f.instr i)).bytes) = .ok (d + (opTy f (f.instr i)).bytes) := by
  obtain ⟨hle, -⟩ := contextOffset_constant hd
  have hlt := h i hi haccess d hd
  exact if_pos (by omega)

section
variable (hf : WellFormed f) (ht : Typed f) (hi : i ∈ f.allInstrs)
include hf ht hi

/-- The offset of an access is looked up without a fault. -/
theorem contextOffset_ok (haccess : (f.instr i).op.isAccess = true) :
    ∃ x, contextOffset? f (f.instr i) = .ok x := by
  have harg : argTy? f i 0 = some .i32 := by
    have h := ht.accepted i hi
    simp only [Opcode.isAccess, Bool.or_eq_true, decide_eq_true_eq] at haccess
    rcases haccess with hop | hop <;>
    · rw [hop] at h
      simp only [accepts, Opcode.kind, Bool.and_eq_true, beq_iff_eq] at h
      exact h.1.1.2
  obtain ⟨a, ha, hty⟩ := Option.map_eq_some_iff.mp harg
  unfold contextOffset?
  rw [ha]
  dsimp only
  split
  · next hconst =>
    obtain ⟨c, hc⟩ := (Value.isConstant_iff _).mp hconst
    have hcty := (hf.constant_ty a (hf.arg_lt i hi 0 a ha) c hc).symm.trans hty
    cases c with
    | i32 w =>
      have hword : (f.value a).i32 = .ok w := by
        unfold Value.i32 Value.scalar Value.payload Value.constant?
        rw [hc]
        exact congrArg Except.ok (UInt32.toUInt32_toUInt64 w)
      rw [hword]
      exact ⟨_, rfl⟩
    | _ => cases hcty
  · exact ⟨none, rfl⟩

omit hf in
theorem load_result (hop : (f.instr i).op = .loadContext) : ∃ r, (f.instr i).result = some r := by
  have h := ht.accepted i hi
  rw [hop] at h
  simp only [accepts, Opcode.kind, Bool.and_eq_true] at h
  exact Option.isSome_iff_exists.mp (by simpa using h.1.1.1)

omit hf in
theorem store_stored (hop : (f.instr i).op = .storeContext) :
    (∃ v, (f.instr i).arg 1 = some v) ∧ (f.instr i).result = none := by
  have h := ht.accepted i hi
  rw [hop] at h
  simp only [accepts, Opcode.kind, Bool.and_eq_true] at h
  refine ⟨Option.isSome_iff_exists.mp ?_, by simpa using h.1.1.1⟩
  simpa [argTy?] using h.1.2

/-- Going forward, by what the instruction does. -/
theorem forwardInstr_eq (hends : EndsFit f) (k : Known) (n : Nat) : forwardInstr ⟨f, k, n⟩ i =
    match effect f i with
    | .load d r =>
      match (k.get? d).filter fun v => f.ty v == f.ty r with
      | some v => do
        let f ← f.replaceUses r v
        return ⟨← f.removeInstr i, k, n + 1⟩
      | none => .ok ⟨f, k.set d (f.ty r).bytes r, n⟩
    | .store d v => .ok ⟨f, k.set d (f.ty v).bytes v, n⟩
    | .anywhere => .ok ⟨f, [], n⟩
    | .branch | .nothing => .ok ⟨f, k, n⟩ := by
  unfold forwardInstr effect
  cases hop : (f.instr i).op with
  | loadContext =>
    obtain ⟨r, hr⟩ := load_result ht hi hop
    have haccess : (f.instr i).op.isAccess = true := by rw [hop]; rfl
    have hty : opTy f (f.instr i) = f.ty r := by rw [opTy, hr]
    obtain ⟨x, hx⟩ := contextOffset_ok hf ht hi haccess
    simp only [hop, Fragment.resultOf, hr, hx]
    cases x with
    | none => rfl
    | some d =>
      have hsum := hends.checked hi haccess hx
      rw [hty] at hsum
      simp only [bind, Except.bind, hsum]
      rfl
  | storeContext =>
    obtain ⟨⟨v, hv⟩, hr⟩ := store_stored ht hi hop
    have haccess : (f.instr i).op.isAccess = true := by rw [hop]; rfl
    obtain ⟨x, hx⟩ := contextOffset_ok hf ht hi haccess
    simp only [hop, hv, hx]
    cases x with
    | none => rfl
    | some d =>
      have hsum := hends.checked hi haccess hx
      rw [opTy_store hr hv] at hsum
      simp only [bind, Except.bind, hsum]
      rfl
  | _ =>
    simp only [hop]
    rfl

/-- Going backward, by what the instruction does. -/
theorem backwardInstr_eq (hends : EndsFit f) (k : Known) (n : Nat) : backwardInstr ⟨f, k, n⟩ i =
    match effect f i with
    | .load d r => .ok ⟨f, k.erase d (f.ty r).bytes, n⟩
    | .store d v =>
      if ((k.get? d).map fun w => (f.ty w).bytes).getD 0 ≥ (f.ty v).bytes then do
        return ⟨← f.removeInstr i, k, n + 1⟩
      else .ok ⟨f, k.set d (f.ty v).bytes v, n⟩
    | .anywhere | .branch => .ok ⟨f, [], n⟩
    | .nothing => .ok ⟨f, k, n⟩ := by
  unfold backwardInstr effect
  cases hop : (f.instr i).op with
  | loadContext =>
    obtain ⟨r, hr⟩ := load_result ht hi hop
    have haccess : (f.instr i).op.isAccess = true := by rw [hop]; rfl
    have hty : opTy f (f.instr i) = f.ty r := by rw [opTy, hr]
    obtain ⟨x, hx⟩ := contextOffset_ok hf ht hi haccess
    simp only [hop, Fragment.resultOf, hr, hx]
    cases x with
    | none => rfl
    | some d =>
      have hsum := hends.checked hi haccess hx
      rw [hty] at hsum
      simp only [bind, Except.bind, hsum]
      rfl
  | storeContext =>
    obtain ⟨⟨v, hv⟩, hr⟩ := store_stored ht hi hop
    have haccess : (f.instr i).op.isAccess = true := by rw [hop]; rfl
    obtain ⟨x, hx⟩ := contextOffset_ok hf ht hi haccess
    simp only [hop, hv, hx]
    cases x with
    | none => rfl
    | some d =>
      have hsum := hends.checked hi haccess hx
      rw [opTy_store hr hv] at hsum
      simp only [bind, Except.bind, hsum]
      rfl
  | _ =>
    simp only [hop]
    rfl

end
end Recompiler.Pass.ContextReuse
