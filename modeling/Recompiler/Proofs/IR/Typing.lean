import Recompiler.Proofs.IR.Substitution

/-!
The types of operands and results. An instruction is typed if a building method would have accepted
its operands; then branches have targets, and every cell holds bits that fit the type of its value.
-/
namespace Recompiler.Meaning

open IR Interp

variable {σ : Type} {g : Guest σ} {o : Offsets} {f : Fragment} {i : InstrId} {v : ValueId}
  {s : Cells} {m : Memory σ}

/-- Whether an instruction with these types of result and operands can be built. -/
def accepts (op : Opcode) (result a b c : Option Ty) : Bool :=
  match op.kind with
  | .sourceInfo => result.isNone && a == some .i32 && b == some .i32 && c.isNone
  | .fallback => result.isNone && a == some .i64 && b == some .i32 && c == some .i32
  | .loadHost => result.isSome && a == some .i64 && b.isNone && c.isNone
  | .storeHost => result.isNone && a == some .i64 && b.isSome && c.isNone
  | .loadGuest => result.any Ty.isInt && a == some .i32 && b.isNone && c.isNone
  | .storeGuest => result.isNone && a == some .i32 && b.any Ty.isInt && c.isNone
  | .loadContext | .loadLocal => result.isSome && a == some .i32 && b.isNone && c.isNone
  | .storeContext | .storeLocal => result.isNone && a == some .i32 && b.isSome && c.isNone
  | .convert =>
    (a.any fun src => result.any fun dst => Build.converts op src dst) && b.isNone && c.isNone
  | .select => a.any Ty.isInt && b.isSome && c == b && result == b
  | .compare => a.any Ty.isInt && b == a && c.isNone && result == some .i8
  | .floatCompare => a.any Ty.isFloat && b == a && c.isNone && result == some .i8
  | .intBinary => a.any Ty.isInt && b == a && c.isNone && result == a
  | .floatBinary => a.any Ty.isFloat && b == a && c.isNone && result == a
  | .intUnary => a.any Ty.isInt && b.isNone && c.isNone && result == a
  | .floatUnary => a.any Ty.isFloat && b.isNone && c.isNone && result == a
  | .shift => a.any Ty.isInt && b.any Ty.isInt && c.isNone && result == a
  | .shiftSigned => a == some .i32 && b.any Ty.isInt && c.isNone && result == a
  | .branch => result.isNone && (a == some .blk || a == some .i32) && b.isNone && c.isNone
  | .branchIf =>
    result.isNone && a.any Ty.isInt && (b == some .blk || b == some .i32) && c.isNone
  | .call =>
    result.isNone && a == some .i64 && (b.isNone || b == some .i64) && (c.isNone || c == some .i64)

/-- The type of an argument that is there. -/
def argTy? (f : Fragment) (i : InstrId) (n : Slot) : Option Ty := ((f.instr i).arg n).map f.ty

/-- Every instruction obeys the rules of its building method; a branch inside the fragment names
its block. -/
structure Typed (f : Fragment) : Prop where
  accepted : ∀ i ∈ f.allInstrs, accepts (f.instr i).op ((f.instr i).result.map f.ty)
    (argTy? f i 0) (argTy? f i 1) (argTy? f i 2) = true
  named : ∀ i ∈ f.allInstrs, ∀ v, Exit.target? (f.instr i) = some v → f.ty v = .blk →
    f.isConstant v = true

instance (f : Fragment) : Decidable (Typed f) :=
  decidable_of_iff
    (∀ i ∈ f.allInstrs, accepts (f.instr i).op ((f.instr i).result.map f.ty) (argTy? f i 0)
        (argTy? f i 1) (argTy? f i 2) = true ∧
      ∀ v ∈ Exit.target? (f.instr i), f.ty v = .blk → f.isConstant v = true)
    ⟨fun h => ⟨fun i hi => (h i hi).1, fun i hi => (h i hi).2⟩,
      fun h i hi => ⟨h.accepted i hi, h.named i hi⟩⟩

theorem Typed.targets (ht : Typed f) (hf : WellFormed f) : Targets f := by
  -- a target is there, and it is a block or a word
  have hty : ∀ i ∈ f.allInstrs, (f.instr i).op.isBranch = true →
      ∃ v, Exit.target? (f.instr i) = some v ∧ (f.ty v = .blk ∨ f.ty v = .i32) := by
    intro i hi hop
    have ha := ht.accepted i hi
    unfold Exit.target?
    cases hi : (f.instr i).op <;> rw [hi] at hop ha <;> cases hop <;>
      simp only [accepts, Opcode.kind, argTy?, Bool.and_eq_true, Bool.or_eq_true, beq_iff_eq,
        Option.map_eq_some_iff] at ha ⊢
    · obtain ⟨⟨⟨-, ⟨v, hv, hty⟩ | ⟨v, hv, hty⟩⟩, -⟩, -⟩ := ha
      · exact ⟨v, hv, .inl hty⟩
      · exact ⟨v, hv, .inr hty⟩
    all_goals
      obtain ⟨⟨-, ⟨v, hv, hty⟩ | ⟨v, hv, hty⟩⟩, -⟩ := ha
      · exact ⟨v, hv, .inl hty⟩
      · exact ⟨v, hv, .inr hty⟩
  intro i hi hop
  obtain ⟨v, hv, hblk | hword⟩ := hty i hi hop
  · obtain ⟨c, hc⟩ := (Value.isConstant_iff _).mp (ht.named i hi v hv hblk)
    obtain ⟨n, hn⟩ := target?_mem hv
    have hcty := (hf.constant_ty v (hf.arg_lt i hi n v hn) c hc).symm.trans hblk
    cases c with
    | blk b => exact ⟨v, hv, .inr ⟨b, hc⟩⟩
    | _ => cases hcty
  · exact ⟨v, hv, .inl hword⟩

/-! ### Bits that fit -/

theorem fit_fit (ty : Ty) (x : UInt64) : fit ty (fit ty x) = fit ty x := by
  unfold fit
  split
  · unfold Eval.truncate
    rw [UInt64.and_assoc, UInt64.and_self]
  · rfl

theorem toUInt8_and_low (a : UInt64) : a &&& 0xff = a.toUInt8.toUInt64 := by
  apply UInt64.toNat_inj.mp
  rw [UInt64.toNat_and, UInt8.toNat_toUInt64, UInt64.toNat_toUInt8]
  exact Nat.and_two_pow_sub_one_eq_mod a.toNat 8

theorem toUInt16_and_low (a : UInt64) : a &&& 0xffff = a.toUInt16.toUInt64 := by
  apply UInt64.toNat_inj.mp
  rw [UInt64.toNat_and, UInt16.toNat_toUInt64, UInt64.toNat_toUInt16]
  exact Nat.and_two_pow_sub_one_eq_mod a.toNat 16

theorem toUInt64_and_all (a : UInt64) : a &&& 0xffffffffffffffff = a := by
  apply UInt64.toNat_inj.mp
  rw [UInt64.toNat_and]
  exact (Nat.and_two_pow_sub_one_eq_mod a.toNat 64).trans (Nat.mod_eq_of_lt a.toNat_lt)

/-- A constant of an integer type has the bits that fit. -/
theorem bits_ofBits {ty : Ty} (hty : ty.isInt = true) (x : UInt64) :
    ∃ c, Constant.ofBits? ty x = some c ∧ c.ty = ty ∧ c.bits? = some (fit ty x) := by
  unfold fit Eval.truncate
  cases ty with
  | i8 => exact ⟨_, rfl, rfl, congrArg some (toUInt8_and_low x).symm⟩
  | i16 => exact ⟨_, rfl, rfl, congrArg some (toUInt16_and_low x).symm⟩
  | i32 => exact ⟨_, rfl, rfl, congrArg some (toUInt32_and_low x).symm⟩
  | i64 => exact ⟨_, rfl, rfl, congrArg some (toUInt64_and_all x).symm⟩
  | _ => cases hty

theorem fit_constant (c : Constant) : fit c.ty (c.bits?.getD 0) = c.bits?.getD 0 := by
  cases c with
  | i8 x =>
    change x.toUInt64 &&& 0xff = x.toUInt64
    rw [toUInt8_and_low, UInt8.toUInt8_toUInt64]
  | i16 x =>
    change x.toUInt64 &&& 0xffff = x.toUInt64
    rw [toUInt16_and_low, UInt16.toUInt16_toUInt64]
  | i32 x =>
    change x.toUInt64 &&& 0xffffffff = x.toUInt64
    rw [toUInt32_and_low, UInt32.toUInt32_toUInt64]
  | i64 x => exact toUInt64_and_all x
  | _ => rfl

/-- Every cell holds bits that fit the type of its value. -/
def Fits (f : Fragment) (c : Config Cells σ) : Prop := ∀ v, fit (f.ty v) (c.store v) = c.store v

theorem fits_invariant : Invariant g o f (Fits f) where
  start w v := by
    change fit (f.ty v) 0 = 0
    unfold fit Eval.truncate
    split
    · exact UInt64.zero_and
    · rfl
  move c c' hc hmove v := by
    cases hmove with
    | enter | untaken | jump => exact hc v
    | @perform i code blocks s m m' x hop h =>
      by_cases hv : (f.instr i).result = some v
      · cases x with
        | none =>
          simp only [keep_none]
          exact hc v
        | some x =>
          simp only [keep_eq hv, if_true]
          exact fit_fit _ _
      · simp only [keep_of_ne hv]
        exact hc v

/-- The bits of an argument fit its type. -/
theorem fit_bits {c : Config Cells σ} (hc : Fits f c) (hf : WellFormed f)
    (hv : v.index < f.values.size) :
    fit (f.ty v) (bits f cells c.store v) = bits f cells c.store v := by
  unfold bits
  split
  · next k hk =>
    have hty : f.ty v = k.ty := hf.constant_ty v hv k hk
    rw [hty]
    exact fit_constant k
  · exact hc v

/-! ### Operations that only compute -/

theorem perform_of_apply {op : Opcode} {ty aty bty : Ty} {a b c y : UInt64}
    (h : Eval.apply op ty aty bty a b c = .ok y) :
    op.isBranch = false ∧ perform g o op ty aty bty a b c m = .ok (some y, m) := by
  have hcompute := (Eval.apply_eq_ok.mp h).2
  cases op <;> first
    | cases hcompute
      done
    | refine ⟨rfl, ?_⟩
      simp only [perform, h]
      rfl

/-- The result of an operation that only computes. -/
theorem compute_of_performed {op : Opcode} {ty aty bty : Ty} {a b c : UInt64} {x : Option UInt64}
    {m' : Memory σ} (h : (do return (some (← Eval.apply op ty aty bty a b c), m)) =
      (.ok (x, m') : Except Fault (Option UInt64 × Memory σ))) :
    ∃ y, Eval.compute op ty aty bty a b c = .ok y ∧ x = some y ∧ m' = m := by
  cases hr : Eval.apply op ty aty bty a b c with
  | error e =>
    rw [hr] at h
    cases h
  | ok y =>
    rw [hr] at h
    cases h
    exact ⟨y, (Eval.apply_eq_ok.mp hr).2, rfl, rfl⟩

theorem computes_of_apply (hv : (f.instr i).result = some v) {x y : UInt64}
    (h : Eval.apply (f.instr i).op (f.ty v) (argTy f (f.instr i) 0) (argTy f (f.instr i) 1)
      (argBits f cells s (f.instr i) 0) (argBits f cells s (f.instr i) 1)
      (argBits f cells s (f.instr i) 2) = .ok y) (hx : fit (f.ty v) y = x) :
    Computes g o f i v s m x := by
  obtain ⟨hop, hperform⟩ := perform_of_apply (g := g) (o := o) (m := m) h
  refine ⟨hop, y, ?_, hx⟩
  have hty : opTy f (f.instr i) = f.ty v := by rw [opTy, hv]
  rw [performed, hty]
  exact hperform

end Recompiler.Meaning
