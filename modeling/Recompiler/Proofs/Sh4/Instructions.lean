import Recompiler.Proofs.Sh4.Lifting

/-!
Lifted instructions one by one: the code of an instruction that does not branch does what the
interpreter does, apart from guest memory that it reaches through a mapping.
-/
namespace Recompiler.Sh4

open IR Meaning State
open Interp (fit)

variable {f : Fragment} {cells : Cells} {m : Interp.Memory Board} {x y : UInt32}

/-! ### Words and truth values -/

theorem and_one (x : UInt32) : x &&& 1 = (x &&& 1 != 0).toUInt32 := by
  have hlt : (x &&& 1).toNat < 2 := by
    rw [UInt32.toNat_and]
    exact Nat.and_lt_two_pow x.toNat (show (1 : UInt32).toNat < 2 ^ 1 by decide)
  obtain h | h : x &&& 1 = 0 ∨ x &&& 1 = 1 := by
    simp only [← UInt32.toNat_inj]
    have h₀ : (0 : UInt32).toNat = 0 := rfl
    have h₁ : (1 : UInt32).toNat = 1 := rfl
    omega
  all_goals rw [h]; rfl

theorem topBit (x : UInt32) : x >>> 31 = (x >>> 31 != 0).toUInt32 := by
  have hlt : (x >>> 31).toNat < 2 := by
    have hx := x.toNat_lt
    have hshift : (x >>> 31).toNat = x.toNat / 2 ^ 31 := by
      simp [Nat.shiftRight_eq_div_pow]
    omega
  obtain h | h : x >>> 31 = 0 ∨ x >>> 31 = 1 := by
    simp only [← UInt32.toNat_inj]
    have h₀ : (0 : UInt32).toNat = 0 := rfl
    have h₁ : (1 : UInt32).toNat = 1 := rfl
    omega
  all_goals rw [h]; rfl

/-- T as a word. -/
theorem t_word (c : Context) : Context.get c .sr &&& srT = (Context.t c).toUInt32 := by
  have hbit : Context.t c = (Context.get c .sr &&& 1 != 0) := by
    rw [Bool.eq_iff_iff]
    unfold Context.t srT
    rw [decide_eq_true_iff, bne_iff_ne]
  rw [hbit]
  exact and_one _

/-! ### Comparisons -/

theorem apply_cmpEq (x y : UInt32) :
    Eval.apply .cmpEq .i8 .i32 .i32 x.toUInt64 y.toUInt64 0 = .ok (x == y).toUInt64 := by
  have heq : (x.toUInt64 == y.toUInt64) = (x == y) := by
    rw [Bool.eq_iff_iff, beq_iff_eq, beq_iff_eq]
    exact UInt32.toUInt64_inj
  rw [← heq]
  rfl

theorem apply_cmpUge (x y : UInt32) : Eval.apply .cmpUge .i8 .i32 .i32 x.toUInt64 y.toUInt64 0 =
    .ok (decide (x ≥ y)).toUInt64 := by
  have hle : x.toUInt64 ≥ y.toUInt64 ↔ x ≥ y := by
    rw [ge_iff_le, ge_iff_le, UInt64.le_iff_toNat_le, UInt32.le_iff_toNat_le, UInt32.toNat_toUInt64,
      UInt32.toNat_toUInt64]
  rw [Eval.apply_eq (by decide) (by decide)]
  simp only [Eval.compute, hle]

theorem apply_cmpUgt (x y : UInt32) : Eval.apply .cmpUgt .i8 .i32 .i32 x.toUInt64 y.toUInt64 0 =
    .ok (decide (x > y)).toUInt64 := by
  have hlt : x.toUInt64 > y.toUInt64 ↔ x > y := by
    rw [gt_iff_lt, gt_iff_lt, UInt64.lt_iff_toNat_lt, UInt32.lt_iff_toNat_lt, UInt32.toNat_toUInt64,
      UInt32.toNat_toUInt64]
  rw [Eval.apply_eq (by decide) (by decide)]
  simp only [Eval.compute, hlt]

/-- A word as a signed number of either width. -/
theorem toInt_signed (x : UInt32) : (Eval.signed .i32 x.toUInt64).toInt = x.toInt32.toInt := by
  rw [signed_i32, UInt32.toUInt32_toUInt64, Int32.toInt_toInt64]

theorem apply_cmpSge (x y : UInt32) : Eval.apply .cmpSge .i8 .i32 .i32 x.toUInt64 y.toUInt64 0 =
    .ok (decide (x.toInt32 ≥ y.toInt32)).toUInt64 := by
  have hle : Eval.signed .i32 x.toUInt64 ≥ Eval.signed .i32 y.toUInt64 ↔ x.toInt32 ≥ y.toInt32 := by
    rw [ge_iff_le, ge_iff_le, Int64.le_iff_toInt_le, Int32.le_iff_toInt_le,
      toInt_signed, toInt_signed]
  rw [Eval.apply_eq (by decide) (by decide)]
  simp only [Eval.compute, hle]

theorem apply_cmpSgt (x y : UInt32) : Eval.apply .cmpSgt .i8 .i32 .i32 x.toUInt64 y.toUInt64 0 =
    .ok (decide (x.toInt32 > y.toInt32)).toUInt64 := by
  have hlt : Eval.signed .i32 x.toUInt64 > Eval.signed .i32 y.toUInt64 ↔ x.toInt32 > y.toInt32 := by
    rw [gt_iff_lt, gt_iff_lt, Int64.lt_iff_toInt_lt, Int32.lt_iff_toInt_lt,
      toInt_signed, toInt_signed]
  rw [Eval.apply_eq (by decide) (by decide)]
  simp only [Eval.compute, hlt]

/-! ### Extensions -/

theorem sext_byte (u : UInt64) : ∃ w, Eval.apply .sext .i32 .i8 .i64 (fit .i8 u) 0 0 = .ok w ∧
    w.toUInt32 = signByte u.toUInt32 := by
  refine ⟨_, rfl, ?_⟩
  rw [toUInt32_signed_i8]
  have hlow : (fit .i8 u).toUInt8 = u.toUInt32.toUInt8 := by
    have hand : u.toUInt8 &&& 0xff = u.toUInt8 := UInt8.and_neg_one
    change (u &&& 0xff).toUInt8 = _
    simpa using hand
  rw [hlow]
  rfl

theorem sext_word (u : UInt64) : ∃ w, Eval.apply .sext .i32 .i16 .i64 (fit .i16 u) 0 0 = .ok w ∧
    w.toUInt32 = signWord u.toUInt32 := by
  refine ⟨_, rfl, ?_⟩
  rw [toUInt32_signed_i16]
  have hlow : (fit .i16 u).toUInt16 = u.toUInt32.toUInt16 := by
    have hand : u.toUInt16 &&& 0xffff = u.toUInt16 := UInt16.and_neg_one
    change (u &&& 0xffff).toUInt16 = _
    simpa using hand
  rw [hlow]
  rfl

theorem zext_byte (x : UInt32) : ∃ w,
    Eval.apply .zext .i32 .i8 .i64 (fit .i8 x.toUInt64) 0 0 = .ok w ∧ w.toUInt32 = x &&& 0xff := by
  refine ⟨_, rfl, ?_⟩
  change (x.toUInt64 &&& 0xff).toUInt32 = _
  simp

theorem zext_word (x : UInt32) : ∃ w,
    Eval.apply .zext .i32 .i16 .i64 (fit .i16 x.toUInt64) 0 0 = .ok w ∧
      w.toUInt32 = x &&& 0xffff := by
  refine ⟨_, rfl, ?_⟩
  change (x.toUInt64 &&& 0xffff).toUInt32 = _
  simp

/-! ### Loads and stores -/

variable (mem : Option FastMem) (raw : UInt32)

theorem emits_loadLong : Emits guest offsets (Lift.loadReg mem raw .i32) f cells m fun _ _ _ m' =>
    m' = withWorld m (State.set m.world (.r (rn raw))
      (readVia mem .w32 (State.get m.world (.r (rm raw))) m.world).toUInt32) := by
  refine (emits_load (.r (rm raw))).bind ?_
  rintro a f₁ s₁ m₁ - ⟨rfl, ha⟩
  refine (emits_loadMem mem rfl ha).bind ?_
  rintro v f₂ s₂ m₂ - ⟨rfl, hv⟩
  rw [fit_i32] at hv
  exact emits_store (.r (rn raw)) hv

/-- A load of less than a word extends with the sign. -/
theorem emits_loadShort {ty : Ty} {E : UInt32 → UInt32} (hty : ty.isInt = true) (hne : ty ≠ .i32)
    (h : ∀ u : UInt64, ∃ w, Eval.apply .sext .i32 ty .i64 (fit ty u) 0 0 = .ok w ∧
      w.toUInt32 = E u.toUInt32) :
    Emits guest offsets (Lift.loadReg mem raw ty) f cells m fun _ _ _ m' =>
      m' = withWorld m (State.set m.world (.r (rn raw))
        (E (readVia mem (.ofTy ty) (State.get m.world (.r (rm raw))) m.world).toUInt32)) := by
  refine (emits_load (.r (rm raw))).bind ?_
  rintro a f₁ s₁ m₁ - ⟨rfl, ha⟩
  refine (emits_loadMem mem hty ha).bind ?_
  rintro v f₂ s₂ m₂ - ⟨rfl, hv⟩
  rw [if_neg (by simpa using hne)]
  obtain ⟨w, happly, hw⟩ := h (readVia mem (.ofTy ty) (State.get m₂.world (.r (rm raw))) m₂.world)
  have hconv : Build.converts .sext ty .i32 = true := by
    unfold Build.converts
    rw [hty]
    rfl
  refine (emits_convert hv hconv happly (fit_word hw)).bind ?_
  rintro e f₃ s₃ m₃ - ⟨rfl, he⟩
  exact emits_store (.r (rn raw)) he

theorem emits_storeLong : Emits guest offsets (Lift.storeReg mem raw .i32) f cells m fun _ _ _ m' =>
    m' = withWorld m (writeVia mem .w32 (State.get m.world (.r (rn raw)))
      ((State.get m.world (.r (rm raw))).toUInt64 &&& Width.w32.mask) m.world) := by
  refine (emits_load (.r (rn raw))).bind ?_
  rintro a f₁ s₁ m₁ - ⟨rfl, ha⟩
  refine (emits_load (.r (rm raw))).bind ?_
  rintro v f₂ s₂ m₂ hkeep ⟨rfl, hv⟩
  dsimp only
  rw [if_pos (by decide), pure_bind]
  have hstore : Emits guest offsets (Recompiler.Lift.storeMem mem a v) f₂ s₂ m₂ _ :=
    emits_storeMem mem rfl (hkeep ha) hv
  exact hstore

/-- A store of less than a word takes the low bits. -/
theorem emits_storeShort {ty : Ty} (hty : ty.isInt = true) (hne : ty ≠ .i32)
    (hmask : ∀ u : UInt64, fit ty u &&& (Width.ofTy ty).mask = u &&& (Width.ofTy ty).mask) :
    Emits guest offsets (Lift.storeReg mem raw ty) f cells m fun _ _ _ m' =>
      m' = withWorld m (writeVia mem (.ofTy ty) (State.get m.world (.r (rn raw)))
        ((State.get m.world (.r (rm raw))).toUInt64 &&& (Width.ofTy ty).mask) m.world) := by
  refine (emits_load (.r (rn raw))).bind ?_
  rintro a f₁ s₁ m₁ - ⟨rfl, ha⟩
  refine (emits_load (.r (rm raw))).bind ?_
  rintro v f₂ s₂ m₂ hkeep ⟨rfl, hv⟩
  rw [if_neg (by simpa using hne)]
  have hconv : Build.converts .trunc .i32 ty = true := hty
  refine (emits_convert hv hconv rfl rfl).bind ?_
  rintro e f₃ s₃ m₃ hkeep' ⟨rfl, he⟩
  rw [← hmask]
  exact emits_storeMem mem hty (hkeep' (hkeep ha)) he

theorem mask_fit {ty : Ty} (hty : ty = .i8 ∨ ty = .i16) (u : UInt64) :
    fit ty u &&& (Width.ofTy ty).mask = u &&& (Width.ofTy ty).mask := by
  obtain rfl | rfl := hty
  · exact (UInt64.and_assoc u 0xff 0xff).trans (congrArg (u &&& ·) UInt64.and_self)
  · exact (UInt64.and_assoc u 0xffff 0xffff).trans (congrArg (u &&& ·) UInt64.and_self)

/-! ### Instructions -/

theorem low_not (n : UInt32) : (~~~n &&& 31) + 1 = 32 - (n &&& 31) := by
  have hn := n.toNat_lt
  apply UInt32.toNat_inj.mp
  rw [UInt32.toNat_add, UInt32.toNat_sub, UInt32.toNat_and, UInt32.toNat_and, UInt32.toNat_not]
  change (((2 ^ 32 - 1 - n.toNat) &&& 2 ^ 5 - 1) + 1) % 2 ^ 32 =
    (2 ^ 32 - (n.toNat &&& 2 ^ 5 - 1) + 32) % 2 ^ 32
  rw [Nat.and_two_pow_sub_one_eq_mod, Nat.and_two_pow_sub_one_eq_mod]
  omega

/-- The interpreter shifts by the same amount that lifted code does. -/
theorem shiftDynamic_eq (v n : UInt32) (arithmetic : Bool) :
    shiftDynamic v n arithmetic = Eval.shiftSigned v n arithmetic := by
  unfold shiftDynamic Eval.shiftSigned
  by_cases hsign : n.toInt32 ≥ 0
  · rw [if_pos hsign, if_pos hsign]
  · rw [if_neg hsign, if_neg hsign, low_not]
    by_cases hlow : n &&& 31 = 0 <;> cases arithmetic <;> simp [hlow]

theorem computes_shiftSigned {op : Opcode} {arithmetic : Bool}
    (h : ∀ x y : UInt32, Eval.compute op .i32 .i32 .i32 x.toUInt64 y.toUInt64 0 =
      .ok (Eval.shiftSigned x y arithmetic).toUInt64) :
    Computes32 (Build.shiftSigned op) fun x y => shiftDynamic x y arithmetic := by
  intro f s m a b x y ha hb
  refine emits_shiftSigned ha hb ((Eval.apply_eq (by decide) (by decide) ..).trans (h x y)) ?_
  exact (UInt32.toUInt32_toUInt64 _).trans (shiftDynamic_eq x y arithmetic).symm

/-- Compare a value with a constant. -/
theorem emits_isConst {v : ValueId} (y : UInt32) (hv : Holds32 f cells v x) :
    Emits guest offsets (do Lift.storeT (← Build.compare .cmpEq v (← Build.i32 y))) f cells m
      fun _ _ _ m' => m' = withWorld m (State.modify m.world fun c => Context.setT c (x == y)) := by
  refine (emits_i32 y).bind ?_
  rintro a f₁ s₁ m₁ hkeep ⟨rfl, ha⟩
  refine (emits_compare (hkeep hv) ha (apply_cmpEq x y)).bind ?_
  rintro t f₂ s₂ m₂ - ⟨rfl, ht⟩
  exact emits_storeT ht

/-- Shift a register by one bit; the bit that falls out goes to T. -/
theorem emits_shiftOut {op : Opcode} (n : Field) (act : ValueId → Build ValueId)
    (bit : UInt32 → Bool) (F : UInt32 → UInt32)
    (hact : ∀ {f : Fragment} {s : Cells} {m : Interp.Memory Board} {v : ValueId} {x : UInt32},
      Holds32 f s v x → Emits guest offsets (act v) f s m fun t f' s' m' =>
        m' = m ∧ Holds32 f' s' t (bit x).toUInt32)
    (happly : ∀ x : UInt32, ∃ w,
      Eval.apply op .i32 .i32 .i32 x.toUInt64 (1 : UInt32).toUInt64 0 = .ok w ∧ w.toUInt32 = F x) :
    Emits guest offsets (do
      let v ← Lift.load n
      Lift.storeT (← act v)
      Lift.store n (← Build.shiftBy op v 1)) f cells m fun _ _ _ m' =>
        m' = withWorld m (State.set (State.modify m.world fun c =>
          Context.setT c (bit (State.get m.world n))) n (F (State.get m.world n))) := by
  refine (emits_load n).bind ?_
  rintro v f₁ s₁ m₁ - ⟨rfl, hv⟩
  refine (hact hv).bind ?_
  rintro t f₂ s₂ m₂ hkeep₂ ⟨rfl, ht⟩
  refine (emits_storeT_word ht).bind ?_
  rintro _ f₃ s₃ m₃ hkeep₃ rfl
  obtain ⟨w, hw, hF⟩ := happly (State.get m₂.world n)
  refine (emits_shiftBy (hkeep₃ (hkeep₂ hv)) hw hF).bind ?_
  rintro r f₄ s₄ m₄ - ⟨rfl, hr⟩
  exact emits_store n hr

/-- The code of an instruction that does not write the pc. -/
theorem emits_simple {op : Op} (hop : op.has .storePc = false) (addr : UInt32) :
    Emits guest offsets (Lift.simple mem op addr raw) f cells m fun _ _ _ m' =>
      m' = withWorld m (performVia mem op addr raw m.world) := by
  cases op
  all_goals dsimp only [Lift.simple, performVia, perform]
  case nop => exact .pure rfl
  case movImm => exact emits_storeConst _ _
  case mov => exact emits_move (.r (rn raw)) (.r (rm raw))
  case loadByte => exact emits_loadShort mem raw rfl (by decide) sext_byte
  case loadWord => exact emits_loadShort mem raw rfl (by decide) sext_word
  case loadLong => exact emits_loadLong mem raw
  case storeByte => exact emits_storeShort mem raw rfl (by decide) (mask_fit (.inl rfl))
  case storeWord => exact emits_storeShort mem raw rfl (by decide) (mask_fit (.inr rfl))
  case storeLong => exact emits_storeLong mem raw
  case loadPcRel =>
    refine (emits_i32 (pcRelative addr (imm8 raw))).bind ?_
    rintro a f₁ s₁ m₁ - ⟨rfl, ha⟩
    refine (emits_loadMem mem (show Ty.i32.isInt = true from rfl) ha).bind ?_
    rintro v f₂ s₂ m₂ - ⟨rfl, hv⟩
    rw [fit_i32] at hv
    exact emits_store (.r (rn raw)) hv
  case mova => exact emits_storeConst _ _
  case movt =>
    refine emits_loadT.bind ?_
    rintro v f₁ s₁ m₁ - ⟨rfl, hv⟩
    rw [show State.get m₁.world .sr &&& srT = _ from t_word m₁.world.ctx] at hv
    exact emits_store (.r (rn raw)) hv
  case extSByte => exact emits_extend raw rfl rfl fun x => by simpa using sext_byte x.toUInt64
  case extSWord => exact emits_extend raw rfl rfl fun x => by simpa using sext_word x.toUInt64
  case extUByte => exact emits_extend raw rfl rfl zext_byte
  case extUWord => exact emits_extend raw rfl rfl zext_word
  case add =>
    have h : Computes32 Build.add fun x y => x + y := emits_add
    exact emits_arith raw h
  case addImm =>
    refine (emits_load (.r (rn raw))).bind ?_
    rintro a f₁ s₁ m₁ - ⟨rfl, ha⟩
    refine (emits_i32 (simm8 raw).toUInt32).bind ?_
    rintro b f₂ s₂ m₂ hkeep ⟨rfl, hb⟩
    refine (emits_add (hkeep ha) hb).bind ?_
    rintro c f₃ s₃ m₃ - ⟨rfl, hc⟩
    exact emits_store (.r (rn raw)) hc
  case sub =>
    have h : Computes32 Build.sub fun x y => x - y := emits_sub
    exact emits_arith raw h
  case and =>
    have h : Computes32 Build.and fun x y => x &&& y := emits_and
    exact emits_arith raw h
  case or =>
    have h : Computes32 Build.or fun x y => x ||| y := emits_or
    exact emits_arith raw h
  case xor =>
    have h : Computes32 Build.xor fun x y => x ^^^ y := emits_xor
    exact emits_arith raw h
  case not =>
    refine (emits_load (.r (rm raw))).bind ?_
    rintro a f₁ s₁ m₁ - ⟨rfl, ha⟩
    refine (emits_not ha).bind ?_
    rintro c f₂ s₂ m₂ - ⟨rfl, hc⟩
    exact emits_store (.r (rn raw)) hc
  case dt =>
    refine (emits_load (.r (rn raw))).bind ?_
    rintro a f₁ s₁ m₁ - ⟨rfl, ha⟩
    refine (emits_i32 1).bind ?_
    rintro b f₂ s₂ m₂ hkeep ⟨rfl, hb⟩
    refine (emits_sub (hkeep ha) hb).bind ?_
    rintro c f₃ s₃ m₃ - ⟨rfl, hc⟩
    refine (emits_store (.r (rn raw)) hc).bind ?_
    rintro _ f₄ s₄ m₄ hkeep' rfl
    refine (emits_isConst 0 (hkeep' hc)).mono ?_
    rintro _ f₅ s₅ m₅ - rfl
    rw [withWorld_withWorld, world_withWorld]
  case shll =>
    refine emits_shiftOut (.r (rn raw)) (Build.shiftBy .lshr · 31) (· >>> 31 != 0) (· <<< 1)
      (fun hv => ?_) fun x => ⟨_, rfl, toUInt32_shiftLeft (by decide) x⟩
    refine emits_shiftBy hv rfl ?_
    rw [toUInt32_shiftRight (by decide)]
    exact topBit _
  case shlr =>
    refine emits_shiftOut (.r (rn raw)) (fun v => do Build.and v (← Build.i32 1)) (· &&& 1 != 0)
      (· >>> 1) (fun hv => ?_) fun x => ⟨_, rfl, toUInt32_shiftRight (by decide) x⟩
    refine (emits_i32 1).bind ?_
    rintro a f₁ s₁ m₁ hkeep ⟨rfl, ha⟩
    rw [← and_one]
    exact emits_and (hkeep hv) ha
  case shad => exact emits_arith raw (computes_shiftSigned fun x y => by simp [Eval.compute])
  case shld => exact emits_arith raw (computes_shiftSigned fun x y => by simp [Eval.compute])
  case cmpEq => exact emits_test raw apply_cmpEq
  case cmpHs => exact emits_test raw apply_cmpUge
  case cmpGe => exact emits_test raw apply_cmpSge
  case cmpHi => exact emits_test raw apply_cmpUgt
  case cmpGt => exact emits_test raw apply_cmpSgt
  case cmpEqImm =>
    refine (emits_load (.r 0)).bind ?_
    rintro a f₁ s₁ m₁ - ⟨rfl, ha⟩
    exact emits_isConst (simm8 raw).toUInt32 ha
  case tst =>
    refine (emits_load (.r (rn raw))).bind ?_
    rintro a f₁ s₁ m₁ - ⟨rfl, ha⟩
    refine (emits_load (.r (rm raw))).bind ?_
    rintro b f₂ s₂ m₂ hkeep ⟨rfl, hb⟩
    refine (emits_and (hkeep ha) hb).bind ?_
    rintro c f₃ s₃ m₃ - ⟨rfl, hc⟩
    exact emits_isConst 0 hc
  case clrt =>
    refine (emits_i32 0).bind ?_
    rintro a f₁ s₁ m₁ - ⟨rfl, ha⟩
    have ha : Holds32 f₁ s₁ a false.toUInt32 := ha
    exact emits_storeT_word ha
  case sett =>
    refine (emits_i32 1).bind ?_
    rintro a f₁ s₁ m₁ - ⟨rfl, ha⟩
    have ha : Holds32 f₁ s₁ a true.toUInt32 := ha
    exact emits_storeT_word ha
  case ldcSr =>
    refine (emits_load (.r (rn raw))).bind ?_
    rintro a f₁ s₁ m₁ - ⟨rfl, ha⟩
    exact emits_storeSr ha
  case stcSr => exact emits_move _ _
  case ldsFpscr =>
    refine (emits_load (.r (rn raw))).bind ?_
    rintro a f₁ s₁ m₁ - ⟨rfl, ha⟩
    exact emits_storeFpscr ha
  case stsFpscr => exact emits_move _ _
  case ldsPr => exact emits_move _ _
  case stsPr => exact emits_move _ _
  all_goals cases hop

end Recompiler.Sh4
