import Recompiler.Proofs.IR.Operations
import Recompiler.Proofs.Pass.Simplifying
import Recompiler.X64.Lower
import Recompiler.X64.Machine

/-!
Arithmetic of the machine. The flags of a difference answer every comparison, quotients are those of
signed numbers, and the low bits of a result depend only on the low bits of the operands.
-/
namespace Recompiler.X64

open IR

/-! ### Low bits -/

theorem exists_truncate (ty : Ty) :
    ∃ n ≤ 64, ∀ x, (Eval.truncate ty x).toNat = x.toNat % 2 ^ n := by
  have hmask (n : Nat) (x : UInt64) : x.toNat &&& (2 ^ n - 1) = x.toNat % 2 ^ n :=
    Nat.and_two_pow_sub_one_eq_mod ..
  cases ty with
  | i8 => exact ⟨8, by decide, fun x => hmask 8 x⟩
  | i16 => exact ⟨16, by decide, fun x => hmask 16 x⟩
  | i32 => exact ⟨32, by decide, fun x => hmask 32 x⟩
  | f32 => exact ⟨32, by decide, fun x => hmask 32 x⟩
  | _ => exact ⟨64, by decide, fun x => hmask 64 x⟩

theorem truncate_eq_iff (ty : Ty) : ∃ n ≤ 64, ∀ x y,
    Eval.truncate ty x = Eval.truncate ty y ↔ x.toNat ≡ y.toNat [MOD 2 ^ n] := by
  obtain ⟨n, hn, h⟩ := exists_truncate ty
  exact ⟨n, hn, fun x y => by rw [← UInt64.toNat_inj, h, h]; rfl⟩

theorem truncate_signed {ty : Ty} (h : ty.isInt = true) (x : UInt64) :
    Eval.truncate ty (Eval.signed ty x).toUInt64 = Eval.truncate ty x := by
  have hfit := Pass.Simplify.fit_signed h x
  unfold Interp.fit at hfit
  rwa [if_pos h, if_pos h] at hfit

theorem signed_i64 (x : UInt64) : (Eval.signed .i64 x).toUInt64 = x := by
  change ((x <<< 0).toInt64 >>> (0 : Int64)).toUInt64 = x
  rw [UInt64.shiftLeft_zero, Int64.shiftRight_zero]
  rfl

/-- The low bits of a product do not depend on signs. -/
theorem truncate_mul {ty : Ty} {x x' y y' : UInt64} (hx : Eval.truncate ty x = Eval.truncate ty x')
    (hy : Eval.truncate ty y = Eval.truncate ty y') :
    Eval.truncate ty (x * y) = Eval.truncate ty (x' * y') := by
  obtain ⟨n, hn, h⟩ := truncate_eq_iff ty
  have hword (u v : UInt64) : (u * v).toNat ≡ u.toNat * v.toNat [MOD 2 ^ n] := by
    rw [UInt64.toNat_mul]
    exact (Nat.mod_modEq _ _).of_dvd (Nat.pow_dvd_pow 2 hn)
  rw [h] at hx hy ⊢
  exact (hword x y).trans ((hx.mul hy).trans (hword x' y').symm)

theorem truncate_neg {ty : Ty} {x x' : UInt64} (hx : Eval.truncate ty x = Eval.truncate ty x') :
    Eval.truncate ty (-x) = Eval.truncate ty (-x') := by
  rw [UInt64.neg_eq_neg_one_mul, UInt64.neg_eq_neg_one_mul x']
  exact truncate_mul rfl hx

/-! ### Flags -/

theorem negative_wide (x : UInt64) : negative true x = x.toBitVec.msb := by
  unfold negative
  rw [BitVec.msb_eq_decide, decide_eq_decide, ← UInt64.toNat_inj]
  have hx := x.toNat_lt
  have hbit : ((x >>> 63) &&& 1).toNat = x.toNat / 2 ^ 63 % 2 := by
    rw [UInt64.toNat_and, UInt64.toNat_shiftRight, Nat.shiftRight_eq_div_pow]
    exact Nat.and_two_pow_sub_one_eq_mod _ 1
  change ((x >>> 63) &&& 1).toNat = 1 ↔ 2 ^ 63 ≤ x.toNat
  omega

theorem negative_word (x : UInt64) : negative false x = x.toUInt32.toBitVec.msb := by
  unfold negative
  rw [BitVec.msb_eq_decide, decide_eq_decide, ← UInt64.toNat_inj]
  have hbit : ((x >>> 31) &&& 1).toNat = x.toNat / 2 ^ 31 % 2 := by
    rw [UInt64.toNat_and, UInt64.toNat_shiftRight, Nat.shiftRight_eq_div_pow]
    exact Nat.and_two_pow_sub_one_eq_mod _ 1
  have hword : x.toUInt32.toBitVec.toNat = x.toNat % 2 ^ 32 := UInt64.toNat_toUInt32 x
  change ((x >>> 31) &&& 1).toNat = 1 ↔ 2 ^ 31 ≤ x.toUInt32.toBitVec.toNat
  omega

theorem negative_toUInt64 (x : Int64) : negative true x.toUInt64 = decide (x < 0) := by
  rw [negative_wide, BitVec.msb_eq_toInt, decide_eq_decide]
  exact (Int64.lt_iff_toInt_lt (x := x) (y := 0)).symm

/-- Zero after a comparison says that the operands are equal. -/
theorem holds_e (x y : UInt64) : Cond.e.holds (ArithOp.cmp.apply true x y).2 = (x == y) := by
  change decide (x - y = 0) = (x == y)
  rw [Bool.eq_iff_iff, decide_eq_true_iff, beq_iff_eq]
  constructor
  · intro h
    rw [← UInt64.sub_add_cancel x y, h, UInt64.zero_add]
  · intro h
    rw [h, UInt64.sub_self]

/-- Carry after a comparison is the unsigned order. -/
theorem holds_b (x y : UInt64) : Cond.b.holds (ArithOp.cmp.apply true x y).2 = decide (x < y) := rfl

/-- Sign and overflow of a difference, taken together, are the signed order. -/
theorem msb_sub_overflow (x y : BitVec 64) :
    ((x - y).msb != ((x ^^^ y) &&& (x ^^^ (x - y))).msb) = decide (x.toInt < y.toInt) := by
  have hx := x.isLt
  have hy := y.isLt
  have hd : (x - y).toNat =
      if y.toNat ≤ x.toNat then x.toNat - y.toNat else x.toNat + 2 ^ 64 - y.toNat := by
    rw [BitVec.toNat_sub]
    split <;> omega
  have hmsb (z : BitVec 64) : z.msb = decide (2 ^ 63 ≤ z.toNat) := BitVec.msb_eq_decide z
  have hint (z : BitVec 64) :
    z.toInt = if z.msb then (z.toNat : Int) - (2 ^ 64 : Nat) else z.toNat :=
    BitVec.toInt_eq_msb_cond z
  have hx' := hmsb x
  have hy' := hmsb y
  have hd' := hmsb (x - y)
  rw [BitVec.msb_and, BitVec.msb_xor, BitVec.msb_xor, hint x, hint y]
  cases ex : x.msb <;> cases ey : y.msb <;> cases ed : (x - y).msb <;>
    simp only [ex, ey, ed, hd, true_eq_decide_iff, false_eq_decide_iff] at hx' hy' hd' <;>
    simp <;> split at hd' <;> omega

theorem holds_l (x y : Int64) :
    Cond.l.holds (ArithOp.cmp.apply true x.toUInt64 y.toUInt64).2 = decide (x < y) := by
  change (negative true (x.toUInt64 - y.toUInt64) != negative true
    ((x.toUInt64 ^^^ y.toUInt64) &&& (x.toUInt64 ^^^ (x.toUInt64 - y.toUInt64)))) = _
  rw [negative_wide, negative_wide]
  refine (msb_sub_overflow x.toBitVec y.toBitVec).trans ?_
  rw [decide_eq_decide]
  exact Int64.lt_iff_toInt_lt.symm

theorem holds_be (x y : UInt64) :
    Cond.be.holds (ArithOp.cmp.apply true x y).2 = decide (x ≤ y) := by
  change (Cond.b.holds _ || Cond.e.holds _) = _
  rw [holds_b, holds_e, Bool.eq_iff_iff, Bool.or_eq_true, beq_iff_eq, decide_eq_true_iff,
    decide_eq_true_iff, ← UInt64.toNat_inj, UInt64.lt_iff_toNat_lt, UInt64.le_iff_toNat_le]
  omega

theorem holds_le (x y : Int64) :
    Cond.le.holds (ArithOp.cmp.apply true x.toUInt64 y.toUInt64).2 = decide (x ≤ y) := by
  have hinj : x.toUInt64 = y.toUInt64 ↔ x.toInt = y.toInt :=
    ⟨fun h => congrArg (fun u => u.toInt64.toInt) h,
      fun h => congrArg Int64.toUInt64 (Int64.toInt_inj.mp h)⟩
  change (Cond.e.holds _ || Cond.l.holds _) = _
  rw [holds_l, holds_e, Bool.eq_iff_iff, Bool.or_eq_true, beq_iff_eq, decide_eq_true_iff,
    decide_eq_true_iff, hinj, Int64.lt_iff_toInt_lt, Int64.le_iff_toInt_le]
  omega

/-- The greater orders are the complements of the smaller ones. -/
theorem holds_ae (f : Flags) : Cond.ae.holds f = !Cond.b.holds f := rfl

theorem holds_a (f : Flags) : Cond.a.holds f = !Cond.be.holds f := (Bool.not_or ..).symm

theorem holds_ge (f : Flags) : Cond.ge.holds f = !Cond.l.holds f := by
  cases hs : f.s <;> cases ho : f.o <;> simp [Cond.holds, hs, ho]

theorem holds_g (f : Flags) : Cond.g.holds f = !Cond.le.holds f := by
  cases hs : f.s <;> cases ho : f.o <;> simp [Cond.holds, hs, ho]

/-- An operand of a comparison as the machine compares it. -/
def compared (op : Opcode) (ty : Ty) (x : UInt64) : UInt64 :=
  if (conditionOf op).2 then (Eval.signed ty x).toUInt64 else x

/-- The condition chosen for a comparison gives its answer. -/
theorem compute_compare {op : Opcode} (hop : op.kind = .compare) (rty ty : Ty) (a b c : UInt64) :
    Eval.compute op rty ty ty a b c = .ok ((conditionOf op).1.holds
      (ArithOp.cmp.apply true (compared op ty a) (compared op ty b)).2).toUInt64 := by
  have hanswer {p q : Bool} (h : q = p) :
      (.ok p.toUInt64 : Except Fault UInt64) = .ok q.toUInt64 := by rw [h]
  have hnot {p q : Prop} [Decidable p] [Decidable q] (h : ¬p ↔ q) : (!decide p) = decide q := by
    rw [← decide_not, decide_eq_decide]
    exact h
  cases op with
  | cmpEq => exact hanswer (holds_e a b)
  | cmpNe => exact hanswer (congrArg not (holds_e a b))
  | cmpUlt => exact hanswer (holds_b a b)
  | cmpUle => exact hanswer (holds_be a b)
  | cmpSlt => exact hanswer (holds_l _ _)
  | cmpSle => exact hanswer (holds_le _ _)
  | cmpUge =>
    refine hanswer ((holds_ae _).trans ?_)
    rw [compared, compared]
    exact (congrArg not (holds_b a b)).trans (hnot UInt64.not_lt)
  | cmpUgt =>
    refine hanswer ((holds_a _).trans ?_)
    exact (congrArg not (holds_be a b)).trans (hnot UInt64.not_le)
  | cmpSge =>
    refine hanswer ((holds_ge _).trans ?_)
    exact (congrArg not (holds_l _ _)).trans (hnot Int64.not_lt)
  | cmpSgt =>
    refine hanswer ((holds_g _).trans ?_)
    exact (congrArg not (holds_le _ _)).trans (hnot Int64.not_le)
  | _ => cases hop

/-! ### Signs -/

/-- A number is negated unless that gives a negative one. -/
theorem neg_unless_negative (x : Int64) :
    (if -x < 0 then x else -x) = if x < 0 then -x else x := by
  have hneg (y : Int64) : y < 0 ↔ y.toInt < 0 := Int64.lt_iff_toInt_lt
  by_cases hmin : x = Int64.minValue
  · rw [hmin]
    decide
  · have hlow : -2 ^ 63 ≤ x.toInt := x.le_toInt
    have hhigh : x.toInt < 2 ^ 63 := x.toInt_lt
    have hne : x.toInt ≠ -2 ^ 63 := fun h => hmin (Int64.toInt_inj.mp h)
    have hminus : (-x).toInt = -x.toInt := by
      rw [Int64.toInt_neg, Int.bmod_def]
      split <;> omega
    by_cases hx : x < 0
    · have hlt := (hneg x).mp hx
      have hnot : ¬-x < 0 := fun h => by
        have := (hneg (-x)).mp h
        omega
      rw [if_pos hx, if_neg hnot]
    · rw [if_neg hx]
      split
      · rfl
      · have hzero : x.toInt = 0 := by
          have hle := mt (hneg x).mpr hx
          have hle' := mt (hneg (-x)).mpr ‹_›
          omega
        apply Int64.toInt_inj.mp
        omega

/-- The byte that a condition sets, extended with zeros. -/
theorem byte_setcc (p : Bool) (x : UInt64) :
    ((x &&& 0xffffffffffffff00) ||| p.toUInt64).toUInt8.toUInt64 = p.toUInt64 := by
  have hlow : (0xffffffffffffff00 : UInt64).toUInt8 = 0 := rfl
  rw [UInt64.toUInt8_or, UInt64.toUInt8_and, hlow, UInt8.and_zero, UInt8.zero_or]
  cases p <;> rfl

/-! ### Quotients -/

/-- The double word that extends a signed number has its value. -/
theorem double_signed (x : Int64) :
    double true (if negative true x.toUInt64 then 0xffffffffffffffff else 0)
      x.toUInt64 = x.toInt := by
  have hcond : x.toInt = if 2 * x.toUInt64.toNat < 2 ^ 64 then (x.toUInt64.toNat : Int) else
      x.toUInt64.toNat - (2 ^ 64 : Nat) := BitVec.toInt_eq_toNat_cond x.toBitVec
  have hnat := x.toUInt64.toNat_lt
  rw [negative_toUInt64]
  have hneg : x < 0 ↔ x.toInt < 0 := Int64.lt_iff_toInt_lt
  by_cases hx : x < 0
  · have hlt := hneg.mp hx
    have hhigh : (0xffffffffffffffff : UInt64).toInt64.toInt = -1 := by decide
    simp only [double, hx, decide_true, if_true, hhigh]
    change -1 * (2 ^ 64 : Int) + _ = _
    split at hcond <;> omega
  · have hle : ¬x.toInt < 0 := fun h => hx (hneg.mpr h)
    have hhigh : (0 : UInt64).toInt64.toInt = 0 := by decide
    simp only [double, hx, decide_false, Bool.false_eq_true, if_true, if_false, hhigh]
    split at hcond <;> omega

theorem divide_signed {x y : Int64} (hzero : y ≠ 0) (hminus : y ≠ -1) : ∃ r,
    divide true (if negative true x.toUInt64 then 0xffffffffffffffff else 0) x.toUInt64 y.toUInt64 =
      some ((Eval.divide x y).toUInt64, r) := by
  have hquotient : (x / y).toInt = x.toInt.tdiv y.toInt := Int64.toInt_div_of_ne_right x y hminus
  have hlow : -2 ^ 63 ≤ (x / y).toInt := (x / y).le_toInt
  have hhigh : (x / y).toInt < 2 ^ 63 := (x / y).toInt_lt
  have hne : y.toInt ≠ 0 := fun h => hzero (Int64.toInt_inj.mp h)
  have hfits :
    (-0x8000000000000000 ≤ (x / y).toInt && (x / y).toInt < 0x8000000000000000) = true := by
    simp only [Bool.and_eq_true, decide_eq_true_eq]
    omega
  unfold divide Eval.divide
  rw [double_signed, if_neg hzero]
  refine ⟨(Int64.ofInt (x.toInt.tmod y.toInt)).toUInt64, ?_⟩
  change (if y.toInt = 0 then none else if (-0x8000000000000000 ≤ x.toInt.tdiv y.toInt &&
    x.toInt.tdiv y.toInt < 0x8000000000000000) = true then
      some ((Int64.ofInt (x.toInt.tdiv y.toInt)).toUInt64, _) else none) = _
  rw [if_neg hne, ← hquotient, if_pos hfits, Int64.ofInt_toInt]
  rfl

theorem divide_minus_one (x : Int64) : Eval.divide x (-1) = -x := by
  have hne : (-1 : Int64) ≠ 0 := by decide
  unfold Eval.divide
  rw [if_neg hne]
  apply Int64.toInt_inj.mp
  rw [Int64.toInt_div, Int64.toInt_neg x]
  rw [show (-1 : Int64).toInt = -1 from rfl, Int.tdiv_neg, Int.tdiv_one]

/-! ### Counts -/

theorem count_wide (x : UInt64) : x.toUInt8.toUInt64 &&& 63 = x &&& 63 := by
  apply UInt64.toNat_inj.mp
  have hleft := Nat.and_two_pow_sub_one_eq_mod x.toUInt8.toUInt64.toNat 6
  have hright := Nat.and_two_pow_sub_one_eq_mod x.toNat 6
  rw [UInt64.toNat_and, UInt64.toNat_and]
  refine hleft.trans (Eq.trans ?_ hright.symm)
  rw [UInt8.toNat_toUInt64, UInt64.toNat_toUInt8]
  omega

theorem count_word (x : UInt64) : x.toUInt8.toUInt32 &&& 31 = x.toUInt32 &&& 31 := by
  apply UInt32.toNat_inj.mp
  have hleft := Nat.and_two_pow_sub_one_eq_mod x.toUInt8.toUInt32.toNat 5
  have hright := Nat.and_two_pow_sub_one_eq_mod x.toUInt32.toNat 5
  rw [UInt32.toNat_and, UInt32.toNat_and]
  refine hleft.trans (Eq.trans ?_ hright.symm)
  rw [UInt8.toNat_toUInt32, UInt64.toNat_toUInt8, UInt64.toNat_toUInt32]
  omega

/-- A negated count, of which the low bits are not zero. -/
theorem count_neg {x : UInt64} (h : x.toUInt32 &&& 31 ≠ 0) :
    (ArithOp.sub.apply false 0 x).1.toUInt8.toUInt32 &&& 31 = (~~~x.toUInt32 &&& 31) + 1 := by
  have hmod (n : UInt32) : (n &&& 31).toNat = n.toNat % 32 :=
    Nat.and_two_pow_sub_one_eq_mod n.toNat 5
  have hlow (n : UInt64) : low false n = n.toUInt32.toUInt64 := Interp.toUInt32_and_low n
  have hne : x.toUInt32.toNat % 32 ≠ 0 := fun e => h (UInt32.toNat_inj.mp ((hmod _).trans e))
  have hx := x.toUInt32.toNat_lt
  rw [count_word]
  apply UInt32.toNat_inj.mp
  change ((low false (low false 0 - low false x)).toUInt32 &&& 31).toNat = _
  rw [hlow, hlow x, UInt32.toUInt32_toUInt64, hmod, UInt32.toNat_add, hmod, UInt32.toNat_not]
  have hminus : (low false 0 - x.toUInt32.toUInt64).toUInt32.toNat =
      (2 ^ 32 - x.toUInt32.toNat) % 2 ^ 32 := by
    change (0 - x.toUInt32.toUInt64).toUInt32.toNat = _
    rw [UInt64.toNat_toUInt32, UInt64.toNat_sub, UInt32.toNat_toUInt64, UInt64.toNat_zero]
    omega
  rw [hminus, UInt32.toNat_one, show UInt32.size = 2 ^ 32 from rfl]
  omega

end Recompiler.X64
