import Mathlib
import Recompiler.Arm.Shifter

/-!
The barrel shifter. A shift by any amount is that many shifts by one bit, and its carry is the bit
that the last of them drops. Zero as an immediate amount stands for no step, for 32 of them, or for
one rotation through the carry.
-/
namespace Recompiler.Arm

/-! ### Words as bits -/

variable {v n : UInt32}

theorem wordBit_eq (v n : UInt32) : wordBit v n = v.toBitVec.getLsbD (n.toNat % 32) := by
  have hbit : (v >>> n) &&& 1 ≠ 0 ↔ v.toBitVec.getLsbD (n.toNat % 32) = true := by
    rw [Ne, ← UInt32.toNat_inj, UInt32.toNat_and, UInt32.toNat_shiftRight, BitVec.getLsbD,
      Nat.testBit_eq_decide_div_mod_eq, Nat.shiftRight_eq_div_pow]
    change ¬ (_ &&& 1 = 0) ↔ _
    rw [Nat.and_one_is_mod, decide_eq_true_iff]
    change _ ↔ v.toNat / _ % 2 = 1
    omega
  unfold wordBit
  rw [Bool.eq_iff_iff, decide_eq_true_iff]
  exact hbit

theorem toBitVec_shiftLeft (h : n < 32) : (v <<< n).toBitVec = v.toBitVec <<< n.toNat := by
  have hmod : n.toNat % 32 = n.toNat := Nat.mod_eq_of_lt (UInt32.lt_iff_toNat_lt.mp h)
  simp [hmod]

theorem toBitVec_shiftRight (h : n < 32) : (v >>> n).toBitVec = v.toBitVec >>> n.toNat := by
  have hmod : n.toNat % 32 = n.toNat := Nat.mod_eq_of_lt (UInt32.lt_iff_toNat_lt.mp h)
  simp [hmod]

theorem toBitVec_shiftSign (h : n < 32) :
    (shiftSign v n).toBitVec = v.toBitVec.sshiftRight n.toNat := by
  have hlt : n.toNat < 32 := UInt32.lt_iff_toNat_lt.mp h
  have hpos : n.toBitVec.msb = false := by
    rw [BitVec.msb_eq_decide, decide_eq_false_iff_not]
    change ¬ 2 ^ 31 ≤ n.toNat
    omega
  have hmod : (n.toBitVec.smod 32#32).toNat = n.toNat := by
    rw [BitVec.smod_eq, hpos, show (32#32).msb = false from rfl]
    exact Nat.mod_eq_of_lt hlt
  simp [shiftSign, hmod]

theorem toBitVec_rotateRight (hn : n ≠ 0) (h : n < 32) :
    (rotateRight v n).toBitVec = v.toBitVec.rotateRight n.toNat := by
  have hlt : n.toNat < 32 := UInt32.lt_iff_toNat_lt.mp h
  have hpos : n.toNat ≠ 0 := fun e => hn (UInt32.toNat_inj.mp e)
  have hleft : (4294967296 - n.toNat) % 32 = 32 - n.toNat := by omega
  have hleft' : (32 - n.toNat) % 32 = 32 - n.toNat := Nat.mod_eq_of_lt (by omega)
  simp [rotateRight, BitVec.rotateRight_def, Nat.mod_eq_of_lt hlt, hleft, hleft']

namespace Shift

/-! ### One bit -/

/-- The bits of a word move down and `top` comes in; the lowest bit drops out. -/
def down (top : Bool) (v : UInt32) : UInt32 × Bool :=
  (⟨(v.toBitVec.extractLsb' 1 31).cons top⟩, v.toBitVec.getLsbD 0)

/-- The bits of a word move up and a zero comes in; the highest bit drops out. -/
def up (v : UInt32) : UInt32 × Bool := (⟨(v.toBitVec.setWidth 31).concat false⟩, v.toBitVec.msb)

/-- A shift by one bit, with the bit that drops out as the carry. -/
def once : Shift → UInt32 × Bool → UInt32 × Bool
  | lsl, p => up p.1
  | lsr, p => down false p.1
  | asr, p => down p.1.toBitVec.msb p.1
  | ror, p => down (p.1.toBitVec.getLsbD 0) p.1

/-- A rotation by one bit in which the carry takes part. -/
def throughCarry (p : UInt32 × Bool) : UInt32 × Bool := down p.2 p.1

/-! ### Many bits -/

/-- The bits of a word after so many steps. -/
def shifted : Shift → BitVec 32 → Nat → BitVec 32
  | lsl, x, n => x <<< n
  | lsr, x, n => x >>> n
  | asr, x, n => x.sshiftRight n
  | ror, x, n => x.rotateRight n

/-- The bit of a word that the next step drops. -/
def dropped : Shift → BitVec 32 → Bool
  | lsl, x => x.msb
  | lsr, x | asr, x | ror, x => x.getLsbD 0

variable {s : Shift} {x : BitVec 32} {amount : UInt32} {k l : Nat}

theorem once_eq (s : Shift) (p : UInt32 × Bool) :
    s.once p = (⟨s.shifted p.1.toBitVec 1⟩, s.dropped p.1.toBitVec) := by
  have hbits : (s.once p).1.toBitVec = s.shifted p.1.toBitVec 1 := by
    apply BitVec.eq_of_getLsbD_eq
    intro i hi
    cases s with
    | lsl => grind [once, up, shifted]
    | lsr | asr | ror => grind [once, down, shifted]
  refine Prod.ext (UInt32.toBitVec_inj.mp hbits) ?_
  cases s <;> rfl

theorem shifted_zero (s : Shift) (x : BitVec 32) : s.shifted x 0 = x := by
  cases s <;> simp [shifted, BitVec.rotateRight_def]

theorem shifted_succ (s : Shift) (x : BitVec 32) (k : Nat) :
    s.shifted x (k + 1) = s.shifted (s.shifted x k) 1 := by
  cases s with
  | lsl => exact BitVec.shiftLeft_add x k 1
  | lsr => exact BitVec.shiftRight_add x k 1
  | asr => exact BitVec.sshiftRight_add
  | ror =>
    apply BitVec.eq_of_getLsbD_eq
    intro i hi
    grind [shifted]

/-- The carry of some steps is the bit that the last of them drops. -/
theorem iterate_once (s : Shift) (v : UInt32) (carry : Bool) (k : Nat) :
    s.once^[k + 1] (v, carry) =
      (⟨s.shifted v.toBitVec (k + 1)⟩, s.dropped (s.shifted v.toBitVec k)) := by
  induction k with
  | zero => rw [Function.iterate_one, once_eq, shifted_zero]
  | succ k ih => rw [Function.iterate_succ_apply', ih, once_eq, ← shifted_succ]

theorem dropped_shifted_lsl (x : BitVec 32) (k : Nat) :
    lsl.dropped (lsl.shifted x k) = x.getMsbD k := by
  simp [dropped, shifted, BitVec.msb_eq_getMsbD_zero]

theorem dropped_shifted_lsr (x : BitVec 32) (k : Nat) :
    lsr.dropped (lsr.shifted x k) = x.getLsbD k := by
  simp [dropped, shifted]

theorem dropped_shifted_asr (x : BitVec 32) (k : Nat) :
    asr.dropped (asr.shifted x k) = if k < 32 then x.getLsbD k else x.msb := by
  rw [dropped, shifted, BitVec.getLsbD_sshiftRight]
  simp

theorem dropped_shifted_ror (x : BitVec 32) (k : Nat) :
    ror.dropped (ror.shifted x k) = x.getLsbD (k % 32) := by
  have hlt : 0 < 32 - k % 32 := by omega
  rw [dropped, shifted, BitVec.getLsbD_rotateRight, decide_eq_true hlt, cond_true, Nat.add_zero]

/-- What has to be shown of a result with a carry. -/
theorem eq_iterate_once {p : UInt32 × Bool} (carry : Bool)
    (hvalue : p.1.toBitVec = s.shifted v.toBitVec (k + 1))
    (hcarry : p.2 = s.dropped (s.shifted v.toBitVec k)) : p = s.once^[k + 1] (v, carry) := by
  rw [iterate_once, ← hvalue, ← hcarry]

/-! ### The shifter -/

theorem short_eq (s : Shift) (hamount : amount.toNat = k + 1) (hlt : k + 1 < 32) (carry : Bool) :
    s.short v amount = s.once^[k + 1] (v, carry) := by
  have hshort : amount < 32 := UInt32.lt_iff_toNat_lt.mpr (hamount ▸ hlt)
  have hlast : wordBit v (amount - 1) = v.toBitVec.getLsbD k := by
    have hk : (amount - 1).toNat % 32 = k := by
      rw [UInt32.toNat_sub, hamount]
      change (2 ^ 32 - 1 + (k + 1)) % 2 ^ 32 % 32 = k
      omega
    rw [wordBit_eq, hk]
  cases s with
  | lsl =>
    have hk : (32 - amount).toNat % 32 = 31 - k := by
      rw [UInt32.toNat_sub, hamount]
      change (2 ^ 32 - (k + 1) + 32) % 2 ^ 32 % 32 = 31 - k
      omega
    refine eq_iterate_once carry ?_ ?_
    · rw [short, toBitVec_shiftLeft hshort, hamount, shifted]
    · rw [short, wordBit_eq, hk, dropped_shifted_lsl, BitVec.getMsbD, decide_eq_true (by omega),
        Bool.true_and]
  | lsr =>
    refine eq_iterate_once carry ?_ ?_
    · rw [short, toBitVec_shiftRight hshort, hamount, shifted]
    · rw [short, hlast, dropped_shifted_lsr]
  | asr =>
    refine eq_iterate_once carry ?_ ?_
    · rw [short, toBitVec_shiftSign hshort, hamount, shifted]
    · rw [short, hlast, dropped_shifted_asr, if_pos (by omega)]
  | ror =>
    have hpos : amount ≠ 0 := by
      rintro rfl
      cases hamount
    refine eq_iterate_once carry ?_ ?_
    · rw [short, toBitVec_rotateRight hpos hshort, hamount, shifted]
    · rw [short, hlast, dropped_shifted_ror, Nat.mod_eq_of_lt (by omega)]

/-- After 31 steps only the sign is left. -/
theorem iterate_once_asr (hk : 31 ≤ k) (carry : Bool) :
    asr.once^[k + 1] (v, carry) = (shiftSign v 31, wordBit v 31) := by
  refine (eq_iterate_once carry ?_ ?_).symm
  · rw [toBitVec_shiftSign (by decide)]
    apply BitVec.eq_of_getLsbD_eq
    intro i hi
    change (v.toBitVec.sshiftRight 31).getLsbD i = (v.toBitVec.sshiftRight (k + 1)).getLsbD i
    have hout : ¬ k + 1 + i < 32 := by omega
    grind [BitVec.msb_eq_getLsbD_last]
  · rw [wordBit_eq, dropped_shifted_asr]
    change v.toBitVec.getLsbD 31 = _
    split
    · rw [show k = 31 by omega]
    · rfl

/-- Rotations by amounts that differ by whole turns are the same. -/
theorem iterate_once_ror (h : k % 32 = l % 32) (carry : Bool) :
    ror.once^[k + 1] (v, carry) = ror.once^[l + 1] (v, carry) := by
  have hmod : (k + 1) % 32 = (l + 1) % 32 := by omega
  rw [iterate_once, iterate_once, dropped_shifted_ror, dropped_shifted_ror, h, shifted, shifted,
    ← BitVec.rotateRight_mod_eq_rotateRight, hmod, BitVec.rotateRight_mod_eq_rotateRight]

/-- A rotation by whole turns leaves the word as it is. -/
theorem iterate_once_turns (h : k % 32 = 31) (carry : Bool) :
    ror.once^[k + 1] (v, carry) = (v, wordBit v 31) := by
  refine (eq_iterate_once carry ?_ ?_).symm
  · have hmod : (k + 1) % 32 = 0 := by omega
    rw [shifted, ← BitVec.rotateRight_mod_eq_rotateRight, hmod]
    exact (shifted_zero ror v.toBitVec).symm
  · rw [wordBit_eq, dropped_shifted_ror, h]
    rfl

theorem iterate_once_lsl (hk : 31 ≤ k) (carry : Bool) :
    lsl.once^[k + 1] (v, carry) = (0, decide (k = 31) && wordBit v 0) := by
  refine (eq_iterate_once carry (BitVec.shiftLeft_eq_zero (by omega)).symm ?_).symm
  rw [wordBit_eq, dropped_shifted_lsl, BitVec.getMsbD]
  by_cases h : k = 31
  · rw [h]
    rfl
  · rw [decide_eq_false h, decide_eq_false (by omega), Bool.false_and, Bool.false_and]

theorem iterate_once_lsr (hk : 31 ≤ k) (carry : Bool) :
    lsr.once^[k + 1] (v, carry) = (0, decide (k = 31) && wordBit v 31) := by
  refine (eq_iterate_once carry (BitVec.ushiftRight_eq_zero (by omega)).symm ?_).symm
  rw [wordBit_eq, dropped_shifted_lsr]
  by_cases h : k = 31
  · rw [h]
    rfl
  · rw [decide_eq_false h, Bool.false_and, BitVec.getLsbD_of_ge _ _ (by omega)]

theorem register_of_lt (s : Shift) (hpos : amount ≠ 0) (hlt : amount < 32) (carry : Bool) :
    s.register v amount carry = s.short v amount := by
  have hlow : amount &&& 31 = amount := by
    rw [← UInt32.toNat_inj, UInt32.toNat_and]
    exact (Nat.and_two_pow_sub_one_eq_mod _ 5).trans
      (Nat.mod_eq_of_lt (UInt32.lt_iff_toNat_lt.mp hlt))
  unfold register
  rw [if_neg hpos]
  cases s with
  | lsl | lsr | asr => exact if_pos hlt
  | ror =>
    dsimp only
    rw [hlow, if_neg hpos]

theorem exists_toNat_eq (h : amount ≠ 0) : ∃ k, amount.toNat = k + 1 :=
  Nat.exists_eq_succ_of_ne_zero fun e => h (UInt32.toNat_inj.mp e)

theorem register_eq (s : Shift) (v amount : UInt32) (carry : Bool) :
    s.register v amount carry = s.once^[amount.toNat] (v, carry) := by
  by_cases hzero : amount = 0
  · rw [hzero]
    rfl
  obtain ⟨k, hk⟩ := exists_toNat_eq hzero
  have hshort : amount < 32 ↔ k + 1 < 32 := by
    rw [← hk]
    exact UInt32.lt_iff_toNat_lt
  rw [hk]
  by_cases hlt : amount < 32
  · rw [register_of_lt s hzero hlt]
    exact short_eq s hk (hshort.mp hlt) carry
  have hlong : 31 ≤ k := by
    have hk : ¬ k + 1 < 32 := mt hshort.mpr hlt
    omega
  have hword : decide (amount = 32) = decide (k = 31) := by
    rw [decide_eq_decide, ← UInt32.toNat_inj, hk]
    exact Nat.succ_inj
  unfold register
  rw [if_neg hzero]
  cases s with
  | lsl => exact (if_neg hlt).trans (by rw [iterate_once_lsl hlong, hword])
  | lsr => exact (if_neg hlt).trans (by rw [iterate_once_lsr hlong, hword])
  | asr => exact (if_neg hlt).trans (iterate_once_asr hlong carry).symm
  | ror =>
    have hlow : (amount &&& 31).toNat = (k + 1) % 32 := by
      rw [UInt32.toNat_and, hk]
      exact Nat.and_two_pow_sub_one_eq_mod _ 5
    dsimp only
    split
    case isTrue h =>
      rw [h] at hlow
      exact (iterate_once_turns (by change 0 = _ at hlow; omega) carry).symm
    case isFalse h =>
      obtain ⟨l, hl⟩ := exists_toNat_eq h
      rw [short_eq ror hl (by omega) carry]
      exact iterate_once_ror (by omega) carry

theorem rotate_eq (v : UInt32) (carry : Bool) :
    ((carry.toUInt32 <<< 31) ||| (v >>> 1), wordBit v 0) = throughCarry (v, carry) := by
  refine Prod.ext (UInt32.toBitVec_inj.mp (BitVec.eq_of_getLsbD_eq fun i hi => ?_)) (wordBit_eq v 0)
  have htop : (carry.toUInt32 <<< 31).toBitVec.getLsbD i = (carry && decide (i = 31)) := by
    revert i carry
    decide
  have hlow : (v >>> 1).toBitVec.getLsbD i = v.toBitVec.getLsbD (1 + i) := by
    rw [toBitVec_shiftRight (by decide), BitVec.getLsbD_ushiftRight]
    rfl
  rw [UInt32.toBitVec_or, BitVec.getLsbD_or, htop, hlow]
  grind [throughCarry, down]

end Shift

open Shift

/-- A shift by a register is as many shifts by one bit as the amount says, and so is one by an
immediate amount. The carry is the last bit that was shifted out. A zero stands for no shift to the
left, for all 32 to the right, and for one rotation through the carry. -/
theorem shift_eq_iterate (s : Shift) (v : UInt32) (carry : Bool) :
    (∀ amount, s.register v amount carry = s.once^[amount.toNat] (v, carry)) ∧
    (∀ amount, amount ≠ 0 → amount < 32 →
      s.immediate v amount carry = s.once^[amount.toNat] (v, carry)) ∧
    s.immediate v 0 carry = match s with
      | lsl => (v, carry)
      | lsr | asr => s.once^[32] (v, carry)
      | ror => throughCarry (v, carry) := by
  refine ⟨fun amount => register_eq s v amount carry, fun amount hpos hlt => ?_, ?_⟩
  · rw [← register_eq, register_of_lt s hpos hlt]
    exact if_pos hpos
  · unfold immediate
    rw [if_neg (not_not_intro rfl)]
    cases s with
    | lsl => rfl
    | lsr => exact (iterate_once_lsr (Nat.le_refl 31) carry).symm
    | asr => exact (iterate_once_asr (Nat.le_refl 31) carry).symm
    | ror => exact rotate_eq v carry

/-- A rotation by five. -/
theorem shift_eq_iterate_rotation : (5 : UInt32) ≠ 0 ∧ (5 : UInt32) < 32 ∧
    ror.immediate 0x80000013 5 false = ror.once^[5] (0x80000013, false) ∧
    ror.immediate 0x80000013 5 false = (0x9c000000, true) :=
  ⟨by decide, by decide, (shift_eq_iterate ror 0x80000013 false).2.1 5 (by decide) (by decide), rfl⟩

end Recompiler.Arm
