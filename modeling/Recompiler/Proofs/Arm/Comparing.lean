import Recompiler.Proofs.Arm.BlockTransfer
import Recompiler.Proofs.Arm.Shifting
import Recompiler.Proofs.Counters

/-!
Comparisons. A comparison subtracts by adding the complement and a carry, and the conditions read
the order of the operands back from the four flags: as numbers without sign from zero and carry, as
numbers with sign from zero and from whether sign and overflow differ.
-/
namespace Recompiler.Arm

open State

/-! ### Subtraction -/

/-- The sign of a word. -/
theorem wordBit_sign (x : UInt32) : wordBit x 31 = decide (2 ^ 31 ≤ x.toNat) := by
  rw [wordBit_eq]
  exact (BitVec.msb_eq_getLsbD_last x.toBitVec).symm.trans (BitVec.msb_eq_decide x.toBitVec)

theorem wordBit_xor (x y n : UInt32) : wordBit (x ^^^ y) n = (wordBit x n ^^ wordBit y n) := by
  simp only [wordBit_eq, UInt32.toBitVec_xor, BitVec.getLsbD_xor]

theorem wordBit_and (x y n : UInt32) : wordBit (x &&& y) n = (wordBit x n && wordBit y n) := by
  simp only [wordBit_eq, UInt32.toBitVec_and, BitVec.getLsbD_and]

theorem wordBit_not (x n : UInt32) : wordBit (~~~x) n = !wordBit x n := by
  have hn : n.toNat % 32 < 32 := Nat.mod_lt _ (by decide)
  simp only [wordBit_eq, UInt32.toBitVec_not, BitVec.getLsbD_not, decide_eq_true hn, Bool.true_and]

variable {a b : UInt32}

/-- The sum of a word, the complement of another and one, without wrapping. -/
theorem toNat_wide (a b : UInt32) :
    (a.toUInt64 + (~~~b).toUInt64 + true.toUInt64).toNat = a.toNat + (2 ^ 32 - b.toNat) := by
  have ha := a.toNat_lt
  have hb := b.toNat_lt
  rw [UInt64.toNat_add, UInt64.toNat_add, UInt32.toNat_toUInt64, UInt32.toNat_toUInt64,
    UInt32.toNat_not]
  change ((a.toNat + (2 ^ 32 - 1 - b.toNat)) % 2 ^ 64 + 1) % 2 ^ 64 = _
  omega

/-- Words of the same sign are in the same order with sign as without. -/
theorem lt_signed (a b : UInt32) : decide (a.toInt32 < b.toInt32) =
    if wordBit a 31 = wordBit b 31 then decide (a < b) else wordBit a 31 := by
  have ha := a.toNat_lt
  have hb := b.toNat_lt
  rw [Bool.eq_iff_iff, decide_eq_true_iff, Int32.lt_iff_toInt_lt, toInt_eq, toInt_eq, wordBit_sign,
    wordBit_sign]
  by_cases hsa : 2 ^ 31 ≤ a.toNat <;> by_cases hsb : 2 ^ 31 ≤ b.toNat <;>
    simp only [hsa, hsb, if_true, if_false, decide_true, decide_false, Bool.true_eq_false,
      Bool.false_eq_true, iff_true, iff_false, decide_eq_true_iff, UInt32.lt_iff_toNat_lt] <;> omega

/-- Words of the same sign differ without overflow. -/
theorem sign_sub (h : wordBit a 31 = wordBit b 31) : wordBit (a - b) 31 = decide (a < b) := by
  have ha := a.toNat_lt
  have hb := b.toNat_lt
  simp only [wordBit_sign, decide_eq_decide] at h ⊢
  rw [UInt32.toNat_sub, UInt32.lt_iff_toNat_lt]
  omega

/-- A difference overflows where its sign is not the order of the words as numbers with sign. -/
theorem overflow_eq (a b : UInt32) : wordBit (~~~(a ^^^ ~~~b) &&& (a ^^^ (a - b))) 31 =
    (wordBit (a - b) 31 != decide (a.toInt32 < b.toInt32)) := by
  have hsame := sign_sub (a := a) (b := b)
  rw [wordBit_and, wordBit_not, wordBit_xor, wordBit_not, wordBit_xor, lt_signed]
  cases hsa : wordBit a 31 <;> cases hsb : wordBit b 31
  case true.false | false.true => simp
  all_goals
    rw [hsa, hsb] at hsame
    simp [hsame rfl]

theorem addWithCarry_complement (a b : UInt32) : addWithCarry a (~~~b) true =
    (a - b, decide (b ≤ a), wordBit (a - b) 31 != decide (a.toInt32 < b.toInt32)) := by
  have ha := a.toNat_lt
  have hb := b.toNat_lt
  have hsub : (a.toUInt64 + (~~~b).toUInt64 + true.toUInt64).toUInt32 = a - b := by
    rw [← UInt32.toNat_inj, UInt64.toNat_toUInt32, toNat_wide, UInt32.toNat_sub]
    omega
  have hcarry : ((a.toUInt64 + (~~~b).toUInt64 + true.toUInt64) >>> 32 != 0) = decide (b ≤ a) := by
    rw [Bool.eq_iff_iff, bne_iff_ne, decide_eq_true_iff, Ne, ← UInt64.toNat_inj,
      UInt64.toNat_shiftRight,
      toNat_wide, Nat.shiftRight_eq_div_pow, UInt32.le_iff_toNat_le]
    change ¬ (_ / 2 ^ 32 = 0) ↔ _
    omega
  unfold addWithCarry
  dsimp only
  rw [hsub, hcarry, overflow_eq]

/-! ### Flags -/

variable {s : State} {raw : UInt32}

/-- A status register with a bit set or cleared. -/
def withFlag (x bit : UInt32) (on : Bool) : UInt32 := if on then x ||| bit else x &&& ~~~bit

theorem withFlag_and_of_disjoint {bit mask : UInt32} (h : bit &&& mask = 0)
    (x : UInt32) (on : Bool) :
    withFlag x bit on &&& mask = x &&& mask := by
  apply UInt32.toBitVec_inj.mp
  apply BitVec.eq_of_getLsbD_eq
  intro i hi
  have hbit : (bit.toBitVec &&& mask.toBitVec).getLsbD i = false := by
    rw [← UInt32.toBitVec_and, h]
    exact BitVec.getLsbD_zero
  cases on <;> grind [withFlag, UInt32.toBitVec_and, UInt32.toBitVec_or, UInt32.toBitVec_not]

theorem withFlag_and_self (x bit : UInt32) (on : Bool) :
    withFlag x bit on &&& bit = if on then bit else 0 := by
  cases on with
  | true =>
    apply UInt32.toBitVec_inj.mp
    apply BitVec.eq_of_getLsbD_eq
    intro i hi
    grind [withFlag, UInt32.toBitVec_and, UInt32.toBitVec_or]
  | false =>
    change x &&& ~~~bit &&& bit = 0
    rw [UInt32.and_assoc, UInt32.not_and_self, UInt32.and_zero]

/-- A status register with the four flags of arithmetic. -/
def withFlags (x : UInt32) (n z c v : Bool) : UInt32 :=
  withFlag (withFlag (withFlag (withFlag x flagN n) flagZ z) flagC c) flagV v

theorem get_cpsr_setFlag (hs : s.Sized) (bit : UInt32) (on : Bool) :
    (s.setFlag bit on).get .cpsr = withFlag (s.get .cpsr) bit on := get_set_same hs _ _

theorem State.Sized.setFlag (hs : s.Sized) (bit : UInt32) (on : Bool) : (s.setFlag bit on).Sized :=
  hs.set _ _

/-- The flags after a result with a carry and an overflow. -/
theorem get_cpsr_flags (hs : s.Sized) (r : UInt32) (carry overflow : Bool) :
    (((s.setNz r).setFlag flagC carry).setFlag flagV overflow).get .cpsr =
      withFlags (s.get .cpsr) (r >>> 31 != 0) (r == 0) carry overflow := by
  unfold setNz withFlags
  rw [get_cpsr_setFlag (((hs.setFlag _ _).setFlag _ _).setFlag _ _),
    get_cpsr_setFlag ((hs.setFlag _ _).setFlag _ _), get_cpsr_setFlag (hs.setFlag _ _),
      get_cpsr_setFlag hs]

/-! ### Conditions -/

/-- The conditions on a status register say how two words compare, as numbers without sign and with
sign. -/
structure Decides (cpsr a b : UInt32) : Prop where
  eq : condPassed cpsr 0x0 = decide (a = b)
  ne : condPassed cpsr 0x1 = decide (a ≠ b)
  cs : condPassed cpsr 0x2 = decide (a ≥ b)
  cc : condPassed cpsr 0x3 = decide (a < b)
  hi : condPassed cpsr 0x8 = decide (a > b)
  ls : condPassed cpsr 0x9 = decide (a ≤ b)
  ge : condPassed cpsr 0xa = decide (a.toInt32 ≥ b.toInt32)
  lt : condPassed cpsr 0xb = decide (a.toInt32 < b.toInt32)
  gt : condPassed cpsr 0xc = decide (a.toInt32 > b.toInt32)
  le : condPassed cpsr 0xd = decide (a.toInt32 ≤ b.toInt32)

theorem toInt32_inj : a.toInt32 = b.toInt32 ↔ a = b :=
  ⟨fun h => UInt32.toBitVec_inj.mp (congrArg Int32.toBitVec h), congrArg UInt32.toInt32⟩

theorem decides_of_flags {cpsr : UInt32} (hz : (cpsr &&& flagZ != 0) = decide (a = b))
    (hc : (cpsr &&& flagC != 0) = decide (a ≥ b))
    (hnv : ((cpsr &&& flagN != 0) != (cpsr &&& flagV != 0)) = decide (a.toInt32 < b.toInt32)) :
    Decides cpsr a b := by
  have hnv' : ((cpsr &&& flagN != 0) == (cpsr &&& flagV != 0)) =
    !decide (a.toInt32 < b.toInt32) := by
    rw [← hnv]
    exact (Bool.not_not _).symm
  constructor
  case eq => exact hz
  case ne => exact (congrArg (!·) hz).trans decide_not.symm
  case cs => exact hc
  case cc =>
    refine (congrArg (!·) hc).trans ?_
    rw [← decide_not, decide_eq_decide, UInt32.not_le]
  case hi =>
    refine (congrArg₂ (· && !·) hc hz).trans ?_
    rw [← decide_not, ← Bool.decide_and, decide_eq_decide, eq_comm]
    exact UInt32.lt_iff_le_and_ne.symm
  case ls =>
    refine (congrArg₂ (!· || ·) hc hz).trans ?_
    rw [← decide_not, ← Bool.decide_or, decide_eq_decide, UInt32.not_le]
    exact UInt32.le_iff_lt_or_eq.symm
  case ge =>
    refine hnv'.trans ?_
    rw [← decide_not, decide_eq_decide, Int32.not_lt]
  case lt => exact hnv
  case gt =>
    refine (congrArg₂ (!· && ·) hz hnv').trans ?_
    rw [← decide_not, ← decide_not, ← Bool.decide_and, decide_eq_decide, Int32.not_lt,
      ← toInt32_inj,
      and_comm, eq_comm]
    exact Int32.lt_iff_le_and_ne.symm
  case le =>
    refine (congrArg₂ (· || ·) hz hnv).trans ?_
    rw [← Bool.decide_or, decide_eq_decide, ← toInt32_inj, or_comm]
    exact Int32.le_iff_lt_or_eq.symm

/-- The sign of a word, by a shift of all other bits. -/
theorem shiftRight_sign (x : UInt32) : (x >>> 31 != 0) = wordBit x 31 := by
  have hx := x.toNat_lt
  rw [wordBit_sign, Bool.eq_iff_iff, bne_iff_ne, decide_eq_true_iff, Ne, ← UInt32.toNat_inj,
    UInt32.toNat_shiftRight, Nat.shiftRight_eq_div_pow]
  change ¬ (_ / 2 ^ 31 = 0) ↔ _
  omega

theorem sub_beq_zero (a b : UInt32) : (a - b == 0) = decide (a = b) := by
  rw [Bool.eq_iff_iff, beq_iff_eq, decide_eq_true_iff, sub_eq_zero]

theorem flags_withFlags (x : UInt32) (n z c v : Bool) :
    (withFlags x n z c v &&& flagN != 0) = n ∧ (withFlags x n z c v &&& flagZ != 0) = z ∧
      (withFlags x n z c v &&& flagC != 0) = c ∧ (withFlags x n z c v &&& flagV != 0) = v := by
  unfold withFlags
  refine ⟨?_, ?_, ?_, ?_⟩
  · rw [withFlag_and_of_disjoint (by decide), withFlag_and_of_disjoint (by decide),
      withFlag_and_of_disjoint (by decide), withFlag_and_self]
    cases n <;> rfl
  · rw [withFlag_and_of_disjoint (by decide), withFlag_and_of_disjoint (by decide),
      withFlag_and_self]
    cases z <;> rfl
  · rw [withFlag_and_of_disjoint (by decide), withFlag_and_self]
    cases c <;> rfl
  · rw [withFlag_and_self]
    cases v <;> rfl

/-- Every bit that is no flag. -/
def unflagged : UInt32 := ~~~(flagN ||| flagZ ||| flagC ||| flagV)

theorem withFlags_and_unflagged (x : UInt32) (n z c v : Bool) :
    withFlags x n z c v &&& unflagged = x &&& unflagged := by
  unfold withFlags
  rw [withFlag_and_of_disjoint (by decide), withFlag_and_of_disjoint (by decide),
    withFlag_and_of_disjoint (by decide), withFlag_and_of_disjoint (by decide)]

/-- The status register after a subtraction. -/
def compared (x a b : UInt32) : UInt32 :=
  withFlags x ((a - b) >>> 31 != 0) (a - b == 0) (decide (b ≤ a))
    (wordBit (a - b) 31 != decide (a.toInt32 < b.toInt32))

theorem decides_compared (x a b : UInt32) : Decides (compared x a b) a b := by
  obtain ⟨hn, hz, hc, hv⟩ := flags_withFlags x ((a - b) >>> 31 != 0) (a - b == 0) (decide (b ≤ a))
    (wordBit (a - b) 31 != decide (a.toInt32 < b.toInt32))
  refine decides_of_flags (hz.trans (sub_beq_zero a b)) hc ?_
  rw [compared, hn, hv, shiftRight_sign]
  cases wordBit (a - b) 31 <;> simp

/-! ### Comparisons -/

/-- The instruction subtracts to set the flags, with or without a destination. -/
def IsComparison (raw : UInt32) : Prop :=
  decode raw = .cmp ∨ decode raw = .sub ∧ bit raw 20 = true ∧ rd raw ≠ 15

/-- Data processing is decoded by its number. -/
theorem decodeData_of_decode {op : Op} (h : decode raw = op) (hop : op.traits = [.data]) :
    decodeData raw = op := by
  unfold decode at h
  dsimp only at h
  -- everything that is not data processing has other traits
  iterate 4
    split at h
    · cases h
      cases hop
  split at h
  case h_1 | h_2 => exact h
  all_goals
    repeat' split at h
    all_goals
      cases h
      cases hop

/-- Tests and comparisons set the flags. -/
theorem number_of_decodeData {op : Op} (h : decodeData raw = op) (hop : op ≠ .invalid) :
    Op.data.get (field raw 21) = op ∧
      (8 ≤ (field raw 21).val → (field raw 21).val ≤ 11 → bit raw 20 = true) := by
  rw [decodeData] at h
  by_cases hmultiply : raw &&& 0x02000090 = 0x90
  · rw [if_pos hmultiply] at h
    exact absurd h.symm hop
  rw [if_neg hmultiply] at h
  by_cases hunset : (8 ≤ (field raw 21).val && (field raw 21).val ≤ 11 && !bit raw 20) = true
  · rw [if_pos hunset] at h
    exact absurd h.symm hop
  rw [if_neg hunset] at h
  refine ⟨h, fun hlow hhigh => ?_⟩
  by_contra hbit
  rw [Bool.not_eq_true] at hbit
  exact hunset (by simp only [hlow, hhigh, hbit, decide_true, Bool.not_false, Bool.and_self])

theorem IsComparison.number (h : IsComparison raw) : bit raw 20 = true ∧
    (field raw 21 = 10 ∨ field raw 21 = 2 ∧ rd raw ≠ 15) ∧
    ∀ addr s, perform (decode raw) addr raw s = performData addr raw s := by
  have hcmp : ∀ n : Fin 16, Op.data.get n = .cmp → n = 10 := by decide
  have hsub : ∀ n : Fin 16, Op.data.get n = .sub → n = 2 := by decide
  obtain h | ⟨h, hset, hrd⟩ := h
  · obtain ⟨hnumber, hset⟩ := number_of_decodeData (decodeData_of_decode h rfl) (by decide)
    have hten := hcmp _ hnumber
    exact ⟨hset (by rw [hten]; decide) (by rw [hten]; decide), .inl hten, fun addr s =>
      by rw [h]; rfl⟩
  · obtain ⟨hnumber, -⟩ := number_of_decodeData (decodeData_of_decode h rfl) (by decide)
    exact ⟨hset, .inr ⟨hsub _ hnumber, hrd⟩, fun addr s => by rw [h]; rfl⟩

/-- How the pc reads as an operand of data processing. -/
def dataPc (addr raw : UInt32) : UInt32 := addr + if !bit raw 25 && bit raw 4 then 12 else 8

def firstOperand (s : State) (addr raw : UInt32) : UInt32 :=
  operand s (field raw 16) (dataPc addr raw)

def secondOperand (s : State) (addr raw : UInt32) : UInt32 :=
  (shifterOperand s raw (dataPc addr raw)).1

theorem operand_set_pc (s : State) (n : Fin 16) (v p : UInt32) :
    operand (s.set pc v) n p = operand s n p := by
  unfold operand
  split
  · rfl
  · next hn => exact get_set_ne _ (fun e => hn (Field.r.inj e)) _

theorem shifterOperand_set_pc (s : State) (raw v p : UInt32) :
    shifterOperand (s.set pc v) raw p = shifterOperand s raw p := by
  have hcpsr : (s.set pc v).get .cpsr = s.get .cpsr := get_set_ne s (by decide) v
  unfold shifterOperand flag
  simp only [operand_set_pc, hcpsr]

/-- What a subtraction gives. -/
theorem dataResult_sub {number : Fin 16} (h : number = 10 ∨ number = 2) (a b : UInt32)
    (carry : Bool) :
    dataResult number a b carry = (a - b, some (decide (b ≤ a),
      wordBit (a - b) 31 != decide (a.toInt32 < b.toInt32))) := by
  obtain rfl | rfl := h
  all_goals exact congrArg (fun p => (p.1, some p.2)) (addWithCarry_complement a b)

/-- A comparison compares its operands. -/
theorem IsComparison.get_cpsr (h : IsComparison raw) (hs : s.Sized) (addr : UInt32) :
    (performData addr raw s).get .cpsr =
      compared (s.get .cpsr) (firstOperand s addr raw) (secondOperand s addr raw) := by
  obtain ⟨hset, hnumber, -⟩ := h.number
  have hkept : ∀ (writes : Bool) (v : UInt32),
      (if writes then s.set (.r (rd raw)) v else s).Sized ∧
        (if writes then s.set (.r (rd raw)) v else s).get .cpsr = s.get .cpsr := by
    intro writes v
    cases writes with
    | true => exact ⟨hs.set _ _, get_set_ne s Field.noConfusion v⟩
    | false => exact ⟨hs, rfl⟩
  have hdest : (!(decide (8 ≤ (field raw 21).val) && decide ((field raw 21).val ≤ 11)) &&
      decide (rd raw = 15)) = false := by
    obtain hten | ⟨-, hrd⟩ := hnumber
    · rw [hten]
      rfl
    · rw [decide_eq_false hrd, Bool.and_false]
  unfold performData
  dsimp only
  rw [dataResult_sub (hnumber.imp_right And.left), hset, hdest]
  obtain ⟨hsized, hcpsr⟩ :=
    hkept (!(decide (8 ≤ (field raw 21).val) && decide ((field raw 21).val ≤ 11)))
    (firstOperand s addr raw - secondOperand s addr raw)
  exact (get_cpsr_flags hsized _ _ _).trans (by rw [hcpsr]; rfl)

/-- After a comparison the conditions agree with the order of its operands, whatever they are, and
no bit of the status register but the four flags has changed. -/
theorem compare_agrees (hraw : IsComparison raw) (hs : s.Sized)
    (hcond : condPassed (s.get .cpsr) (raw >>> 28) = true) (addr : UInt32) :
    Decides ((interpret addr raw s).get .cpsr) (firstOperand s addr raw)
      (secondOperand s addr raw) ∧
    (interpret addr raw s).get .cpsr &&& unflagged = s.get .cpsr &&& unflagged := by
  have hstatus : (s.set pc (addr + 4)).get .cpsr = s.get .cpsr := get_set_ne s Field.noConfusion _
  have hcompared : (interpret addr raw s).get .cpsr =
      compared (s.get .cpsr) (firstOperand s addr raw) (secondOperand s addr raw) := by
    unfold interpret
    dsimp only
    rw [hstatus, if_pos hcond, hraw.number.2.2, hraw.get_cpsr (hs.set _ _), hstatus, firstOperand,
      secondOperand, operand_set_pc, shifterOperand_set_pc]
    rfl
  rw [hcompared]
  exact ⟨decides_compared _ _ _, withFlags_and_unflagged _ _ _ _ _⟩

/-- The lowest word with sign is compared with the highest: `cmp r0, r1`. -/
theorem compare_agrees_extremes :
    let s := (blank.set (.r 0) 0x80000000).set (.r 1) 0x7fffffff
    IsComparison 0xe1500001 ∧ s.Sized ∧
      condPassed (s.get .cpsr) ((0xe1500001 : UInt32) >>> 28) = true ∧
    condPassed ((interpret 0 0xe1500001 s).get .cpsr) 0x8 = true ∧
    condPassed ((interpret 0 0xe1500001 s).get .cpsr) 0xb = true := by
  intro s
  have hraw : IsComparison 0xe1500001 := .inl (by decide)
  have hblank : blank.Sized := Array.size_replicate
  have hs : s.Sized := (hblank.set _ _).set _ _
  have hcond : condPassed (s.get .cpsr) ((0xe1500001 : UInt32) >>> 28) = true := rfl
  obtain ⟨hdecides, -⟩ := compare_agrees hraw hs hcond 0
  have hfirst : firstOperand s 0 0xe1500001 = 0x80000000 :=
    (get_set_ne _ (by decide) _).trans (get_set_same hblank (.r 0) _)
  have hsecond : secondOperand s 0 0xe1500001 = 0x7fffffff :=
    get_set_same (hblank.set _ _) (.r 1) _
  rw [hfirst, hsecond] at hdecides
  exact ⟨hraw, hs, hcond, hdecides.hi.trans (by decide), hdecides.lt.trans (by decide)⟩

end Recompiler.Arm
