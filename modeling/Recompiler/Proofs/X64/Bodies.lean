import Recompiler.Proofs.X64.Working

/-!
What the code between the operands and the result computes: one instruction, or a few with jumps
around each other. Operands are in the first two scratch registers, the result in the first.
-/
namespace Recompiler.X64

open IR X64.Machine

variable {σ : Type} {g : Guest σ} {m m' : Machine σ} {a : Assembly}

/-- The code puts a value into the first scratch register. -/
def Makes (g : Guest σ) (a : Assembly) (m : Machine σ) (y : UInt64) : Prop :=
  ∃ m', Works g a m m' ∧ m'.gpr tmp0 = y

theorem works_step {j : Instruction} (hsaid : j.said = j) (hstep : m.step g j = .ok (.inl m'))
    (h : Undisturbed m m') : Works g [.instr j] m m' := ⟨runs_instr hsaid hstep, h⟩

theorem Makes.zeroExtend {y : UInt64} (h : Makes g a m y) (ty : Ty) :
    Makes g (a ++ zeroExtend ty tmp0) m (Eval.truncate ty y) := by
  obtain ⟨m', hw, hy⟩ := h
  have hextend := works_zeroExtend (g := g) (r := tmp0) rfl ty m'
  have hresult : (m'.setGpr tmp0 (Eval.truncate ty (m'.gpr tmp0))).gpr tmp0 =
    Eval.truncate ty y := by
    rw [gpr_setGpr_self, hy]
  exact ⟨_, hw.append hextend, hresult⟩

theorem undisturbed_setArith {dst : Gpr} (hdst : (HostReg.gpr dst).isScratch = true) (op : ArithOp)
    (r : UInt64 × Flags) (m : Machine σ) : Undisturbed m (m.setArith op dst r) := by
  have hflags := Undisturbed.flags m r.2
  unfold setArith
  dsimp only
  split
  · exact hflags
  · exact hflags.trans (.put (h := .gpr dst) hdst _ _)

/-! ### Single instructions -/

theorem makes_arith {op : ArithOp} (hop : op ≠ .cmp) (m : Machine σ) :
    Makes g [.instr (.arith op true tmp0 tmp1)] m
      (op.apply true (m.gpr tmp0) (m.gpr tmp1)).1 := by
  have hw := works_step (g := g) (j := .arith op true tmp0 tmp1) rfl rfl
    (undisturbed_setArith rfl op (op.apply true (m.gpr tmp0) (m.gpr tmp1)) m)
  refine ⟨_, hw, ?_⟩
  unfold setArith
  dsimp only
  rw [if_neg hop, gpr_setGpr_self]

theorem makes_imul (m : Machine σ) :
    Makes g [.instr (.imul true tmp0 tmp1)] m (m.gpr tmp0 * m.gpr tmp1) :=
  ⟨_, works_put (h := .gpr tmp0) rfl rfl rfl, gpr_setGpr_self m tmp0 _⟩

theorem makes_not (m : Machine σ) : Makes g [.instr (.unary .not true tmp0)] m (~~~m.gpr tmp0) :=
  ⟨_, works_put (h := .gpr tmp0) rfl rfl rfl, gpr_setGpr_self m tmp0 _⟩

theorem works_neg (m : Machine σ) : Works g [.instr (.unary .neg true tmp0)] m
    (m.setArith .sub tmp0 (ArithOp.sub.apply true 0 (m.gpr tmp0))) :=
  works_step rfl rfl (undisturbed_setArith rfl _ _ m)

theorem makes_neg (m : Machine σ) : Makes g [.instr (.unary .neg true tmp0)] m (-m.gpr tmp0) := by
  refine ⟨_, works_neg m, ?_⟩
  have hresult : (m.setArith .sub tmp0 (ArithOp.sub.apply true 0 (m.gpr tmp0))).gpr tmp0 =
      0 - m.gpr tmp0 := gpr_setGpr_self _ tmp0 _
  rw [hresult, UInt64.zero_sub]

theorem makes_shiftCl (op : ShiftOp) (m : Machine σ) : Makes g [.instr (.shiftCl op true tmp0)] m
    (op.apply true (m.gpr tmp0) (m.gpr tmp1).toUInt8) :=
  ⟨_, works_put (h := .gpr tmp0) rfl rfl rfl, gpr_setGpr_self m tmp0 _⟩

/-! ### Runs of instructions -/

/-- Whether a line is read back as itself. -/
def Line.isPlain : Line → Bool
  | instr (.extend e dst src) => !e.hidesByte dst src
  | instr (.extendHigh ..) => false
  | _ => true

theorem plain_of_all (h : a.all Line.isPlain = true) : a.Plain := fun j hj => by
  have hline := List.all_eq_true.mp h _ hj
  apply Instruction.said_eq_self
  · rintro dst src rfl
    cases hline
  · rintro e dst src rfl
    simpa [Line.isPlain] using hline

/-- Negate, and take the operand back where that gives a negative number. -/
theorem makes_abs {x : Int64} (hx : m.gpr tmp0 = x.toUInt64) :
    Makes g [.instr (.mov true tmp1 tmp0), .instr (.unary .neg true tmp0),
      .instr (.cmov .s true tmp0 tmp1)] m (if x < 0 then -x else x).toUInt64 := by
  have hcopy : Works g [.instr (.mov true tmp1 tmp0)] m (m.setGpr tmp1 (m.gpr tmp0)) :=
    works_put (h := .gpr tmp1) rfl rfl rfl
  have hneg := works_neg (g := g) (m.setGpr tmp1 (m.gpr tmp0))
  generalize hm₁ : m.setGpr tmp1 (m.gpr tmp0) = m₁ at hcopy hneg
  have hx₁ : m₁.gpr tmp0 = x.toUInt64 := by
    rw [← hm₁, gpr_setGpr_of_ne _ (by decide), hx]
  have hy₁ : m₁.gpr tmp1 = x.toUInt64 := by
    rw [← hm₁, gpr_setGpr_self, hx]
  rw [hx₁] at hneg
  generalize hm₂ : m₁.setArith .sub tmp0 (ArithOp.sub.apply true 0 x.toUInt64) = m₂ at hneg
  have hx₂ : m₂.gpr tmp0 = (-x).toUInt64 := by
    rw [← hm₂]
    exact (gpr_setGpr_self _ tmp0 _).trans ((UInt64.zero_sub _).trans (Int64.toUInt64_neg x).symm)
  have hy₂ : m₂.gpr tmp1 = x.toUInt64 := by
    rw [← hm₂, ← hy₁]
    exact gpr_setGpr_of_ne _ (by decide) _
  have hs₂ : Cond.s.holds m₂.flags = decide (-x < 0) := by
    rw [← hm₂, ← negative_toUInt64, Int64.toUInt64_neg]
    exact congrArg (negative true) (UInt64.zero_sub _)
  have hmove : Works g [.instr (.cmov .s true tmp0 tmp1)] m₂
      (m₂.setGpr tmp0 (if Cond.s.holds m₂.flags then m₂.gpr tmp1 else m₂.gpr tmp0)) :=
    works_put (h := .gpr tmp0) rfl rfl rfl
  refine ⟨_, (hcopy.append hneg).append hmove, ?_⟩
  rw [gpr_setGpr_self, hs₂, hx₂, hy₂, ← neg_unless_negative]
  by_cases hneg : -x < 0 <;> simp [hneg]

/-- Set a register from the answer of a comparison. -/
theorem makes_compare (cond : Cond) (m : Machine σ) :
    Makes g [.instr (.arith .cmp true tmp0 tmp1), .instr (.setcc cond tmp0),
      .instr (.extend .movzbl tmp0 tmp0)] m
      (cond.holds (ArithOp.cmp.apply true (m.gpr tmp0) (m.gpr tmp1)).2).toUInt64 := by
  have hcmp : Works g [.instr (.arith .cmp true tmp0 tmp1)] m
      (m.setArith .cmp tmp0 (ArithOp.cmp.apply true (m.gpr tmp0) (m.gpr tmp1))) :=
    works_step rfl rfl (undisturbed_setArith rfl _ _ m)
  have hflags : (m.setArith .cmp tmp0 (ArithOp.cmp.apply true (m.gpr tmp0) (m.gpr tmp1))).flags =
      (ArithOp.cmp.apply true (m.gpr tmp0) (m.gpr tmp1)).2 := rfl
  generalize m.setArith .cmp tmp0 _ = m₁ at hcmp hflags
  have hset : Works g [.instr (.setcc cond tmp0)] m₁ (m₁.setGpr tmp0
      ((m₁.gpr tmp0 &&& 0xffffffffffffff00) ||| (cond.holds m₁.flags).toUInt64)) :=
    works_put (h := .gpr tmp0) rfl rfl rfl
  have hbyte := byte_setcc (cond.holds m₁.flags) (m₁.gpr tmp0)
  generalize hm₂ : m₁.setGpr tmp0 _ = m₂ at hset
  have hextend : Works g [.instr (.extend .movzbl tmp0 tmp0)] m₂
      (m₂.setGpr tmp0 (cond.holds m₁.flags).toUInt64) := by
    refine works_extend rfl ?_
    rw [← hm₂, gpr_setGpr_self]
    exact hbyte
  exact ⟨_, (hcmp.append hset).append hextend, by rw [gpr_setGpr_self, hflags]⟩

/-! ### Jumps -/

theorem works_label (l : Label) (m : Machine σ) : Works g [.label l] m m :=
  ⟨⟨plain_of_all rfl, fun _ => rfl⟩, .refl m⟩

theorem works_untaken {cond : Option Cond} (h : taken cond m.flags = false) (t : Label) :
    Works g [.jump cond t] m m where
  plain := plain_of_all rfl
  walks rest := by
    rw [List.singleton_append, walk, h]
    rfl
  undisturbed := .refl m

theorem works_taken {cond : Option Cond} {t : Label} (h : taken cond m.flags = true)
    (hskip : a.all Line.isPlain = true) (hlabel : .label t ∉ a) :
    Works g (.jump cond t :: a ++ [.label t]) m m where
  plain := by
    apply plain_of_all
    simp [hskip, Line.isPlain]
  walks rest := by
    rw [List.append_assoc, List.cons_append, walk, h]
    exact walk_skip hlabel rest m
  undisturbed := .refl m

/-- A test sets flags from one register. -/
theorem works_test (wide : Bool) (r : Gpr) (m : Machine σ) :
    ∃ m', Works g [.instr (.test wide r r)] m m' ∧ (∀ r', m'.gpr r' = m.gpr r') ∧
      m'.flags = resultFlags wide (low wide (m.gpr r)) ∧ ∀ x, m'.xmm x = m.xmm x := by
  have hw : Works g [.instr (.test wide r r)] m
      { m with flags := (ArithOp.and.apply wide (m.gpr r) (m.gpr r)).2 } :=
    works_step rfl rfl (.flags m _)
  have hself :
    (ArithOp.and.apply wide (m.gpr r) (m.gpr r)).2 = resultFlags wide (low wide (m.gpr r)) := by
    change resultFlags wide (low wide (m.gpr r) &&& low wide (m.gpr r)) = _
    rw [UInt64.and_self]
  exact ⟨_, hw, fun _ => rfl, hself, fun _ => rfl⟩

/-- A comparison with a constant sets flags. -/
theorem works_cmpImm (r : Gpr) (n : Int32) (m : Machine σ) :
    ∃ m', Works g [.instr (.arithImm .cmp true r n)] m m' ∧ (∀ r', m'.gpr r' = m.gpr r') ∧
      m'.flags = (ArithOp.cmp.apply true (m.gpr r) n.toInt64.toUInt64).2 := by
  have hw : Works g [.instr (.arithImm .cmp true r n)] m
      { m with flags := (ArithOp.cmp.apply true (m.gpr r) n.toInt64.toUInt64).2 } :=
    works_step rfl rfl (.flags m _)
  exact ⟨_, hw, fun _ => rfl, rfl⟩

/-! ### Division -/

/-- A division between its operands and its result. -/
def divideLines (i : InstrId) : Assembly :=
  [.instr (.test true tmp1 tmp1), .jump (some .e) (.inside i 0),
   .instr (.arithImm .cmp true tmp1 (-1)), .jump (some .ne) (.inside i 1),
   .instr (.unary .neg true tmp0), .jump none (.inside i 2),
   .label (.inside i 1), .instr .cqo, .instr (.unary .idiv true tmp1), .jump none (.inside i 2),
   .label (.inside i 0), .instr (.movImm tmp0 0),
   .label (.inside i 2)]

theorem makes_idiv {x y : Int64} (hx : m.gpr tmp0 = x.toUInt64) (hy : m.gpr tmp1 = y.toUInt64)
    (hzero : y ≠ 0) (hminus : y ≠ -1) :
    Makes g [.instr .cqo, .instr (.unary .idiv true tmp1)] m (Eval.divide x y).toUInt64 := by
  obtain ⟨r, hquotient⟩ := divide_signed (x := x) hzero hminus
  have hcqo : Works g [.instr .cqo] m
      (m.setGpr tmp2 (if negative true x.toUInt64 then 0xffffffffffffffff else 0)) := by
    rw [← hx]
    exact works_put (h := .gpr tmp2) rfl rfl rfl
  generalize hm₁ : m.setGpr tmp2 _ = m₁ at hcqo
  have hdivide : m₁.unary .idiv true tmp1 =
      .ok ((m₁.setGpr tmp0 (Eval.divide x y).toUInt64).setGpr tmp2 r) := by
    have h2 : m₁.gpr Gpr.rdx = if negative true x.toUInt64 then 0xffffffffffffffff else 0 := by
      rw [← hm₁]
      exact gpr_setGpr_self m tmp2 _
    have h0 : m₁.gpr Gpr.rax = x.toUInt64 := by
      rw [← hm₁, ← hx]
      exact gpr_setGpr_of_ne m (by decide) _
    have h1 : m₁.gpr tmp1 = y.toUInt64 := by
      rw [← hm₁, ← hy]
      exact gpr_setGpr_of_ne m (by decide) _
    unfold unary
    dsimp only
    rw [h0, h1, h2, hquotient]
    rfl
  have hscratch : Undisturbed m₁ ((m₁.setGpr tmp0 (Eval.divide x y).toUInt64).setGpr tmp2 r) :=
    (Undisturbed.put (h := .gpr tmp0) rfl _ _).trans (.put (h := .gpr tmp2) rfl _ _)
  have hidiv := works_step (g := g) (j := .unary .idiv true tmp1) rfl
    (by simp only [step, hdivide]; rfl) hscratch
  refine ⟨_, hcqo.append hidiv, ?_⟩
  rw [gpr_setGpr_of_ne _ (by decide), gpr_setGpr_self]

theorem makes_divide {x y : Int64} (hx : m.gpr tmp0 = x.toUInt64) (hy : m.gpr tmp1 = y.toUInt64)
    (i : InstrId) : Makes g (divideLines i) m (Eval.divide x y).toUInt64 := by
  have hinj (z : Int64) : y.toUInt64 = z.toUInt64 ↔ y = z :=
    ⟨fun h => congrArg UInt64.toInt64 h, fun h => congrArg Int64.toUInt64 h⟩
  obtain ⟨m₁, htest, hgprs₁, hflags₁, -⟩ := works_test (g := g) true tmp1 m
  have hz₁ : taken (some .e) m₁.flags = decide (y = 0) := by
    rw [hflags₁, hy]
    exact decide_eq_decide.mpr (hinj 0)
  by_cases hzero : y = 0
  · have hjump : Works g _ m₁ m₁ := works_taken (t := .inside i 0)
      (a := [.instr (.arithImm .cmp true tmp1 (-1)), .jump (some .ne) (.inside i 1),
        .instr (.unary .neg true tmp0), .jump none (.inside i 2),
        .label (.inside i 1), .instr .cqo, .instr (.unary .idiv true tmp1),
        .jump none (.inside i 2)]) (hz₁.trans (decide_eq_true hzero)) rfl (by simp)
    have hmove : Works g [.instr (.movImm tmp0 0)] m₁ (m₁.setGpr tmp0 0) :=
      works_put (h := .gpr tmp0) rfl rfl rfl
    refine ⟨_, ((htest.append hjump).append hmove).append (works_label (.inside i 2) _), ?_⟩
    rw [gpr_setGpr_self, Eval.divide, if_pos hzero]
    rfl
  · have hfall : Works g [.jump (some .e) (.inside i 0)] m₁ m₁ :=
      works_untaken (hz₁.trans (decide_eq_false hzero)) _
    obtain ⟨m₂, hcmp, hgprs₂, hflags₂⟩ := works_cmpImm (g := g) tmp1 (-1) m₁
    have hz₂ : taken (some .ne) m₂.flags = !decide (y = -1) := by
      rw [hflags₂, hgprs₁, hy]
      refine congrArg not ((holds_e _ _).trans ?_)
      rw [← decide_eq_decide.mpr (hinj (-1))]
      rfl
    have hx₂ : m₂.gpr tmp0 = x.toUInt64 := by rw [hgprs₂, hgprs₁, hx]
    have hy₂ : m₂.gpr tmp1 = y.toUInt64 := by rw [hgprs₂, hgprs₁, hy]
    have hhead := (htest.append hfall).append hcmp
    by_cases hminus : y = -1
    · have hfall₂ : Works g [.jump (some .ne) (.inside i 1)] m₂ m₂ :=
        works_untaken (hz₂.trans (by simp [hminus])) _
      obtain ⟨m₃, hneg, hresult⟩ := makes_neg (g := g) m₂
      have hjump : Works g _ m₃ m₃ := works_taken (t := .inside i 2)
        (a := [.label (.inside i 1), .instr .cqo, .instr (.unary .idiv true tmp1),
          .jump none (.inside i 2), .label (.inside i 0), .instr (.movImm tmp0 0)])
        (taken_none _) rfl (by simp)
      refine ⟨m₃, ((hhead.append hfall₂).append hneg).append hjump, ?_⟩
      rw [hresult, hx₂, hminus, divide_minus_one, Int64.toUInt64_neg]
    · have hjump : Works g _ m₂ m₂ := works_taken (t := .inside i 1)
        (a := [.instr (.unary .neg true tmp0), .jump none (.inside i 2)])
        (hz₂.trans (by simp [hminus])) rfl (by simp)
      obtain ⟨m₃, hidiv, hresult⟩ := makes_idiv (g := g) hx₂ hy₂ hzero hminus
      have hleave : Works g _ m₃ m₃ := works_taken (t := .inside i 2)
        (a := [.label (.inside i 0), .instr (.movImm tmp0 0)]) (taken_none _) rfl (by simp)
      exact ⟨m₃, ((hhead.append hjump).append hidiv).append hleave, hresult⟩

/-! ### Shifts by a signed amount -/

/-- The shift to the right, after the amount is tested for a multiple of 32. -/
def shiftRightLines (i : InstrId) (arithmetic : Bool) : Assembly :=
  [.jump (some .e) (.inside i 1), .instr (.unary .neg false tmp1),
   .instr (.shiftCl (if arithmetic then .sar else .shr) false tmp0), .jump none (.inside i 2),
   .label (.inside i 1),
   .instr (if arithmetic then .shiftImm .sar false tmp0 31 else .movImm tmp0 0),
   .label (.inside i 2)]

/-- A shift by a signed amount between its operands and its result. -/
def shiftSignedLines (i : InstrId) (arithmetic : Bool) : Assembly :=
  [.instr (.test false tmp1 tmp1), .jump (some .s) (.inside i 0),
   .instr (.shiftCl .shl false tmp0), .jump none (.inside i 2),
   .label (.inside i 0), .instr (.mov false tmp2 tmp1), .instr (.arithImm .and false tmp2 31)] ++
  shiftRightLines i arithmetic

/-- Shift right by what the low five bits of a negative count lack to 32. -/
def shiftRight (a n : UInt32) (arithmetic : Bool) : UInt32 :=
  let right (count : UInt32) : UInt32 :=
    if arithmetic then (a.toInt32 >>> count.toInt32).toUInt32 else a >>> count
  if n &&& 31 = 0 then (if arithmetic then right 31 else 0) else right ((~~~n &&& 31) + 1)

theorem low_narrow (x : UInt64) : low false x = x.toUInt32.toUInt64 := Interp.toUInt32_and_low x

theorem negative_low (y : UInt64) :
    negative false (low false y) = decide (y.toUInt32.toInt32 < 0) := by
  rw [negative_word, low_narrow, UInt32.toUInt32_toUInt64, BitVec.msb_eq_toInt, decide_eq_decide]
  exact (Int32.lt_iff_toInt_lt (x := y.toUInt32.toInt32) (y := 0)).symm

/-- The low five bits of the amount are tested in a copy. -/
theorem works_testCount (m : Machine σ) :
    ∃ m', Works g [.instr (.mov false tmp2 tmp1), .instr (.arithImm .and false tmp2 31)] m m' ∧
      m'.gpr tmp0 = m.gpr tmp0 ∧ m'.gpr tmp1 = m.gpr tmp1 ∧
      taken (some .e) m'.flags = decide ((m.gpr tmp1).toUInt32 &&& 31 = 0) := by
  have hmov : Works g [.instr (.mov false tmp2 tmp1)] m
      (m.setGpr tmp2 (low false (m.gpr tmp1))) := works_put (h := .gpr tmp2) rfl rfl rfl
  have hcopy : (m.setGpr tmp2 (low false (m.gpr tmp1))).gpr tmp2 = low false (m.gpr tmp1) :=
    gpr_setGpr_self ..
  have hkept (r : Gpr) (hr : r ≠ tmp2) :
      (m.setGpr tmp2 (low false (m.gpr tmp1))).gpr r = m.gpr r := gpr_setGpr_of_ne _ hr _
  generalize m.setGpr tmp2 (low false (m.gpr tmp1)) = m₁ at hmov hcopy hkept
  have hand : Works g [.instr (.arithImm .and false tmp2 31)] m₁
      (m₁.setArith .and tmp2 (ArithOp.and.apply false (m₁.gpr tmp2) 31)) :=
    works_step rfl rfl (undisturbed_setArith rfl _ _ _)
  have hzero : taken (some .e) (ArithOp.and.apply false (m₁.gpr tmp2) 31).2 =
      decide ((m.gpr tmp1).toUInt32 &&& 31 = 0) := by
    change decide (low false (m₁.gpr tmp2) &&& low false 31 = 0) = _
    rw [hcopy, decide_eq_decide, ← UInt64.toNat_inj, ← UInt32.toNat_inj, low_narrow, low_narrow,
      UInt32.toUInt32_toUInt64, UInt64.toNat_and, UInt32.toNat_and, UInt32.toNat_toUInt64]
    rfl
  refine ⟨_, hmov.append hand, ?_, ?_, hzero⟩
  · exact (gpr_setGpr_of_ne _ (by decide) _).trans (hkept tmp0 (by decide))
  · exact (gpr_setGpr_of_ne _ (by decide) _).trans (hkept tmp1 (by decide))

/-- A multiple of 32 shifts every bit out. -/
theorem makes_shiftOut (arithmetic : Bool) (m : Machine σ) :
    Makes g [.instr (if arithmetic then .shiftImm .sar false tmp0 31 else .movImm tmp0 0)] m
      (if arithmetic then ((m.gpr tmp0).toUInt32.toInt32 >>> (31 : UInt32).toInt32).toUInt32
        else 0).toUInt64 := by
  cases arithmetic with
  | true => exact ⟨_, works_put (h := .gpr tmp0) rfl rfl rfl, gpr_setGpr_self m tmp0 _⟩
  | false => exact ⟨_, works_put (h := .gpr tmp0) rfl rfl rfl, gpr_setGpr_self m tmp0 _⟩

theorem makes_shiftNegated {n : UInt32} (hn : (m.gpr tmp1).toUInt32 = n) (hfull : n &&& 31 ≠ 0)
    (op : ShiftOp) :
    Makes g [.instr (.unary .neg false tmp1), .instr (.shiftCl op false tmp0)] m
      (match op with
        | .shl => (m.gpr tmp0).toUInt32 <<< ((~~~n &&& 31) + 1)
        | .shr => (m.gpr tmp0).toUInt32 >>> ((~~~n &&& 31) + 1)
        | .sar => ((m.gpr tmp0).toUInt32.toInt32 >>>
            ((~~~n &&& 31) + 1).toInt32).toUInt32).toUInt64 := by
  have hneg : Works g [.instr (.unary .neg false tmp1)] m
      (m.setArith .sub tmp1 (ArithOp.sub.apply false 0 (m.gpr tmp1))) :=
    works_step rfl rfl (undisturbed_setArith rfl _ _ _)
  have hx : (m.setArith .sub tmp1 (ArithOp.sub.apply false 0 (m.gpr tmp1))).gpr tmp0 = m.gpr tmp0 :=
    gpr_setGpr_of_ne _ (by decide) _
  have hcount : ((m.setArith .sub tmp1 (ArithOp.sub.apply false 0 (m.gpr tmp1))).gpr
      Gpr.rcx).toUInt8.toUInt32 &&& 31 = (~~~n &&& 31) + 1 := by
    have hy : (m.setArith .sub tmp1 (ArithOp.sub.apply false 0 (m.gpr tmp1))).gpr Gpr.rcx =
        (ArithOp.sub.apply false 0 (m.gpr tmp1)).1 := gpr_setGpr_self _ tmp1 _
    subst hn
    rw [hy]
    exact count_neg hfull
  generalize m.setArith .sub tmp1 _ = m₁ at hneg hx hcount
  have hshift : Works g [.instr (.shiftCl op false tmp0)] m₁
      (m₁.setGpr tmp0 (op.apply false (m₁.gpr tmp0) (m₁.gpr Gpr.rcx).toUInt8)) :=
    works_put (h := .gpr tmp0) rfl rfl rfl
  refine ⟨_, hneg.append hshift, ?_⟩
  rw [gpr_setGpr_self, hx, ← hcount]
  rfl

theorem makes_shiftRight {n : UInt32} (hn : (m.gpr tmp1).toUInt32 = n)
    (hz : taken (some .e) m.flags = decide (n &&& 31 = 0)) (i : InstrId) (arithmetic : Bool) :
    Makes g (shiftRightLines i arithmetic) m
      (shiftRight (m.gpr tmp0).toUInt32 n arithmetic).toUInt64 := by
  unfold shiftRight
  by_cases hfull : n &&& 31 = 0
  · have hskip : Works g _ m m := works_taken (t := .inside i 1)
      (a := [.instr (.unary .neg false tmp1),
        .instr (.shiftCl (if arithmetic then .sar else .shr) false tmp0), .jump none (.inside i 2)])
      (hz.trans (decide_eq_true hfull)) rfl (by simp)
    obtain ⟨m', hlast, hresult⟩ := makes_shiftOut (g := g) arithmetic m
    refine ⟨m', (hskip.append hlast).append (works_label (.inside i 2) _), ?_⟩
    rw [hresult, if_pos hfull]
    cases arithmetic <;> rfl
  · have hfall : Works g [.jump (some .e) (.inside i 1)] m m :=
      works_untaken (hz.trans (decide_eq_false hfull)) _
    obtain ⟨m', hshift, hresult⟩ :=
      makes_shiftNegated (g := g) hn hfull (if arithmetic then .sar else .shr)
    have hleave : Works g _ m' m' := works_taken (t := .inside i 2)
      (a := [.label (.inside i 1),
        .instr (if arithmetic then .shiftImm .sar false tmp0 31 else .movImm tmp0 0)])
          (taken_none _)
      (by cases arithmetic <;> rfl) (by simp)
    refine ⟨m', (hfall.append hshift).append hleave, ?_⟩
    rw [hresult, if_neg hfull]
    cases arithmetic <;> rfl

theorem makes_shiftSigned (i : InstrId) (arithmetic : Bool) (m : Machine σ) :
    Makes g (shiftSignedLines i arithmetic) m
      (Eval.shiftSigned (m.gpr tmp0).toUInt32 (m.gpr tmp1).toUInt32 arithmetic).toUInt64 := by
  obtain ⟨m₁, htest, hgprs, hflags, -⟩ := works_test (g := g) false tmp1 m
  have hs : taken (some .s) m₁.flags = decide ((m.gpr tmp1).toUInt32.toInt32 < 0) := by
    rw [hflags]
    exact negative_low (m.gpr tmp1)
  unfold Eval.shiftSigned
  by_cases hright : (m.gpr tmp1).toUInt32.toInt32 < 0
  · have hjump : Works g _ m₁ m₁ := works_taken (t := .inside i 0)
      (a := [.instr (.shiftCl .shl false tmp0), .jump none (.inside i 2)])
      (hs.trans (decide_eq_true hright)) rfl (by simp)
    obtain ⟨m₂, hcount, hx₂, hy₂, hz₂⟩ := works_testCount (g := g) m₁
    rw [hgprs] at hx₂ hy₂ hz₂
    obtain ⟨m₃, hlast, hresult⟩ :=
      makes_shiftRight (g := g) (congrArg UInt64.toUInt32 hy₂) hz₂ i arithmetic
    refine ⟨m₃, ((htest.append hjump).append hcount).append hlast, ?_⟩
    rw [hresult, hx₂, if_neg (Int32.not_le.mpr hright)]
    rfl
  · have hfall : Works g [.jump (some .s) (.inside i 0)] m₁ m₁ :=
      works_untaken (hs.trans (decide_eq_false hright)) _
    obtain ⟨m₂, hshift, hresult⟩ : Makes g [.instr (.shiftCl .shl false tmp0)] m₁
        ((m.gpr tmp0).toUInt32 <<< ((m.gpr tmp1).toUInt32 &&& 31)).toUInt64 := by
      rw [← hgprs, ← hgprs, ← count_word]
      exact ⟨_, works_put (h := .gpr tmp0) rfl rfl rfl, gpr_setGpr_self m₁ tmp0 _⟩
    have hleave : Works g _ m₂ m₂ := works_taken (t := .inside i 2)
      (a := [.label (.inside i 0), .instr (.mov false tmp2 tmp1),
        .instr (.arithImm .and false tmp2 31)] ++ (shiftRightLines i arithmetic).dropLast)
      (taken_none _) (by cases arithmetic <;> rfl) (by simp [shiftRightLines])
    refine ⟨m₂, ((htest.append hfall).append hshift).append hleave, ?_⟩
    rw [hresult, if_pos (Int32.not_lt.mp hright)]

/-! ### Choice -/

/-- The choice between the second and third scratch registers by the first. -/
theorem works_choose (m : Machine σ) :
    ∃ m', Works g [.instr (.test true tmp0 tmp0), .instr (.cmov .e true tmp1 tmp2)] m m' ∧
      m'.gpr tmp1 = if m.gpr tmp0 ≠ 0 then m.gpr tmp1 else m.gpr tmp2 := by
  obtain ⟨m₁, htest, hgprs, hflags, -⟩ := works_test (g := g) true tmp0 m
  have hz : Cond.e.holds m₁.flags = decide (m.gpr tmp0 = 0) := by
    rw [hflags]
    rfl
  have hmove : Works g [.instr (.cmov .e true tmp1 tmp2)] m₁
      (m₁.setGpr tmp1 (if Cond.e.holds m₁.flags then m₁.gpr tmp2 else m₁.gpr tmp1)) :=
    works_put (h := .gpr tmp1) rfl rfl rfl
  refine ⟨_, htest.append hmove, ?_⟩
  rw [gpr_setGpr_self, hz, hgprs, hgprs]
  by_cases hzero : m.gpr tmp0 = 0 <;> simp [hzero]

end Recompiler.X64
