import Recompiler.Pass.Simplify
import Recompiler.Proofs.Pass.Folding

/-!
Identities with a zero on the right, and the two passes that replace results: both end for every
typed fragment whose results are defined before they are used, and keep its meaning.
-/
namespace Recompiler.Pass.Simplify

open IR Interp Meaning

variable {f f' : Fragment} {ρ : ValueId → ValueId} {gone done : List InstrId} {i : InstrId}

/-! ### Identities -/

theorem signed_zero (ty : Ty) : Eval.signed ty 0 = 0 := by
  cases ty <;> rfl

theorem and_mask_sshiftRight (x : BitVec 64) {n : Nat} (hn : n ≤ 64) :
    (x <<< (64 - n)).sshiftRight (64 - n) &&& BitVec.ofNat 64 (2 ^ n - 1) =
      x &&& BitVec.ofNat 64 (2 ^ n - 1) := by
  ext k hk
  have hmask : (BitVec.ofNat 64 (2 ^ n - 1))[k] = decide (k < n) := by
    rw [← BitVec.getLsbD_eq_getElem, BitVec.getLsbD_ofNat, Nat.testBit_two_pow_sub_one]
    simp [hk]
  rw [BitVec.getElem_and, BitVec.getElem_and, hmask, BitVec.getElem_sshiftRight]
  by_cases h : k < n
  · have hlt : 64 - n + k < 64 := by omega
    simp [hlt, BitVec.getElem_shiftLeft]
  · simp [h]

/-- Extending with the sign keeps the low bits. -/
theorem fit_signed {ty : Ty} (h : ty.isInt = true) (a : UInt64) :
    fit ty (Eval.signed ty a).toUInt64 = fit ty a := by
  apply UInt64.toBitVec_inj.mp
  cases ty with
  | i8 => exact and_mask_sshiftRight a.toBitVec (n := 8) (by decide)
  | i16 => exact and_mask_sshiftRight a.toBitVec (n := 16) (by decide)
  | i32 => exact and_mask_sshiftRight a.toBitVec (n := 32) (by decide)
  | i64 => exact and_mask_sshiftRight a.toBitVec (n := 64) (by decide)
  | _ => cases h

theorem apply_zero {op : Opcode} (h : identity? op = some .zero) {aty bty : Ty}
    (haty : aty.isInt = true) (hbty : bty.isInt = true) (ty : Ty) (a c : UInt64) :
    Eval.apply op ty aty bty a 0 c = .ok 0 := by
  rw [Eval.apply_eq (Ty.bits_ne_zero (by rw [haty]; rfl)) (Ty.bits_ne_zero (by rw [hbty]; rfl))]
  cases op with
  | and | umul => simp [Eval.compute]
  | smul =>
    simp only [Eval.compute, signed_zero, Int64.mul_zero]
    rfl
  | _ => cases h

theorem apply_left {op : Opcode} (h : identity? op = some .left) {ty bty : Ty}
    (hty : ty.isInt = true) (hbty : bty.isInt = true) (a c : UInt64) :
    ∃ x, Eval.apply op ty ty bty a 0 c = .ok x ∧ fit ty x = fit ty a := by
  rw [Eval.apply_eq (Ty.bits_ne_zero (by rw [hty]; rfl)) (Ty.bits_ne_zero (by rw [hbty]; rfl))]
  cases op with
  | add | sub | or | xor | shl | lshr => exact ⟨_, rfl, by simp⟩
  | ashr =>
    refine ⟨_, rfl, ?_⟩
    rw [← fit_signed hty a]
    simp
  | _ => cases h

/-! ### What is put for a result -/

/-- The operations with an identity take integers and yield one of the type of the left one. -/
theorem typed_identity (ht : Typed f) (hi : i ∈ f.allInstrs) {r : ValueId}
    (hr : (f.instr i).result = some r) (hid : (identity? (f.instr i).op).isSome = true) :
    (f.ty r).isInt = true ∧ argTy f (f.instr i) 0 = f.ty r ∧
      (argTy f (f.instr i) 1).isInt = true := by
  have haccepted := ht.accepted i hi
  rw [hr] at haccepted
  have hrule : (argTy? f i 0).any Ty.isInt = true ∧ some (f.ty r) = argTy? f i 0 ∧
      (argTy? f i 1).any Ty.isInt = true := by
    cases hop : (f.instr i).op <;> rw [hop] at hid haccepted <;> first
      | cases hid
        done
      | simp only [accepts, Opcode.kind, Bool.and_eq_true, beq_iff_eq, Option.map_some] at haccepted
        obtain ⟨⟨⟨hleft, hright⟩, -⟩, hresult⟩ := haccepted
        -- a shift counts by any integer, the others take two of one type
        exact ⟨hleft, hresult, by first | exact hright | (rw [hright]; exact hleft)⟩
  obtain ⟨hint, he, hright⟩ := hrule
  rw [← he] at hint
  obtain ⟨v, hv, hvty⟩ := Option.map_eq_some_iff.mp he.symm
  obtain ⟨ty, hty, hright⟩ := Option.any_eq_true _ _ |>.mp hright
  obtain ⟨w, hw, rfl⟩ := Option.map_eq_some_iff.mp hty
  refine ⟨hint, ?_, ?_⟩
  · rw [argTy, hv]
    exact hvty
  · rw [argTy, hw]
    exact hright

section
variable (h : Rewrites f f' ρ gone) (hf : WellFormed f) (ho : Ordered f) (hi : i ∈ f.allInstrs)
  (hg : i ∉ gone)
include h hf ho hi hg

/-- A right operand that is zero is zero when the instruction is run. -/
theorem right_zero {v : ValueId} (hv : (f'.instr i).arg 1 = some v) (hz : isZero f' v = true)
    {code : List InstrId} {blocks : List BlockId} {s s' : Cells}
    (ha : Agrees f f' ρ ⟨i :: code, blocks⟩ s s') : argBits f cells s (f.instr i) 1 = 0 := by
  rw [← h.argBits_eq hf ho hi hg ha, argBits, hv]
  unfold isZero Value.constant? at hz
  unfold bits
  cases horigin : (f'.value v).origin with
  | result j =>
    rw [horigin] at hz
    cases hz
  | constant c =>
    simp only [horigin, Option.bind_some, Constant.zext?, beq_iff_eq] at hz
    split at hz
    · simp [horigin, hz]
    · cases hz

/-- An identity that applies offers a value for the result. -/
theorem replacement_offers (ht : Typed f) : replacement? f' i = .ok none ∨
    ∃ r f₁ w, (f.instr i).result = some r ∧ replacement? f' i = .ok (some (f₁, w)) ∧
      Offers f f' ρ gone i r f₁ w := by
  unfold replacement?
  dsimp only
  rw [h.result_eq i hi]
  cases hr : (f.instr i).result with
  | none => exact .inl rfl
  | some r =>
    cases hl : (f'.instr i).arg 0 with
    | none => exact .inl rfl
    | some lhs =>
      cases hrhs : (f'.instr i).arg 1 with
      | none => exact .inl rfl
      | some rhs =>
        dsimp only
        split
        · next hz =>
          rw [h.op_eq i hi]
          have hrlt := (hf.result i hi r hr).1
          cases hid : identity? (f.instr i).op with
          | none => exact .inl rfl
          | some identity =>
            obtain ⟨hint, hty₀, hint₁⟩ := typed_identity ht hi hr (by rw [hid]; rfl)
            cases identity with
            | zero =>
              obtain ⟨c, hc, hcty, hcbits⟩ := bits_ofBits hint 0
              refine .inr ⟨r, _, _, rfl, ?_, offers_constant h hf hi hr hcty hcbits ?_⟩
              · rw [Fragment.addScalar, h.ty_eq r hrlt, hc]
                rfl
              · intro σ g o code blocks s s' m _ ha
                refine computes_of_apply hr ?_ rfl
                rw [right_zero h hf ho hi hg hrhs hz ha]
                exact apply_zero hid (by rw [hty₀, hint]) hint₁ _ _ _
            | left =>
              dsimp only
              split
              · rw [h.arg_eq i hi hg] at hl
                obtain ⟨v, hv, rfl⟩ := Option.map_eq_some_iff.mp hl
                have hvty : f.ty v = f.ty r := by
                  rw [← hty₀, argTy, hv]
                refine .inr ⟨r, f', ρ v, rfl, rfl, offers_arg h hf ho hi hr hv hvty ?_ ?_⟩
                · rw [hint]
                  rfl
                · intro σ g o code blocks s s' m hfits ha
                  obtain ⟨x, hx, hfit⟩ :=
                    apply_left hid hint hint₁ (argBits f cells s (f.instr i) 0)
                    (argBits f cells s (f.instr i) 2)
                  refine computes_of_apply hr (y := x) ?_ ?_
                  · rw [right_zero h hf ho hi hg hrhs hz ha, hty₀]
                    exact hx
                  · rw [hfit, argBits, hv, ← hvty]
                    exact fit_bits hfits hf (hf.arg_lt i hi 0 v hv)
              · exact .inl rfl
        · exact .inl rfl

end

/-! ### The pass -/

theorem bypass_stage (hf : WellFormed f) (ho : Ordered f) (ht : Typed f) (done : List InstrId)
    (s : Fragment × Nat) (i : InstrId) (h : Stage f done s.1) (hi : i ∈ f.allInstrs)
    (hd : i ∉ done) : ∃ s', bypass s i = .ok s' ∧ Stage f (i :: done) s'.1 := by
  obtain ⟨ρ, gone, hrw, hJ, hfree⟩ := h
  have hg : i ∉ gone := hrw.not_gone_of fun v hv => hfree i hi v hv hd
  unfold bypass
  rcases replacement_offers hrw hf ho hi hg ht with hnone | ⟨r, f₁, w, hr, hsome, hoffer⟩
  · rw [hnone]
    exact ⟨s, rfl, Stage.mono ⟨ρ, gone, hrw, hJ, hfree⟩ (by simp)⟩
  · have hresult : f₁.resultOf i = .ok r := by
      rw [Fragment.resultOf, hoffer.rewrites.result_eq i hi, hr]
    simp only [hsome, hresult, bind, Except.bind]
    split
    · exact ⟨_, rfl, (hoffer.unplaced hf hrw hJ hfree).mono (by simp)⟩
    · obtain ⟨f₂, hreplace, hstage, -⟩ := Offers.place hf ho hi hr hrw hJ hfree hd hoffer
      refine ⟨(f₂, s.2 + 1), ?_, hstage⟩
      rw [hreplace]
      rfl

/-- Applying the identities ends, with a justified rewriting. -/
theorem run_stage (hf : WellFormed f) (hu : f.UseLists) (ho : Ordered f) (ht : Typed f) :
    ∃ f' n done, run f = .ok (f', n) ∧ Stage f done f' := by
  obtain ⟨s', hs', h'⟩ := Stage.foldlM (bypass_stage hf ho ht) f.allInstrs (List.Subset.refl _)
    (nodup_allInstrs hf) (s := (f, 0)) (stage_start hf hu) (by simp)
  exact ⟨s'.1, s'.2, _, hs', h'⟩

end Recompiler.Pass.Simplify
