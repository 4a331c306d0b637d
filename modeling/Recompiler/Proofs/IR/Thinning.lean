import Recompiler.Proofs.IR.Reaching
import Recompiler.Proofs.IR.Trimming

/-!
Fragments from which instructions were taken out whose results do not matter. What is left has its
arguments, does the same to the same values, and leaves through the same exits.
-/
namespace Recompiler.Meaning

open IR Fragment Interp Machine

variable {σ : Type} {g : Guest σ} {o : Offsets} {f f' : Fragment} {gone : List InstrId}
  {i : InstrId} {b : BlockId} {s s' : Cells} {m : Memory σ}

/-- The second fragment is the first one without the instructions of `gone`, none of which
branches. -/
structure Thins (f f' : Fragment) (gone : List InstrId) : Prop where
  values : SameValues f f'
  order_eq : f'.order = f.order
  localsSize_eq : f'.localsSize = f.localsSize
  chain : ∀ b ∈ f.order, f'.Chain b ((f.blockInstrs b).filter (· ∉ gone))
  op_eq : ∀ i ∈ f.allInstrs, (f'.instr i).op = (f.instr i).op
  result_eq : ∀ i ∈ f.allInstrs, (f'.instr i).result = (f.instr i).result
  arg_eq : ∀ i ∈ f.allInstrs, i ∉ gone → ∀ n, (f'.instr i).arg n = (f.instr i).arg n
  plain : ∀ i ∈ gone, (f.instr i).op.isBranch = false

theorem Trims.thins (h : Trims f f' id gone) : Thins f f' gone where
  values := h.values
  order_eq := h.order_eq
  localsSize_eq := h.localsSize_eq
  chain := h.chain
  op_eq := h.op_eq
  result_eq := h.result_eq
  arg_eq i hi hg n := by simp [h.arg_eq i hi hg n]
  plain := h.gone_plain

namespace Thins

theorem blockInstrs_eq (h : Thins f f' gone) (hb : b ∈ f.order) :
    f'.blockInstrs b = (f.blockInstrs b).filter (· ∉ gone) := (h.chain b hb).blockInstrs_eq

theorem startOf_eq (h : Thins f f' gone) (hb : b ∈ f.order) :
    startOf f' b = (startOf f b).without gone := by
  unfold startOf Point.without
  rw [h.order_eq, h.blockInstrs_eq hb]

theorem allInstrs_eq (h : Thins f f' gone) : f'.allInstrs = f.allInstrs.filter (· ∉ gone) := by
  unfold allInstrs
  rw [h.order_eq, List.filter_flatMap]
  exact List.flatMap_congr fun b hb => h.blockInstrs_eq hb

theorem mem_allInstrs (h : Thins f f' gone) : i ∈ f'.allInstrs ↔ i ∈ f.allInstrs ∧ i ∉ gone := by
  rw [h.allInstrs_eq, List.mem_filter, decide_eq_true_eq]

section
variable (h : Thins f f' gone) (hi : i ∈ f.allInstrs)
include h hi

theorem keep_eq (x : Option UInt64) :
    keep f' cells (f'.instr i) s x = keep f cells (f.instr i) s x := by
  have hty : f'.ty = f.ty := funext h.values.ty_eq
  unfold keep
  rw [h.result_eq i hi, hty]

variable (hg : i ∉ gone)
include hg

theorem argTy_eq (n : Slot) : argTy f' (f'.instr i) n = argTy f (f.instr i) n := by
  rw [argTy, h.arg_eq i hi hg, argTy]
  split
  · exact h.values.ty_eq _
  · rfl

theorem opTy_eq : opTy f' (f'.instr i) = opTy f (f.instr i) := by
  rw [opTy, h.result_eq i hi, opTy]
  split
  · exact h.values.ty_eq _
  · exact h.argTy_eq hi hg 1

theorem target?_eq : Exit.target? (f'.instr i) = Exit.target? (f.instr i) := by
  unfold Exit.target?
  rw [h.op_eq i hi]
  split
  · exact h.arg_eq i hi hg 0
  · exact h.arg_eq i hi hg 1
  · exact h.arg_eq i hi hg 1
  · rfl

/-- Only the cells of the arguments matter. -/
theorem argBits_eq (hs : ∀ n v, (f.instr i).arg n = some v → s' v = s v) (n : Slot) :
    argBits f' cells s' (f'.instr i) n = argBits f cells s (f.instr i) n := by
  rw [argBits, h.arg_eq i hi hg, argBits]
  cases hv : (f.instr i).arg n with
  | none => rfl
  | some v =>
    dsimp only
    unfold bits
    rw [h.values.origin_eq]
    split
    · rfl
    · exact hs n v hv

theorem performed_eq (hs : ∀ n v, (f.instr i).arg n = some v → s' v = s v) :
    performed g o f' i s' m = performed g o f i s m := by
  unfold performed
  rw [h.op_eq i hi, h.opTy_eq hi hg, h.argTy_eq hi hg, h.argTy_eq hi hg, h.argBits_eq hi hg hs,
    h.argBits_eq hi hg hs, h.argBits_eq hi hg hs]

end

/-- Only branches lead to exits. -/
theorem statics_eq (h : Thins f f' gone) : Exit.statics f' = Exit.statics f := by
  have haddress : f'.allInstrs.filterMap (Exit.address? f') =
      f.allInstrs.filterMap (Exit.address? f) := by
    rw [h.allInstrs_eq, List.filterMap_filter]
    apply List.filterMap_congr
    intro i hi
    by_cases hg : i ∈ gone
    · have hplain := h.plain i hg
      have htarget : Exit.target? (f.instr i) = none := by
        cases hop : (f.instr i).op <;> rw [hop] at hplain <;> first
          | cases hplain
            done
          | simp only [Exit.target?, hop]
      simp [hg, Exit.address?, htarget]
    · simp only [hg, not_false_eq_true, decide_true, if_true]
      unfold Exit.address?
      rw [h.target?_eq hi hg]
      simp only [Value.constant?, h.values.origin_eq]
  unfold Exit.statics
  rw [haddress]

/-- A branch that is taken leads to the same block or exit. -/
theorem jump_cases (h : Thins f f' gone) (hf : WellFormed f) {t : Option ValueId}
    (hs : ∀ v, t = some v → s' v = s v) :
    (∃ r, jump f cells o s m t = .stop r ∧ jump f' cells o s' m t = .stop r) ∨
      ∃ b ∈ f.order, jump f cells o s m t = .go ⟨startOf f b, s, m⟩ ∧
        jump f' cells o s' m t = .go ⟨(startOf f b).without gone, s', m⟩ := by
  unfold jump
  cases t with
  | none => exact .inl ⟨_, rfl, rfl⟩
  | some v =>
    dsimp only
    rw [h.values.origin_eq, h.statics_eq]
    cases horigin : (f.value v).origin with
    | result j =>
      have hcell : cells.get s' v = cells.get s v := hs v rfl
      dsimp only
      rw [hcell]
      exact .inl ⟨_, rfl, rfl⟩
    | constant c =>
      cases c with
      | blk b =>
        have hb : b ∈ f.order := hf.target v b horigin
        dsimp only
        rw [h.startOf_eq hb]
        exact .inr ⟨b, hb, rfl, rfl⟩
      | _ =>
        dsimp only
        split
        all_goals exact .inl ⟨_, rfl, rfl⟩

end Thins
end Recompiler.Meaning
