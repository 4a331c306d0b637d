import Recompiler.Proofs.IR.Paths
import Recompiler.Proofs.IR.Removal

/-!
Fragments whose values are replaced by others. Passes add constants, redirect the uses of a result
to a value that stands for it, and take out instructions whose results are replaced; after any
number of such changes the fragment is the original one up to one map of values and one list of
instructions that are gone.
-/
namespace Recompiler.Meaning

open IR Fragment

variable {f f' f'' : Fragment} {ρ : ValueId → ValueId} {gone : List InstrId} {i j k : InstrId}
  {b : BlockId} {v w r : ValueId}

/-- The value `w` can stand for the result `v` of `k`: it is `v` itself, a scalar constant, or the
result of an instruction that precedes `k` and is not gone. -/
inductive Stands (f f' : Fragment) (gone : List InstrId) (k : InstrId) (v w : ValueId) : Prop
  | self (h : w = v)
  | constant {c : Constant} (h : (f'.value w).origin = .constant c) (hc : c.bits?.isSome)
      (hlt : w.index < f'.values.size) (hty : f'.ty w = f.ty v)
  | result {j : InstrId} (hj : j ∈ f.allInstrs) (hgone : j ∉ gone)
      (h : (f.instr j).result = some w) (hjk : Precedes f j k) (hty : f.ty w = f.ty v)

/-- The second fragment is the first one with the values replaced by `ρ` and the instructions of
`gone` taken out. -/
structure Rewrites (f f' : Fragment) (ρ : ValueId → ValueId) (gone : List InstrId) : Prop where
  order_eq : f'.order = f.order
  localsSize_eq : f'.localsSize = f.localsSize
  chain : ∀ b ∈ f.order, f'.Chain b ((f.blockInstrs b).filter (· ∉ gone))
  uses : f'.UseLists
  values_le : f.values.size ≤ f'.values.size
  ty_eq : ∀ v : ValueId, v.index < f.values.size → f'.ty v = f.ty v
  origin_eq : ∀ v : ValueId, v.index < f.values.size → (f'.value v).origin = (f.value v).origin
  constant_ty : ∀ v : ValueId, v.index < f'.values.size → ∀ c,
    (f'.value v).origin = .constant c → f'.ty v = c.ty
  op_eq : ∀ i ∈ f.allInstrs, (f'.instr i).op = (f.instr i).op
  result_eq : ∀ i ∈ f.allInstrs, (f'.instr i).result = (f.instr i).result
  arg_eq : ∀ i ∈ f.allInstrs, i ∉ gone → ∀ n,
    (f'.instr i).arg n = ((f.instr i).arg n).map ρ
  map_constant : ∀ v, f.isConstant v = true → ρ v = v
  map_result : ∀ k ∈ f.allInstrs, ∀ v, (f.instr k).result = some v → Stands f f' gone k v (ρ v)
  gone_replaced : ∀ i ∈ gone, i ∈ f.allInstrs ∧ ∃ v, (f.instr i).result = some v ∧ ρ v ≠ v

/-- Put `w` for `r`. -/
def subst (r w v : ValueId) : ValueId := if v = r then w else v

theorem rewrites_self (hf : WellFormed f) (hu : f.UseLists) : Rewrites f f id [] where
  order_eq := rfl
  localsSize_eq := rfl
  chain b hb := by simpa using hf.chain b hb
  uses := hu
  values_le := Nat.le_refl _
  ty_eq _ _ := rfl
  origin_eq _ _ := rfl
  constant_ty := hf.constant_ty
  op_eq _ _ := rfl
  result_eq _ _ := rfl
  arg_eq _ _ _ _ := by simp
  map_constant _ _ := rfl
  map_result _ _ _ _ := .self rfl
  gone_replaced _ h := by cases h

theorem filter_gone {l l₁ l₂ : List InstrId} (hnodup : l.Nodup)
    (h : l.filter (· ∉ gone) = l₁ ++ i :: l₂) : l.filter (· ∉ i :: gone) = l₁ ++ l₂ := by
  have hsplit : l.filter (· ∉ i :: gone) = (l.filter (· ∉ gone)).filter (· ≠ i) := by
    rw [List.filter_filter]
    refine List.filter_congr fun x _ => ?_
    simp [not_or]
  have hn := hnodup.filter (· ∉ gone)
  rw [h, List.perm_middle.nodup_iff, List.nodup_cons] at hn
  rw [hsplit, h, List.filter_append, List.filter_cons_of_neg (by simp), ← List.filter_append,
    List.filter_eq_self]
  intro x hx
  simpa using fun e : x = i => hn.1 (e ▸ hx)

/-- Of the block lists, one loses an instruction. -/
theorem chain_filter {f₁ : Fragment} {l₁ l₂ : List InstrId} (hf : WellFormed f)
    (h : ∀ c ∈ f.order, f'.Chain c ((f.blockInstrs c).filter (· ∉ gone))) (hb : b ∈ f.order)
    (e : (f.blockInstrs b).filter (· ∉ gone) = l₁ ++ i :: l₂) (hrem : Removes f' f₁ b l₁ i l₂)
    (c : BlockId) (hc : c ∈ f.order) :
    f₁.Chain c ((f.blockInstrs c).filter (· ∉ i :: gone)) := by
  by_cases hcb : c = b
  · subst hcb
    rw [filter_gone (hf.chain c hc).nodup e]
    exact hrem.chain
  · have hm : i ∈ (f.blockInstrs b).filter (· ∉ gone) := by
      rw [e]
      simp
    have hsame :
      (f.blockInstrs c).filter (· ∉ i :: gone) = (f.blockInstrs c).filter (· ∉ gone) := by
      refine List.filter_congr fun x hx => ?_
      have hxi : x ≠ i := by
        rintro rfl
        exact hcb (block_unique hf hc hb hx (List.mem_filter.mp hm).1)
      simp [hxi]
    rw [hsame]
    exact hrem.chain_other c _ hcb (h c hc)

namespace Rewrites

theorem blockInstrs_eq (h : Rewrites f f' ρ gone) (hb : b ∈ f.order) :
    f'.blockInstrs b = (f.blockInstrs b).filter (· ∉ gone) := (h.chain b hb).blockInstrs_eq

theorem mem_allInstrs (h : Rewrites f f' ρ gone) (hi : i ∈ f.allInstrs) (hg : i ∉ gone) :
    i ∈ f'.allInstrs := by
  obtain ⟨b, hb, hm⟩ := List.mem_flatMap.mp hi
  refine List.mem_flatMap.mpr ⟨b, by rw [h.order_eq]; exact hb, ?_⟩
  rw [h.blockInstrs_eq hb]
  exact List.mem_filter.mpr ⟨hm, by simpa using hg⟩

/-- Old constants stay. -/
theorem isConstant_eq (h : Rewrites f f' ρ gone) (hv : v.index < f.values.size) :
    f'.isConstant v = f.isConstant v := by
  rw [isConstant, isConstant, Value.isConstant, Value.isConstant, h.origin_eq v hv]

/-! ### The changes of a pass -/

theorem addConstant (h : Rewrites f f' ρ gone) (c : Constant) :
    Rewrites f (f'.addConstant c).1 ρ gone := by
  have hold : ∀ v : ValueId, v.index < f'.values.size →
      (f'.addConstant c).1.value v = f'.value v := fun v hv => value_addValue_lt _ hv
  have hsize : (f'.addConstant c).1.values.size = f'.values.size + 1 := by
    simp [Fragment.addConstant, addValue]
  refine ⟨h.order_eq, h.localsSize_eq, fun b hb => ?_, fun v u => ?_, ?_, fun v hv => ?_,
    fun v hv => ?_, fun v hv c' e => ?_, h.op_eq, h.result_eq, h.arg_eq, h.map_constant,
    fun k hk v hv => ?_, h.gone_replaced⟩
  · exact (h.chain b hb).congr (h.chain b hb).block_lt rfl rfl (h.chain b hb).lt
      fun _ _ => ⟨rfl, rfl, rfl, rfl⟩
  · change _ ↔ (f'.instr u.instr).arg u.slot = some v
    by_cases hlt : v.index < f'.values.size
    · rw [hold v hlt]
      exact h.uses v u
    · have hnew : ((f'.addConstant c).1.value v).uses = [] := by
        by_cases hv : v.index = f'.values.size
        · rw [ValueId.ext_index (v := ⟨f'.values.size⟩) hv]
          exact congrArg Value.uses (value_addValue_new _)
        · rw [value_eq_default (by omega)]
          rfl
      rw [hnew]
      constructor
      · intro hu
        cases hu
      · intro hu
        exact absurd (h.uses.arg_lt hu) hlt
  · have := h.values_le
    omega
  · have := h.values_le
    rw [ty, hold v (by omega)]
    exact h.ty_eq v hv
  · have := h.values_le
    rw [hold v (by omega)]
    exact h.origin_eq v hv
  · by_cases hlt : v.index < f'.values.size
    · rw [ty, hold v hlt]
      rw [hold v hlt] at e
      exact h.constant_ty v hlt c' e
    · obtain rfl : v = ⟨f'.values.size⟩ := ValueId.ext_index (by dsimp only; omega)
      have hnew := value_addValue_new (f := f') { ty := c.ty, origin := .constant c }
      rw [Fragment.addConstant, hnew] at e
      rw [ty, Fragment.addConstant, hnew]
      cases e
      rfl
  · rcases h.map_result k hk v hv with e | ⟨ho, hc, hlt, hty⟩ | ⟨hj, hg, hr, hjk, hty⟩
    · exact .self e
    · exact .constant (by rw [hold _ hlt]; exact ho) hc (by omega)
        (by rw [ty, hold _ hlt]; exact hty)
    · exact .result hj hg hr hjk hty

theorem not_gone_of (h : Rewrites f f' ρ gone) (hρ : ∀ v, (f.instr i).result = some v → ρ v = v) :
    i ∉ gone := by
  intro hg
  obtain ⟨-, v, hv, hne⟩ := h.gone_replaced i hg
  exact hne (hρ v hv)

theorem not_gone (h : Rewrites f f' ρ gone) (hr : (f.instr i).result = some r) (hρ : ρ r = r) :
    i ∉ gone := by
  refine h.not_gone_of fun v hv => ?_
  rw [hr] at hv
  cases hv
  exact hρ

/-- The value that stands for a result is there and has its type. -/
theorem stands_ty (h : Rewrites f f' ρ gone) (hf : WellFormed f) (hk : k ∈ f.allInstrs)
    (hv : (f.instr k).result = some v) (hw : Stands f f' gone k v w) :
    w.index < f'.values.size ∧ f'.ty w = f.ty v := by
  have hle := h.values_le
  rcases hw with rfl | ⟨-, -, hlt, hty⟩ | ⟨hj, -, hres, -, hty⟩
  · have hlt := (hf.result k hk w hv).1
    exact ⟨by omega, h.ty_eq w hlt⟩
  · exact ⟨hlt, hty⟩
  · have hlt := (hf.result _ hj w hres).1
    exact ⟨by omega, (h.ty_eq w hlt).trans hty⟩

/-- Results that `r` stood for get the value that stands for `r`. -/
theorem stands_subst (h : Rewrites f f' ρ gone) (hf : WellFormed f) (ho : Ordered f)
    (hi : i ∈ f.allInstrs) (hr : (f.instr i).result = some r) (hw : Stands f f' gone i r w)
    (hk : k ∈ f.allInstrs) (hv : (f.instr k).result = some v) :
    Stands f f' gone k v (subst r w (ρ v)) := by
  have hstands := h.map_result k hk v hv
  unfold subst
  split
  · next e =>
    rw [e] at hstands
    rcases hstands with rfl | ⟨hc, -, -, -⟩ | ⟨hj, hg, hres, hjk, hty⟩
    · rw [hf.result_inj hk hi hv hr]
      exact hw
    · rw [h.origin_eq r (hf.result i hi r hr).1, (hf.result i hi r hr).2] at hc
      cases hc
    · obtain rfl := hf.result_inj hj hi hres hr
      rcases hw with rfl | ⟨hc, hb, hlt, hwty⟩ | ⟨hj', hg', hres', hjk', hty'⟩
      · exact .result hi hg hr hjk hty
      · exact .constant hc hb hlt (hwty.trans hty)
      · exact .result hj' hg' hres' (hjk'.trans hf ho hjk) (hty'.trans hty)
  · exact hstands

/-- An argument of `i` can stand for the result of `i`, if the types are the same. -/
theorem stands_arg (h : Rewrites f f' ρ gone) (hf : WellFormed f) (ho : Ordered f)
    (hi : i ∈ f.allInstrs) (hr : (f.instr i).result = some r) {n : Slot}
    (hv : (f.instr i).arg n = some v) (hty : f.ty v = f.ty r)
    (hscalar : (f.ty r).isInt || (f.ty r).isFloat) :
    Stands f f' gone i r (ρ v) ∧ ρ v ≠ r := by
  have hlt := hf.arg_lt i hi n v hv
  have hle := h.values_le
  have horigin := hf.result i hi r hr
  cases hc : f.isConstant v with
  | true =>
    obtain ⟨c, hoc⟩ := (Value.isConstant_iff _).mp hc
    have hcty : c.ty = f.ty r := (hf.constant_ty v hlt c hoc).symm.trans hty
    rw [h.map_constant v hc]
    refine ⟨.constant ((h.origin_eq v hlt).trans hoc) ?_ (by omega) ((h.ty_eq v hlt).trans hty), ?_⟩
    · rw [← hcty] at hscalar
      cases c <;> first | rfl | cases hscalar
    · rintro rfl
      rw [hoc] at horigin
      cases horigin.2
  | false =>
    obtain ⟨j, hj, hres, hji⟩ := ho.precedes hf hi hv hc
    have hne : ∀ k ∈ f.allInstrs, ∀ w, (f.instr k).result = some w → Precedes f k i → w ≠ r := by
      rintro k hk w hw hki rfl
      exact hki.ne hf hi (hf.result_inj hk hi hw hr)
    rcases h.map_result j hj v hres with e | ⟨hoc, hb, hlt', hty'⟩ | ⟨hk, hg, hres', hkj, hty'⟩
    · rw [e]
      exact ⟨.result hj (h.not_gone hres e) hres hji hty, hne j hj v hres hji⟩
    · refine ⟨.constant hoc hb hlt' (hty'.trans hty), ?_⟩
      intro e
      rw [e, h.origin_eq r horigin.1, horigin.2] at hoc
      cases hoc
    · have hki := hkj.trans hf ho hji
      exact ⟨.result hk hg hres' hki (hty'.trans hty), hne _ hk _ hres' hki⟩

/-- Every use of the result `r` is redirected to a value that can stand for it. -/
theorem replace (h : Rewrites f f' ρ gone) (hf : WellFormed f) (ho : Ordered f)
    (hi : i ∈ f.allInstrs) (hr : (f.instr i).result = some r) (hρ : ρ r = r)
    (hw : Stands f f' gone i r w) (hne : w ≠ r) :
    ∃ f₁, f'.replaceUses r w = .ok f₁ ∧ Replaces f' f₁ r w ∧
      Rewrites f f₁ (fun v => subst r w (ρ v)) gone := by
  have hlt := (hf.result i hi r hr).1
  have hle := h.values_le
  obtain ⟨hwlt, hwty⟩ := h.stands_ty hf hi hr hw
  obtain ⟨f₁, heq, hrep⟩ := replaceUses_spec h.uses (a := r) (v := w) (by omega) hwlt
    (Ne.symm hne) ((h.ty_eq r hlt).trans hwty.symm)
  have hty : ∀ v, f₁.ty v = f'.ty v := hrep.values.ty_eq
  refine ⟨f₁, heq, hrep, ?_⟩
  refine ⟨hrep.frame.order_eq.trans h.order_eq, hrep.frame.localsSize_eq.trans h.localsSize_eq,
    fun b hb => ?_, hrep.uses, ?_, fun v hv => (hty v).trans (h.ty_eq v hv),
    fun v hv => (hrep.values.origin_eq v).trans (h.origin_eq v hv), fun v hv c e => ?_,
    fun j hj => (hrep.instr j).op_eq.trans (h.op_eq j hj),
    fun j hj => (hrep.instr j).result_eq.trans (h.result_eq j hj), fun j hj hg n => ?_,
    fun v hv => ?_, fun k hk v hv => ?_, fun j hj => ?_⟩
  · exact (h.chain b hb).sameButArgs hrep.frame.blocks_eq hrep.size_instrs hrep.instr
  · rw [hrep.values.size_eq]
    exact hle
  · rw [hrep.values.size_eq] at hv
    rw [hrep.values.origin_eq] at e
    exact (hty v).trans (h.constant_ty v hv c e)
  · rw [hrep.arg_eq, h.arg_eq j hj hg, Option.map_map]
    rfl
  · rw [h.map_constant v hv, subst, if_neg]
    rintro rfl
    rw [isConstant, Value.isConstant, (hf.result i hi v hr).2] at hv
    cases hv
  · rcases h.stands_subst hf ho hi hr hw hk hv
      with e | ⟨hc, hb, hlt, hty'⟩ | ⟨hj, hg, hres, hjk, hty'⟩
    · exact .self e
    · exact .constant (by rw [hrep.values.origin_eq]; exact hc) hb
        (by rw [hrep.values.size_eq]; exact hlt)
        ((hty _).trans hty')
    · exact .result hj hg hres hjk hty'
  · obtain ⟨hall, v, hv, hvne⟩ := h.gone_replaced j hj
    refine ⟨hall, v, hv, ?_⟩
    unfold subst
    split
    · -- what stands for `r` is not the result of an instruction that is gone
      rintro rfl
      rcases hw with rfl | ⟨hc, -, -, -⟩ | ⟨hj', hg', hres', -, -⟩
      · exact hne rfl
      · rw [h.origin_eq w (hf.result j hall w hv).1, (hf.result j hall w hv).2] at hc
        cases hc
      · rw [hf.result_inj hj' hall hres' hv] at hg'
        exact hg' hj
    · exact hvne

/-- An instruction is taken out whose result is replaced and stands for nothing. -/
theorem remove (h : Rewrites f f' ρ gone) (hf : WellFormed f) (hi : i ∈ f.allInstrs)
    (hg : i ∉ gone) (hr : (f.instr i).result = some r) (hρ : ρ r ≠ r)
    (hfree : ∀ k ∈ f.allInstrs, ∀ v, (f.instr k).result = some v → ρ v ≠ r)
    (hunused : (f'.value r).uses = []) :
    ∃ f₁, f'.removeInstr i = .ok f₁ ∧ (∃ b l₁ l₂, Removes f' f₁ b l₁ i l₂) ∧
      Rewrites f f₁ ρ (i :: gone) := by
  obtain ⟨b, hb, hm⟩ := List.mem_flatMap.mp hi
  obtain ⟨l₁, l₂, e⟩ := List.append_of_mem
    (List.mem_filter.mpr ⟨hm, by simpa using hg⟩ : i ∈ (f.blockInstrs b).filter (· ∉ gone))
  have hchain := h.chain b hb
  rw [e] at hchain
  obtain ⟨f₁, heq, hrem⟩ := removeInstr_spec h.uses hchain (by
    intro v hv
    rw [h.result_eq i hi, hr] at hv
    cases hv
    exact hunused)
  have hty : ∀ v, f₁.ty v = f'.ty v := hrem.values.ty_eq
  refine ⟨f₁, heq, ⟨b, l₁, l₂, hrem⟩, ?_⟩
  refine ⟨hrem.order_eq.trans h.order_eq, hrem.localsSize_eq.trans h.localsSize_eq,
    fun c hc => ?_, hrem.uses, ?_, fun v hv => (hty v).trans (h.ty_eq v hv),
    fun v hv => (hrem.values.origin_eq v).trans (h.origin_eq v hv), fun v hv c e => ?_,
    fun j hj => (hrem.op_eq j).trans (h.op_eq j hj),
    fun j hj => (hrem.result_eq j).trans (h.result_eq j hj), fun j hj hg n => ?_,
    h.map_constant, fun k hk v hv => ?_, fun j hj => ?_⟩
  · exact chain_filter hf h.chain hb e hrem c hc
  · rw [hrem.values.size_eq]
    exact h.values_le
  · rw [hrem.values.size_eq] at hv
    rw [hrem.values.origin_eq] at e
    exact (hty v).trans (h.constant_ty v hv c e)
  · rw [List.mem_cons, not_or] at hg
    rw [Instr.arg, hrem.args_eq j hg.1]
    exact h.arg_eq j hj hg.2 n
  · rcases h.map_result k hk v hv with e | ⟨hc, hb, hlt, hty'⟩ | ⟨hj, hg, hres, hjk, hty'⟩
    · exact .self e
    · exact .constant (by rw [hrem.values.origin_eq]; exact hc) hb
        (by rw [hrem.values.size_eq]; exact hlt)
        ((hty _).trans hty')
    · refine .result hj ?_ hres hjk hty'
      rw [List.mem_cons, not_or]
      refine ⟨?_, hg⟩
      rintro rfl
      rw [hr] at hres
      exact hfree k hk v hv (Option.some.inj hres).symm
  · rcases List.mem_cons.mp hj with rfl | hj
    · exact ⟨hi, r, hr, hρ⟩
    · exact h.gone_replaced j hj

end Rewrites
end Recompiler.Meaning
