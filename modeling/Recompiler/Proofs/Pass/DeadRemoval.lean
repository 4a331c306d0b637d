import Recompiler.Pass.Pipeline
import Recompiler.Proofs.IR.Linked
import Recompiler.Proofs.IR.Thinning

/-!
What removal of dead code takes out. A block is swept backward, so when an instruction is reached it
is known which of its users stay; in a single block this leaves exactly what the instructions with
effects depend on.
-/
namespace Recompiler.IR.Fragment

variable {f : Fragment} {i : InstrId} {v : ValueId}

/-- An argument belongs to an instruction that is linked into a block. -/
theorem Linked.mem_allInstrs_of_arg (hl : Linked f) {n : Slot}
    (h : (f.instr i).arg n = some v) : i ∈ f.allInstrs := by
  have hlive : f.Live i := by
    refine ⟨lt_of_arg h, ?_⟩
    by_contra hr
    have hnone := hl.cleared i (eq_true_of_ne_false hr) n
    rw [hnone] at h
    cases h
  obtain ⟨l, hchain, hi⟩ := hl.listed i hlive
  have horder : (f.instr i).block ∈ f.order := by
    rw [hl.order_perm.mem_iff, List.mem_map]
    exact ⟨_, List.mem_range.mpr hchain.block_lt, rfl⟩
  exact WellFormed.mem_allInstrs horder (hchain.blockInstrs_eq ▸ hi)

/-- A value is unused if no linked instruction has it as an argument. -/
theorem Linked.uses_eq_nil_iff (hl : Linked f) :
    (f.value v).uses = [] ↔ ∀ j ∈ f.allInstrs, ∀ n, (f.instr j).arg n ≠ some v := by
  rw [List.eq_nil_iff_forall_not_mem]
  constructor
  · exact fun h j _ n hn => h ⟨j, n⟩ ((hl.uses v ⟨j, n⟩).mpr hn)
  · intro h u hu
    have harg := (hl.uses v u).mp hu
    exact h u.instr (hl.mem_allInstrs_of_arg harg) u.slot harg

/-- For a fragment that is written down, the numbers are gone through. -/
theorem linked_of_numbers (hf : WellFormed f) (hu : UseLists f)
    (horder : f.order.Perm ((List.range f.blocks.size).map BlockId.mk))
    (hlisted : ∀ n < f.instrs.size, (f.instr ⟨n⟩).removed = false →
      (f.instr ⟨n⟩).block ∈ f.order ∧ ⟨n⟩ ∈ f.blockInstrs (f.instr ⟨n⟩).block)
    (hnodup : ∀ n < f.values.size, (f.value ⟨n⟩).uses.Nodup)
    (hcleared : ∀ n < f.instrs.size, (f.instr ⟨n⟩).removed = true →
      ∀ k, (f.instr ⟨n⟩).arg k = none)
    (hpoint : f.point.after = none) : Linked f where
  chain b hb := by
    have hmem : b ∈ f.order := by
      rw [horder.mem_iff, List.mem_map]
      exact ⟨b.index, List.mem_range.mpr hb, rfl⟩
    exact ⟨_, hf.chain b hmem⟩
  listed i hi := by
    obtain ⟨hb, hmem⟩ := hlisted i.index hi.1 hi.2
    exact ⟨_, hf.chain _ hb, hmem⟩
  uses := hu
  uses_nodup v := by
    by_cases hv : v.index < f.values.size
    · exact hnodup v.index hv
    · rw [value_eq_default (Nat.not_lt.mp hv)]
      exact List.nodup_nil
  cleared i hi n := by
    by_cases hlt : i.index < f.instrs.size
    · exact hcleared i.index hlt hi n
    · exact arg_eq_none (Nat.not_lt.mp hlt) n
  order_perm := horder
  point b a _ ha := by
    rw [hpoint] at ha
    cases ha

end Recompiler.IR.Fragment

namespace Recompiler.Pass.DeadCode

open IR Fragment Meaning

variable {f f' f'' : Fragment} {gone l l₁ l₂ : List InstrId} {i j : InstrId} {b : BlockId}
  {v : ValueId} {n : Nat}

/-! ### Fragments without dead instructions -/

/-- The instructions that are gone have no side effects, and what is left does not use their
results. -/
structure Drops (f f' : Fragment) (gone : List InstrId) : Prop extends Thins f f' gone where
  uses : f'.UseLists
  silent : ∀ i ∈ gone, (f.instr i).op.hasSideEffects = false
  unused : ∀ i ∈ gone, ∀ v, (f.instr i).result = some v → ∀ j ∈ f.allInstrs, j ∉ gone → ∀ n,
    (f.instr j).arg n ≠ some v

theorem drops_self (hf : WellFormed f) (hu : f.UseLists) : Drops f f [] where
  values := .refl f
  order_eq := rfl
  localsSize_eq := rfl
  chain b hb := by simpa using hf.chain b hb
  op_eq _ _ := rfl
  result_eq _ _ := rfl
  arg_eq _ _ _ _ := rfl
  plain _ h := by cases h
  uses := hu
  silent _ h := by cases h
  unused _ h := by cases h

theorem isBranch_of_silent {op : Opcode} (h : op.hasSideEffects = false) : op.isBranch = false := by
  cases op <;> first | rfl | cases h

theorem isDead_iff : isDead f i = true ↔ (f.instr i).op.hasSideEffects = false ∧
    ∃ v, (f.instr i).result = some v ∧ (f.value v).uses = [] := by
  unfold isDead
  rw [Bool.and_eq_true, Bool.not_eq_true', Option.any_eq_true]
  simp only [List.isEmpty_iff]

namespace Drops

/-- One more dead instruction is taken out. -/
theorem remove (h : Drops f f' gone) (hf : WellFormed f) (hi : i ∈ f.allInstrs) (hg : i ∉ gone)
    (hdead : isDead f' i = true) :
    ∃ f₁, f'.removeInstr i = .ok f₁ ∧ Drops f f₁ (i :: gone) := by
  obtain ⟨hsilent, v, hv, hnone⟩ := isDead_iff.mp hdead
  rw [h.op_eq i hi] at hsilent
  obtain ⟨b, hb, hm⟩ := List.mem_flatMap.mp hi
  have hstays : i ∈ (f.blockInstrs b).filter (· ∉ gone) :=
    List.mem_filter.mpr ⟨hm, by simpa using hg⟩
  obtain ⟨l₁, l₂, e⟩ := List.append_of_mem hstays
  have hchain := h.chain b hb
  rw [e] at hchain
  have hunused : ∀ w, (f'.instr i).result = some w → (f'.value w).uses = [] := by
    intro w hw
    cases hv.symm.trans hw
    exact hnone
  obtain ⟨f₁, heq, hrem⟩ := removeInstr_spec h.uses hchain hunused
  refine ⟨f₁, heq, ?_⟩
  constructor
  · constructor
    · exact h.values.trans hrem.values
    · exact hrem.order_eq.trans h.order_eq
    · exact hrem.localsSize_eq.trans h.localsSize_eq
    · exact fun c hc => chain_filter hf h.chain hb e hrem c hc
    · exact fun j hj => (hrem.op_eq j).trans (h.op_eq j hj)
    · exact fun j hj => (hrem.result_eq j).trans (h.result_eq j hj)
    · intro j hj hjg n
      rw [List.mem_cons, not_or] at hjg
      rw [Instr.arg, hrem.args_eq j hjg.1]
      exact h.arg_eq j hj hjg.2 n
    · intro j hj
      rcases List.mem_cons.mp hj with rfl | hj
      · exact isBranch_of_silent hsilent
      · exact h.plain j hj
  · exact hrem.uses
  · intro j hj
    rcases List.mem_cons.mp hj with rfl | hj
    · exact hsilent
    · exact h.silent j hj
  · intro k hk w hw j hj hjg n hn
    rw [List.mem_cons, not_or] at hjg
    rcases List.mem_cons.mp hk with rfl | hk
    · rw [h.result_eq k hi, hw] at hv
      cases hv
      rw [← h.arg_eq j hj hjg.2] at hn
      have hmem := (h.uses v ⟨j, n⟩).mpr hn
      rw [hnone] at hmem
      cases hmem
    · exact h.unused k hk w hw j hj hjg.2 n hn

end Drops

/-! ### The sweep -/

theorem sweepInstr_of_live (h : isDead f' i = false) : sweepInstr (f', n) i = .ok (f', n) := by
  unfold sweepInstr
  rw [h]
  rfl

theorem sweepInstr_of_dead (h : Drops f f' gone) (hf : WellFormed f) (hi : i ∈ f.allInstrs)
    (hg : i ∉ gone) (hdead : isDead f' i = true) :
    ∃ f₁, sweepInstr (f', n) i = .ok (f₁, n + 1) ∧ Drops f f₁ (i :: gone) ∧
      (Linked f' → Linked f₁) := by
  obtain ⟨f₁, heq, hdrops⟩ := h.remove hf hi hg hdead
  refine ⟨f₁, ?_, hdrops, ?_⟩
  · unfold sweepInstr
    rw [if_pos hdead]
    simp only [heq]
    rfl
  · intro hl
    obtain ⟨b, hb, hm⟩ := List.mem_flatMap.mp (h.mem_allInstrs.mpr ⟨hi, hg⟩)
    rw [h.order_eq] at hb
    rw [h.blockInstrs_eq hb] at hm
    exact hl.removeInstr ((h.chain b hb).lt i hm) heq

/-- Some instructions are swept; those that are taken out are among them. -/
theorem sweep_drops (hf : WellFormed f) (hn : l.Nodup) (hl : ∀ i ∈ l, i ∈ f.allInstrs ∧ i ∉ gone)
    (h : Drops f f' gone) (n : Nat) :
    ∃ f'' new, l.foldlM sweepInstr (f', n) = .ok (f'', n + new.length) ∧
      Drops f f'' (new ++ gone) ∧ ∀ i ∈ new, i ∈ l := by
  induction l generalizing f' gone n with
  | nil => exact ⟨f', [], rfl, h, by simp⟩
  | cons i l ih =>
    rw [List.nodup_cons] at hn
    obtain ⟨hi, hg⟩ := hl i List.mem_cons_self
    have hrest : ∀ j ∈ l, j ∈ f.allInstrs ∧ j ∉ i :: gone := by
      intro j hj
      obtain ⟨hall, hgone⟩ := hl j (List.mem_cons_of_mem i hj)
      have hne : j ≠ i := fun e => hn.1 (e ▸ hj)
      exact ⟨hall, by simp [hne, hgone]⟩
    cases hdead : isDead f' i with
    | false =>
      obtain ⟨f'', new, hfold, hdrops, hmem⟩ :=
        ih hn.2 (fun j hj => hl j (List.mem_cons_of_mem i hj)) h n
      refine ⟨f'', new, ?_, hdrops, fun j hj => List.mem_cons_of_mem i (hmem j hj)⟩
      rw [List.foldlM_cons, sweepInstr_of_live hdead]
      exact hfold
    | true =>
      obtain ⟨f₁, hsweep, hdrops₁, -⟩ := sweepInstr_of_dead (n := n) h hf hi hg hdead
      obtain ⟨f'', new, hfold, hdrops, hmem⟩ := ih hn.2 hrest hdrops₁ (n + 1)
      refine ⟨f'', new ++ [i], ?_, by simpa using hdrops, ?_⟩
      · rw [List.foldlM_cons, hsweep, List.length_append, List.length_singleton,
          Nat.add_comm new.length 1, ← Nat.add_assoc]
        exact hfold
      · intro j hj
        rcases List.mem_append.mp hj with hj | hj
        · exact List.mem_cons_of_mem i (hmem j hj)
        · exact List.mem_singleton.mp hj ▸ List.mem_cons_self

/-- The pass never faults. -/
theorem run_drops (hf : WellFormed f) (hu : f.UseLists) :
    ∃ f' gone, run f = .ok (f', gone.length) ∧ Drops f f' gone := by
  have hblocks : ∀ bs : List BlockId, bs ⊆ f.order → bs.Nodup → ∀ gone f', Drops f f' gone →
      (∀ b ∈ bs, ∀ i ∈ f.blockInstrs b, i ∉ gone) →
      ∃ f'' gone', bs.foldlM sweepBlock (f', gone.length) = .ok (f'', gone'.length) ∧
        Drops f f'' gone' := by
    intro bs hbs hnodup
    induction bs with
    | nil => exact fun gone f' h _ => ⟨f', gone, rfl, h⟩
    | cons b bs ih =>
      intro gone f' h hfresh
      rw [List.nodup_cons] at hnodup
      have hb : b ∈ f.order := hbs List.mem_cons_self
      have hwhole : (f.blockInstrs b).filter (· ∉ gone) = f.blockInstrs b :=
        List.filter_eq_self.mpr fun i hi => by simpa using hfresh b List.mem_cons_self i hi
      have hchain := h.chain b hb
      rw [hwhole] at hchain
      have hl : ∀ i ∈ (f.blockInstrs b).reverse, i ∈ f.allInstrs ∧ i ∉ gone := by
        intro i hi
        rw [List.mem_reverse] at hi
        exact ⟨WellFormed.mem_allInstrs hb hi, hfresh b List.mem_cons_self i hi⟩
      obtain ⟨f₁, new, hfold, hdrops, hmem⟩ :=
        sweep_drops hf (List.nodup_reverse.mpr hchain.nodup) hl h gone.length
      have hfresh' : ∀ c ∈ bs, ∀ i ∈ f.blockInstrs c, i ∉ new ++ gone := by
        intro c hc i hi hmem'
        rcases List.mem_append.mp hmem' with hm | hm
        · have hc' : c ∈ f.order := hbs (List.mem_cons_of_mem b hc)
          obtain rfl := block_unique hf hc' hb hi (List.mem_reverse.mp (hmem i hm))
          exact hnodup.1 hc
        · exact hfresh c (List.mem_cons_of_mem b hc) i hi hm
      obtain ⟨f'', gone', hrest, hdrops'⟩ :=
        ih (fun c hc => hbs (List.mem_cons_of_mem b hc)) hnodup.2 (new ++ gone) f₁ hdrops hfresh'
      refine ⟨f'', gone', ?_, hdrops'⟩
      rw [List.foldlM_cons, sweepBlock, hchain.blockInstrsBackward_eq, hfold, ← hrest,
        List.length_append, Nat.add_comm]
      rfl
  exact hblocks f.order (List.Subset.refl _) hf.order_nodup [] f (drops_self hf hu) (by simp)

/-! ### What is needed -/

/-- The instructions that the ones of `root` depend on, and these. -/
inductive Needed (f : Fragment) (root : InstrId → Prop) : InstrId → Prop
  | root {i : InstrId} (h : root i) : Needed f root i
  | use {i j : InstrId} {n : Slot} {v : ValueId} (h : Needed f root j)
      (harg : (f.instr j).arg n = some v) (hres : (f.instr i).result = some v) : Needed f root i

/-- An instruction that stays whether or not others depend on it. -/
def Kept (f : Fragment) (i : InstrId) : Prop :=
  (f.instr i).op.hasSideEffects = true ∨ (f.instr i).result = none

theorem needed_iff {root : InstrId → Prop} : Needed f root i ↔ root i ∨
    ∃ j n v, Needed f root j ∧ (f.instr j).arg n = some v ∧ (f.instr i).result = some v := by
  constructor
  · intro h
    cases h with
    | root h => exact .inl h
    | use h harg hres => exact .inr ⟨_, _, _, h, harg, hres⟩
  · intro h
    rcases h with h | ⟨j, n, v, h, harg, hres⟩
    · exact .root h
    · exact .use h harg hres

section
variable (hf : WellFormed f) (horder : f.order = [b])
  (hdef : ∀ l₁ i l₂, f.blockInstrs b = l₁ ++ i :: l₂ → ∀ n v, (f.instr i).arg n = some v →
    f.isConstant v = false → ∃ j ∈ l₁, (f.instr j).result = some v)
include hf horder hdef

omit hf hdef in
theorem allInstrs_single : f.allInstrs = f.blockInstrs b := by
  unfold allInstrs
  rw [horder]
  simp

/-- The users of a result stand behind the instruction. -/
theorem mem_of_uses (e : f.blockInstrs b = l₁ ++ i :: l₂) (hres : (f.instr i).result = some v)
    (hj : j ∈ f.blockInstrs b) {n : Slot} (harg : (f.instr j).arg n = some v) : j ∈ l₂ := by
  have hall := allInstrs_single horder
  have hi : i ∈ f.allInstrs := by
    rw [hall, e]
    simp
  have hconst : f.isConstant v = false := by
    rw [isConstant, Value.isConstant_eq_false_iff]
    exact ⟨i, (hf.result i hi v hres).2⟩
  obtain ⟨l₃, l₄, e'⟩ := List.append_of_mem hj
  obtain ⟨k, hk, hkres⟩ := hdef l₃ j l₄ e' n v harg hconst
  have hk' : k ∈ f.allInstrs := by
    rw [hall, e']
    simp [hk]
  obtain rfl := hf.result_inj hk' hi hkres hres
  have hnodup : (f.blockInstrs b).Nodup := (hf.chain b (by simp [horder])).nodup
  -- `k` stands in front of `j`, and where that is is known twice.
  obtain ⟨l₅, l₆, rfl⟩ := List.append_of_mem hk
  have hsplit : l₅ ++ k :: (l₆ ++ j :: l₄) = l₁ ++ k :: l₂ := by
    rw [← e, e']
    simp
  have hnodup' := hnodup
  rw [e', List.append_assoc, List.cons_append] at hnodup'
  obtain ⟨-, rfl⟩ := split_unique hnodup' rfl hsplit
  simp

/-- When an instruction is reached, it is dead exactly if it is not needed. -/
theorem isDead_iff_not_needed (hl : Linked f') (h : Drops f f' gone)
    (e : f.blockInstrs b = l₁ ++ i :: l₂)
    (hgone : ∀ j ∈ l₂, j ∉ gone ↔ Needed f (Kept f) j) (hlf : Linked f) :
    isDead f' i = true ↔ ¬Needed f (Kept f) i := by
  have hall := allInstrs_single horder
  have hi : i ∈ f.allInstrs := by
    rw [hall, e]
    simp
  rw [isDead_iff, h.op_eq i hi, h.result_eq i hi, needed_iff]
  constructor
  · rintro ⟨hsilent, v, hv, hnone⟩ (hkept | ⟨j, n, w, hneeded, harg, hres⟩)
    · rcases hkept with hkept | hkept
      · rw [hsilent] at hkept
        cases hkept
      · rw [hv] at hkept
        cases hkept
    · cases hv.symm.trans hres
      have hj : j ∈ f.allInstrs := hlf.mem_allInstrs_of_arg harg
      have hj₂ := mem_of_uses hf horder hdef e hres (hall ▸ hj) harg
      have hstays : j ∉ gone := (hgone j hj₂).mpr hneeded
      have hmem : j ∈ f'.allInstrs := h.mem_allInstrs.mpr ⟨hj, hstays⟩
      rw [← h.arg_eq j hj hstays] at harg
      exact hl.uses_eq_nil_iff.mp hnone j hmem n harg
  · intro hneeded
    rw [not_or] at hneeded
    obtain ⟨hkept, huse⟩ := hneeded
    unfold Kept at hkept
    rw [not_or, Bool.not_eq_true] at hkept
    obtain ⟨v, hv⟩ := Option.ne_none_iff_exists'.mp hkept.2
    refine ⟨hkept.1, v, hv, hl.uses_eq_nil_iff.mpr ?_⟩
    intro j hj n harg
    obtain ⟨hj, hstays⟩ := h.mem_allInstrs.mp hj
    rw [h.arg_eq j hj hstays] at harg
    have hj₂ := mem_of_uses hf horder hdef e hv (hall ▸ hj) harg
    exact huse ⟨j, n, v, (hgone j hj₂).mp hstays, harg, hv⟩

variable (hlf : Linked f)
include hlf

/-- The instructions of the rest of the block are swept. -/
theorem sweep_exact (e : f.blockInstrs b = l₁ ++ l₂) :
    ∃ f' gone n, l₂.reverse.foldlM sweepInstr (f, 0) = .ok (f', n) ∧ Drops f f' gone ∧ Linked f' ∧
      (∀ i ∈ gone, i ∈ l₂) ∧ (∀ i ∈ l₂, i ∉ gone ↔ Needed f (Kept f) i) ∧
      n + (l₂.filter (· ∉ gone)).length = l₂.length := by
  induction l₂ generalizing l₁ with
  | nil => exact ⟨f, [], 0, rfl, drops_self hf hlf.uses, hlf, by simp, by simp, rfl⟩
  | cons i l₂ ih =>
    have hnodup : (f.blockInstrs b).Nodup := (hf.chain b (by simp [horder])).nodup
    rw [e, List.nodup_append, List.nodup_cons] at hnodup
    have hi : i ∉ l₂ := hnodup.2.1.1
    have hall : i ∈ f.allInstrs := by
      rw [allInstrs_single horder, e]
      simp
    have e' : f.blockInstrs b = (l₁ ++ [i]) ++ l₂ := by simp [e]
    obtain ⟨f', gone, n, hfold, hdrops, hl, hsub, hgone, hcount⟩ := ih e'
    have hig : i ∉ gone := fun h => hi (hsub i h)
    have hdead := isDead_iff_not_needed hf horder hdef hl hdrops e hgone hlf
    rw [List.reverse_cons, List.foldlM_append, hfold]
    cases hcase : isDead f' i with
    | false =>
      rw [hcase, Bool.false_eq_true, false_iff, not_not] at hdead
      refine ⟨f', gone, n, ?_, hdrops, hl, fun j hj => List.mem_cons_of_mem i (hsub j hj), ?_, ?_⟩
      · change [i].foldlM sweepInstr (f', n) = _
        rw [List.foldlM_cons, sweepInstr_of_live hcase]
        rfl
      · intro j hj
        rcases List.mem_cons.mp hj with rfl | hj
        · exact iff_of_true hig hdead
        · exact hgone j hj
      · rw [List.filter_cons_of_pos (by simpa using hig), List.length_cons, List.length_cons]
        omega
    | true =>
      rw [hcase, eq_self_iff_true, true_iff] at hdead
      obtain ⟨f₁, hsweep, hdrops₁, hl₁⟩ := sweepInstr_of_dead (n := n) hdrops hf hall hig hcase
      have hne : ∀ j ∈ l₂, j ≠ i := fun j hj e => hi (e ▸ hj)
      refine ⟨f₁, i :: gone, n + 1, ?_, hdrops₁, hl₁ hl, ?_, ?_, ?_⟩
      · change [i].foldlM sweepInstr (f', n) = _
        rw [List.foldlM_cons, hsweep]
        rfl
      · intro j hj
        rcases List.mem_cons.mp hj with rfl | hj
        · exact List.mem_cons_self
        · exact List.mem_cons_of_mem i (hsub j hj)
      · intro j hj
        rcases List.mem_cons.mp hj with rfl | hj
        · exact iff_of_false (by simp) hdead
        · rw [List.mem_cons, not_or, hgone j hj]
          exact and_iff_right (hne j hj)
      · have hsame : (i :: l₂).filter (· ∉ i :: gone) = l₂.filter (· ∉ gone) := by
          rw [List.filter_cons_of_neg (by simp)]
          apply List.filter_congr
          intro j hj
          simp [hne j hj]
        rw [hsame, List.length_cons]
        omega

omit hf hdef in
/-- In a block whose instructions are all needed, nothing is dead. -/
theorem run_of_needed (hl : Linked f') (h : Drops f f' gone)
    (hgone : ∀ i ∈ f.blockInstrs b, i ∉ gone ↔ Needed f (Kept f) i) : run f' = .ok (f', 0) := by
  have hb : b ∈ f.order := by simp [horder]
  have hall := allInstrs_single horder
  have hlive : ∀ i ∈ f'.blockInstrs b, isDead f' i = false := by
    intro i hi
    rw [h.blockInstrs_eq hb, List.mem_filter] at hi
    have hneeded := (hgone i hi.1).mp (by simpa using hi.2)
    have hi' : i ∈ f.allInstrs := hall ▸ hi.1
    rw [← Bool.not_eq_true, isDead_iff, h.op_eq i hi', h.result_eq i hi']
    rintro ⟨hsilent, v, hv, hnone⟩
    rcases needed_iff.mp hneeded with (hkept | hkept) | ⟨j, n, w, hj, harg, hres⟩
    · rw [hsilent] at hkept
      cases hkept
    · rw [hv] at hkept
      cases hkept
    · cases hv.symm.trans hres
      have hmem : j ∈ f.allInstrs := hlf.mem_allInstrs_of_arg harg
      have hstays : j ∉ gone := (hgone j (hall ▸ hmem)).mpr hj
      rw [← h.arg_eq j hmem hstays] at harg
      exact hl.uses_eq_nil_iff.mp hnone j (h.mem_allInstrs.mpr ⟨hmem, hstays⟩) n harg
  have hfold : ∀ l : List InstrId, (∀ i ∈ l, isDead f' i = false) →
      l.foldlM sweepInstr (f', 0) = .ok (f', 0) := by
    intro l hl
    induction l with
    | nil => rfl
    | cons i l ih =>
      rw [List.foldlM_cons, sweepInstr_of_live (hl i List.mem_cons_self)]
      exact ih fun j hj => hl j (List.mem_cons_of_mem i hj)
  have hchain := h.chain b hb
  rw [← h.blockInstrs_eq hb] at hchain
  unfold run
  rw [h.order_eq, horder, List.foldlM_cons, sweepBlock, hchain.blockInstrsBackward_eq,
    hfold _ fun i hi => hlive i (List.mem_reverse.mp hi)]
  rfl

end

/-- In a single block whose arguments are constants or earlier results, the pass takes out exactly
the instructions that nothing needs: one that has no side effects, and whose result only such
instructions use. The others stay as they are. A second pass takes nothing out, and the counter of
the pipeline grows by the number of instructions that are gone. -/
theorem run_drops_dead (hf : WellFormed f) (hl : Linked f) (horder : f.order = [b])
    (hdef : ∀ l₁ i l₂, f.blockInstrs b = l₁ ++ i :: l₂ → ∀ n v, (f.instr i).arg n = some v →
      f.isConstant v = false → ∃ j ∈ l₁, (f.instr j).result = some v) :
    ∃ f' n, run f = .ok (f', n) ∧
      (f'.blockInstrs b).Sublist (f.blockInstrs b) ∧
      (∀ i ∈ f.blockInstrs b, i ∈ f'.blockInstrs b ↔ Needed f (Kept f) i) ∧
      (∀ i ∈ f'.blockInstrs b, (f'.instr i).op = (f.instr i).op ∧
        (∀ k, (f'.instr i).arg k = (f.instr i).arg k) ∧ (f'.instr i).result = (f.instr i).result) ∧
      n + (f'.blockInstrs b).length = (f.blockInstrs b).length ∧
      run f' = .ok (f', 0) ∧
      ∀ (p : Pipeline) regs, p.run regs f .dce = .ok (f', p.count .deadRemoved n) := by
  have hb : b ∈ f.order := by simp [horder]
  obtain ⟨f', gone, n, hfold, h, hl', -, hgone, hcount⟩ :=
    sweep_exact hf horder hdef hl (List.nil_append (f.blockInstrs b)).symm
  have hinstrs := h.blockInstrs_eq hb
  have hrun : run f = .ok (f', n) := by
    unfold run
    rw [horder, List.foldlM_cons, sweepBlock, (hf.chain b hb).blockInstrsBackward_eq, hfold]
    rfl
  refine ⟨f', n, hrun, ?_, ?_, ?_, ?_, run_of_needed horder hl hl' h hgone, ?_⟩
  · rw [hinstrs]
    exact List.filter_sublist
  · intro i hi
    rw [hinstrs, List.mem_filter, ← hgone i hi]
    simp [hi]
  · intro i hi
    rw [hinstrs, List.mem_filter] at hi
    have hall : i ∈ f.allInstrs := WellFormed.mem_allInstrs hb hi.1
    exact ⟨h.op_eq i hall, h.arg_eq i hall (by simpa using hi.2), h.result_eq i hall⟩
  · rw [hinstrs]
    exact hcount
  · intro p regs
    unfold Pipeline.run
    simp only [hrun]
    rfl

/-! ### A value that only feeds dead instructions -/

/-- A sum that only an unused difference is made from. -/
def waste : Fragment where
  values := #[{ ty := .i32, origin := .constant (.i32 16), uses := [⟨⟨0⟩, 0⟩, ⟨⟨3⟩, 0⟩] },
    { ty := .i32, origin := .result ⟨0⟩, uses := [⟨⟨1⟩, 0⟩, ⟨⟨1⟩, 1⟩, ⟨⟨2⟩, 0⟩, ⟨⟨3⟩, 1⟩] },
    { ty := .i32, origin := .result ⟨1⟩, uses := [⟨⟨2⟩, 1⟩] },
    { ty := .i32, origin := .result ⟨2⟩ }]
  instrs := #[
    { op := .loadContext, args := slots (some ⟨0⟩), result := some ⟨1⟩, block := ⟨0⟩,
      next := some ⟨1⟩ },
    { op := .add, args := slots (some ⟨1⟩) (some ⟨1⟩), result := some ⟨2⟩, block := ⟨0⟩,
      prev := some ⟨0⟩, next := some ⟨2⟩ },
    { op := .sub, args := slots (some ⟨1⟩) (some ⟨2⟩), result := some ⟨3⟩, block := ⟨0⟩,
      prev := some ⟨1⟩, next := some ⟨3⟩ },
    { op := .storeContext, args := slots (some ⟨0⟩) (some ⟨1⟩), block := ⟨0⟩, prev := some ⟨2⟩ }]
  blocks := #[{ head := some ⟨0⟩, tail := some ⟨3⟩ }]
  order := [⟨0⟩]

theorem waste_code : waste.blockInstrs ⟨0⟩ = [⟨0⟩, ⟨1⟩, ⟨2⟩, ⟨3⟩] := by decide

theorem waste_wellFormed : WellFormed waste := by decide

theorem waste_linked : Linked waste :=
  linked_of_numbers waste_wellFormed (useLists_of_numbers (by decide) (by decide)) (by decide)
    (by decide) (by decide) (by decide) rfl

theorem waste_defined : ∀ l₁ i l₂, waste.blockInstrs ⟨0⟩ = l₁ ++ i :: l₂ → ∀ n v,
    (waste.instr i).arg n = some v → waste.isConstant v = false →
      ∃ j ∈ l₁, (waste.instr j).result = some v := by
  have hdefined : ∀ l₁ i l₂, waste.blockInstrs ⟨0⟩ = l₁ ++ i :: l₂ → ∀ n,
      ∀ v ∈ (waste.instr i).arg n, waste.isConstant v = false →
        ∃ j ∈ l₁, (waste.instr j).result = some v := by decide
  exact hdefined

/-- Both go, since the sum is reached after the difference. -/
theorem run_drops_dead_waste : ∃ f' n, run waste = .ok (f', n) ∧
    (f'.blockInstrs ⟨0⟩).Sublist [⟨0⟩, ⟨1⟩, ⟨2⟩, ⟨3⟩] ∧
    (∀ i ∈ waste.blockInstrs ⟨0⟩, i ∈ f'.blockInstrs ⟨0⟩ ↔ Needed waste (Kept waste) i) ∧
    n + (f'.blockInstrs ⟨0⟩).length = 4 ∧ n = 2 ∧ run f' = .ok (f', 0) := by
  obtain ⟨f', n, hrun, hsub, hneeded, -, hcount, hagain, -⟩ :=
    run_drops_dead waste_wellFormed waste_linked rfl waste_defined
  have hn : (run waste).map (·.2) = .ok 2 := by rfl
  rw [hrun] at hn
  cases hn
  exact ⟨f', 2, hrun, waste_code ▸ hsub, hneeded, hcount, rfl, hagain⟩

/-- A sum whose result nobody can use, since there is none. -/
def aimless : Fragment where
  values := #[{ ty := .i32, origin := .constant (.i32 1), uses := [⟨⟨0⟩, 0⟩, ⟨⟨0⟩, 1⟩] }]
  instrs := #[{ op := .add, args := slots (some ⟨0⟩) (some ⟨0⟩), block := ⟨0⟩ }]
  blocks := #[{ head := some ⟨0⟩, tail := some ⟨0⟩ }]
  order := [⟨0⟩]

/-- An instruction without a result stays, although it has no side effects. -/
theorem stays_without_result : ¬∀ (f : Fragment) (b : BlockId), WellFormed f → Linked f →
    f.order = [b] →
    (∀ l₁ i l₂, f.blockInstrs b = l₁ ++ i :: l₂ → ∀ n v, (f.instr i).arg n = some v →
      f.isConstant v = false → ∃ j ∈ l₁, (f.instr j).result = some v) →
    ∃ f' n, run f = .ok (f', n) ∧ ∀ i ∈ f.blockInstrs b, i ∈ f'.blockInstrs b ↔
      Needed f (fun i => (f.instr i).op.hasSideEffects = true) i := by
  intro h
  have hwell : WellFormed aimless := by decide
  have hlinked : Linked aimless :=
    linked_of_numbers hwell (useLists_of_numbers (by decide) (by decide)) (by decide)
      (by decide) (by decide) (by decide) rfl
  have hdefined : ∀ l₁ i l₂, aimless.blockInstrs ⟨0⟩ = l₁ ++ i :: l₂ → ∀ n,
      ∀ v ∈ (aimless.instr i).arg n, aimless.isConstant v = false →
        ∃ j ∈ l₁, (aimless.instr j).result = some v := by decide
  obtain ⟨f', n, hrun, hneeded⟩ := h aimless ⟨0⟩ hwell hlinked rfl hdefined
  have hsame : run aimless = .ok (aimless, 0) := by rfl
  cases hsame.symm.trans hrun
  have hmem : (⟨0⟩ : InstrId) ∈ aimless.blockInstrs ⟨0⟩ := by decide
  rcases needed_iff.mp ((hneeded ⟨0⟩ hmem).mp hmem) with hroot | ⟨_, _, _, -, -, hres⟩
  · cases hroot
  · cases hres

end Recompiler.Pass.DeadCode
