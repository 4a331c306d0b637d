import Recompiler.Proofs.IR.Typing

/-!
Fragments from which instructions were taken out. The fragment that is left has the same paths up to
what is gone; so it is well formed, defines its results first and is typed if the other one is.
-/
namespace Recompiler.Meaning

open IR Fragment

variable {f f' : Fragment} {ρ : ValueId → ValueId} {gone seen : List InstrId} {i j : InstrId}
  {b : BlockId} {p : Point} {v : ValueId}

/-- The second fragment is the first one without the instructions of `gone`, none of which branches.
Where the result of one of them was used, a value stands for it. -/
structure Trims (f f' : Fragment) (ρ : ValueId → ValueId) (gone : List InstrId) : Prop where
  values : SameValues f f'
  order_eq : f'.order = f.order
  localsSize_eq : f'.localsSize = f.localsSize
  locals_eq : f'.locals = f.locals
  edges_eq : ∀ b, (f'.block b).edges = (f.block b).edges
  chain : ∀ b ∈ f.order, f'.Chain b ((f.blockInstrs b).filter (· ∉ gone))
  uses : f'.UseLists
  op_eq : ∀ i ∈ f.allInstrs, (f'.instr i).op = (f.instr i).op
  result_eq : ∀ i ∈ f.allInstrs, (f'.instr i).result = (f.instr i).result
  arg_eq : ∀ i ∈ f.allInstrs, i ∉ gone → ∀ n,
    (f'.instr i).arg n = ((f.instr i).arg n).map ρ
  map_constant : ∀ v, f.isConstant v = true → ρ v = v
  map_result : ∀ k ∈ f.allInstrs, ∀ v, (f.instr k).result = some v → Stands f f' gone k v (ρ v)
  gone_plain : ∀ i ∈ gone, (f.instr i).op.isBranch = false
  gone_moved : ∀ i ∈ gone, ∀ v, (f.instr i).result = some v → ρ v ≠ v

theorem Rewrites.trims (h : Rewrites f f' ρ gone) (hvalues : SameValues f f')
    (hlocals : f'.locals = f.locals) (hedges : ∀ b, (f'.block b).edges = (f.block b).edges)
    (hplain : ∀ i ∈ gone, (f.instr i).op.isBranch = false) : Trims f f' ρ gone where
  values := hvalues
  order_eq := h.order_eq
  localsSize_eq := h.localsSize_eq
  locals_eq := hlocals
  edges_eq := hedges
  chain := h.chain
  uses := h.uses
  op_eq := h.op_eq
  result_eq := h.result_eq
  arg_eq := h.arg_eq
  map_constant := h.map_constant
  map_result := h.map_result
  gone_plain := hplain
  gone_moved i hi v hv := by
    obtain ⟨-, u, hu, hne⟩ := h.gone_replaced i hi
    cases hv.symm.trans hu
    exact hne

theorem trims_self (hf : WellFormed f) (hu : f.UseLists) : Trims f f id [] where
  values := .refl f
  order_eq := rfl
  localsSize_eq := rfl
  locals_eq := rfl
  edges_eq _ := rfl
  chain b hb := by simpa using hf.chain b hb
  uses := hu
  op_eq _ _ := rfl
  result_eq _ _ := rfl
  arg_eq _ _ _ _ := by simp
  map_constant _ _ := rfl
  map_result _ _ _ _ := .self rfl
  gone_plain _ h := by cases h
  gone_moved _ h := by cases h

/-- An instruction without a result is taken out. -/
theorem Trims.remove (h : Trims f f' id gone) (hf : WellFormed f) (hi : i ∈ f.allInstrs)
    (hg : i ∉ gone) (hr : (f.instr i).result = none) (hplain : (f.instr i).op.isBranch = false) :
    ∃ f₁, f'.removeInstr i = .ok f₁ ∧ Trims f f₁ id (i :: gone) := by
  obtain ⟨b, hb, hm⟩ := List.mem_flatMap.mp hi
  obtain ⟨l₁, l₂, e⟩ := List.append_of_mem
    (List.mem_filter.mpr ⟨hm, by simpa using hg⟩ : i ∈ (f.blockInstrs b).filter (· ∉ gone))
  have hchain := h.chain b hb
  rw [e] at hchain
  obtain ⟨f₁, heq, hrem⟩ := removeInstr_spec h.uses hchain (by
    intro v hv
    rw [h.result_eq i hi, hr] at hv
    cases hv)
  refine ⟨f₁, heq, h.values.trans hrem.values, hrem.order_eq.trans h.order_eq,
    hrem.localsSize_eq.trans h.localsSize_eq, hrem.locals_eq.trans h.locals_eq,
    fun b => (hrem.edges_eq b).trans (h.edges_eq b),
    fun c hc => chain_filter hf h.chain hb e hrem c hc, hrem.uses,
    fun j hj => (hrem.op_eq j).trans (h.op_eq j hj),
    fun j hj => (hrem.result_eq j).trans (h.result_eq j hj), fun j hj hg n => ?_,
    h.map_constant, fun _ _ _ _ => .self rfl, fun j hj => ?_, fun j hj v hv => ?_⟩
  · rw [List.mem_cons, not_or] at hg
    rw [Instr.arg, hrem.args_eq j hg.1]
    exact h.arg_eq j hj hg.2 n
  · rcases List.mem_cons.mp hj with rfl | hj
    · exact hplain
    · exact h.gone_plain j hj
  · rcases List.mem_cons.mp hj with rfl | hj
    · rw [hr] at hv
      cases hv
    · exact h.gone_moved j hj v hv

/-- The point with what is gone left out. -/
def Point.without (gone : List InstrId) (p : Point) : Point :=
  ⟨p.code.filter (· ∉ gone), p.blocks⟩

namespace Trims

theorem blockInstrs_eq (h : Trims f f' ρ gone) (hb : b ∈ f.order) :
    f'.blockInstrs b = (f.blockInstrs b).filter (· ∉ gone) := (h.chain b hb).blockInstrs_eq

theorem startOf_eq (h : Trims f f' ρ gone) (hb : b ∈ f.order) :
    startOf f' b = (startOf f b).without gone := by
  unfold startOf Point.without
  rw [h.order_eq, h.blockInstrs_eq hb]

theorem mem_allInstrs (h : Trims f f' ρ gone) : i ∈ f'.allInstrs ↔ i ∈ f.allInstrs ∧ i ∉ gone := by
  unfold allInstrs
  rw [h.order_eq]
  simp only [List.mem_flatMap]
  constructor
  · rintro ⟨b, hb, hi⟩
    rw [h.blockInstrs_eq hb, List.mem_filter] at hi
    exact ⟨⟨b, hb, hi.1⟩, by simpa using hi.2⟩
  · rintro ⟨⟨b, hb, hi⟩, hg⟩
    refine ⟨b, hb, ?_⟩
    rw [h.blockInstrs_eq hb, List.mem_filter]
    exact ⟨hi, by simpa using hg⟩

theorem isConstant_eq (h : Trims f f' ρ gone) (v : ValueId) : f'.isConstant v = f.isConstant v := by
  rw [isConstant, isConstant, Value.isConstant, Value.isConstant, h.values.origin_eq]

theorem wellFormed (h : Trims f f' ρ gone) (hf : WellFormed f) : WellFormed f' where
  order_nodup := by
    rw [h.order_eq]
    exact hf.order_nodup
  chain b hb := by
    rw [h.order_eq] at hb
    rw [h.blockInstrs_eq hb]
    exact h.chain b hb
  edges b hb c hc := by
    rw [h.order_eq] at hb ⊢
    rw [h.edges_eq] at hc
    exact hf.edges b hb c hc
  target v b hv := by
    rw [h.values.origin_eq] at hv
    rw [h.order_eq]
    exact hf.target v b hv
  result i hi v hv := by
    have hi := (h.mem_allInstrs.mp hi).1
    rw [h.result_eq i hi] at hv
    rw [h.values.size_eq, h.values.origin_eq]
    exact hf.result i hi v hv
  arg_lt _ _ _ _ hv := h.uses.arg_lt hv
  constant_ty v hv c hc := by
    rw [h.values.size_eq] at hv
    rw [h.values.origin_eq] at hc
    rw [h.values.ty_eq]
    exact hf.constant_ty v hv c hc
  localsSize_nonneg := by
    rw [h.localsSize_eq]
    exact hf.localsSize_nonneg
  local_le s hs := by
    rw [h.locals_eq] at hs
    rw [h.localsSize_eq]
    exact hf.local_le s hs

/-! ### Arguments -/

section
variable (h : Trims f f' ρ gone) (hf : WellFormed f) (ho : Ordered f)
include h hf ho

/-- An argument that is left is a constant as before, or the result of an instruction that is left
and precedes its use. -/
theorem arg_cases (hi : i ∈ f.allInstrs) {n : Slot} (hv : (f.instr i).arg n = some v) :
    (f.isConstant v = true ∧ ρ v = v) ∨
      (f.isConstant v = false ∧ f'.ty (ρ v) = f.ty v ∧
        ((∃ c, (f'.value (ρ v)).origin = .constant c ∧ c.bits?.isSome) ∨
          ∃ j ∈ f.allInstrs, j ∉ gone ∧ (f.instr j).result = some (ρ v) ∧ Precedes f j i)) := by
  cases hc : f.isConstant v with
  | true => exact .inl ⟨rfl, h.map_constant v hc⟩
  | false =>
    refine .inr ⟨rfl, ?_⟩
    obtain ⟨j, hj, hres, hji⟩ := ho.precedes hf hi hv hc
    rcases h.map_result j hj v hres with e | ⟨horigin, hbits, -, hty⟩ | ⟨hk, hg, hres', hkj, hty⟩
    · rw [e]
      exact ⟨h.values.ty_eq v, .inr ⟨j, hj, fun hg => h.gone_moved j hg v hres e, hres, hji⟩⟩
    · exact ⟨hty, .inl ⟨_, horigin, hbits⟩⟩
    · exact ⟨(h.values.ty_eq _).trans hty, .inr ⟨_, hk, hg, hres', hkj.trans hf ho hji⟩⟩

theorem arg_ty (hi : i ∈ f.allInstrs) {n : Slot} (hv : (f.instr i).arg n = some v) :
    f'.ty (ρ v) = f.ty v := by
  rcases h.arg_cases hf ho hi hv with ⟨-, e⟩ | ⟨-, hty, -⟩
  · rw [e]
    exact h.values.ty_eq v
  · exact hty

/-- The same blocks are named. -/
theorem block_iff (hi : i ∈ f.allInstrs) {n : Slot} (hv : (f.instr i).arg n = some v) :
    (f'.value (ρ v)).origin = .constant (.blk b) ↔ (f.value v).origin = .constant (.blk b) := by
  rcases h.arg_cases hf ho hi hv with ⟨-, e⟩ | ⟨hc, -, ⟨c, horigin, hbits⟩ | ⟨j, hj, -, hres, -⟩⟩
  · rw [e, h.values.origin_eq]
  · obtain ⟨k, hk⟩ := (Value.isConstant_eq_false_iff _).mp hc
    rw [horigin, hk]
    constructor
    · intro e
      cases e
      cases hbits
    · intro e
      cases e
  · obtain ⟨k, hk⟩ := (Value.isConstant_eq_false_iff _).mp hc
    rw [h.values.origin_eq, (hf.result j hj _ hres).2, hk]
    constructor
    · intro e
      cases e
    · intro e
      cases e

end

theorem target?_eq (h : Trims f f' ρ gone) (hi : i ∈ f.allInstrs) (hg : i ∉ gone) :
    Exit.target? (f'.instr i) = (Exit.target? (f.instr i)).map ρ := by
  unfold Exit.target?
  rw [h.op_eq i hi]
  split
  · exact h.arg_eq i hi hg 0
  · exact h.arg_eq i hi hg 1
  · exact h.arg_eq i hi hg 1
  · rfl

/-! ### Paths -/

section
variable (h : Trims f f' ρ gone) (hf : WellFormed f) (ho : Ordered f)
include h hf ho

theorem path (hp : Path f seen p) : Path f' (seen.filter (· ∉ gone)) (p.without gone) := by
  induction hp with
  | start =>
    rw [← h.order_eq]
    exact .start
  | @enter seen b blocks hp ih =>
    have hb : b ∈ f.order := hp.blocks_subset hf (by simp)
    have hcode : f'.blockInstrs b = (f.blockInstrs b).filter (· ∉ gone) := h.blockInstrs_eq hb
    unfold Point.without at ih ⊢
    rw [← hcode]
    exact ih.enter
  | @pass seen code i blocks hp hop ih =>
    have hi : i ∈ f.allInstrs := (hp.pass hop).mem_allInstrs hf (by simp)
    by_cases hg : i ∈ gone
    · unfold Point.without at ih ⊢
      rw [List.filter_cons_of_neg (by simpa using hg)] at ih ⊢
      exact ih
    · unfold Point.without at ih ⊢
      rw [List.filter_cons_of_pos (by simpa using hg)] at ih ⊢
      refine ih.pass ?_
      rw [h.op_eq i hi]
      exact hop
  | @jump seen code i blocks v b hp htarget hv ih =>
    have hi : i ∈ f.allInstrs := (hp.jump htarget hv).mem_allInstrs hf (by simp)
    obtain ⟨n, hn⟩ := target?_mem htarget
    have hg : i ∉ gone := by
      intro hg
      have hplain := h.gone_plain i hg
      unfold Exit.target? at htarget
      split at htarget
      · next e =>
        rw [e] at hplain
        cases hplain
      · next e =>
        rw [e] at hplain
        cases hplain
      · next e =>
        rw [e] at hplain
        cases hplain
      · cases htarget
    rw [← h.startOf_eq (hf.target v b hv), List.filter_cons_of_pos (by simpa using hg)]
    unfold Point.without at ih
    rw [List.filter_cons_of_pos (by simpa using hg)] at ih
    refine ih.jump (v := ρ v) ?_ ((h.block_iff hf ho hi hn).mpr hv)
    rw [h.target?_eq hi hg, htarget]
    rfl

omit hf ho in
/-- What is gone is passed on the way to what is left. -/
theorem path_skip {code : List InstrId} {blocks : List BlockId} (hp : Path f seen ⟨code, blocks⟩) :
    ∃ seen₁ code₁, Path f seen₁ ⟨code₁, blocks⟩ ∧
      seen₁.filter (· ∉ gone) = seen.filter (· ∉ gone) ∧
      code₁.filter (· ∉ gone) = code.filter (· ∉ gone) ∧ ∀ i ∈ code₁.head?, i ∉ gone := by
  induction code generalizing seen with
  | nil => exact ⟨seen, [], hp, rfl, rfl, by simp⟩
  | cons j code ih =>
    by_cases hg : j ∈ gone
    · have hop : (f.instr j).op ≠ .branch := by
        intro e
        have hplain := h.gone_plain j hg
        rw [e] at hplain
        cases hplain
      obtain ⟨seen₁, code₁, hp₁, hseen, hcode, hhead⟩ := ih (hp.pass hop)
      refine ⟨seen₁, code₁, hp₁, ?_, ?_, hhead⟩
      · rw [hseen, List.filter_cons_of_neg (by simpa using hg)]
      · rw [hcode, List.filter_cons_of_neg (by simpa using hg)]
    · exact ⟨seen, j :: code, hp, rfl, rfl, by simpa using hg⟩

omit hf ho in
theorem path_skip_nil {code : List InstrId} {blocks : List BlockId}
    (hp : Path f seen ⟨code, blocks⟩)
    (e : code.filter (· ∉ gone) = []) :
    ∃ seen₁, Path f seen₁ ⟨[], blocks⟩ ∧ seen₁.filter (· ∉ gone) = seen.filter (· ∉ gone) := by
  obtain ⟨seen₁, code₁, hp₁, hseen, hcode, hhead⟩ := h.path_skip hp
  cases code₁ with
  | nil => exact ⟨seen₁, hp₁, hseen⟩
  | cons j code₁ =>
    rw [e, List.filter_cons_of_pos (by simpa using hhead)] at hcode
    cases hcode

omit hf ho in
theorem path_skip_cons {code code' : List InstrId} {blocks : List BlockId}
    (hp : Path f seen ⟨code, blocks⟩) (e : code.filter (· ∉ gone) = i :: code') :
    ∃ seen₁ code₁, Path f seen₁ ⟨i :: code₁, blocks⟩ ∧ i ∉ gone ∧
      (i :: seen₁).filter (· ∉ gone) = i :: seen.filter (· ∉ gone) ∧
      code₁.filter (· ∉ gone) = code' := by
  obtain ⟨seen₁, code₁, hp₁, hseen, hcode, hhead⟩ := h.path_skip hp
  rw [e] at hcode
  cases code₁ with
  | nil => cases hcode
  | cons j code₁ =>
    have hg : j ∉ gone := hhead j rfl
    rw [List.filter_cons_of_pos (by simpa using hg)] at hcode
    cases hcode
    exact ⟨seen₁, code₁, hp₁, hg, by rw [List.filter_cons_of_pos (by simpa using hg), hseen], rfl⟩

/-- Every path through what is left comes from one through the whole. -/
theorem path_of {seen' : List InstrId} {p' : Point} (hp : Path f' seen' p') :
    ∃ seen p, Path f seen p ∧ seen' = seen.filter (· ∉ gone) ∧ p' = p.without gone := by
  induction hp with
  | start =>
    refine ⟨[], ⟨[], f.order⟩, .start, rfl, ?_⟩
    rw [h.order_eq]
    rfl
  | @enter seen' b blocks hp' ih =>
    obtain ⟨seen, ⟨code, blocks₁⟩, hp, rfl, e⟩ := ih
    obtain ⟨hcode, rfl⟩ : [] = code.filter (· ∉ gone) ∧ b :: blocks = blocks₁ :=
      Point.mk.injEq .. ▸ e
    obtain ⟨seen₁, hp₁, hseen⟩ := h.path_skip_nil hp hcode.symm
    refine ⟨seen₁, ⟨f.blockInstrs b, blocks⟩, hp₁.enter, hseen.symm, ?_⟩
    rw [h.blockInstrs_eq (hp₁.blocks_subset hf (by simp))]
    rfl
  | @pass seen' code' i blocks hp' hop ih =>
    obtain ⟨seen, ⟨code, blocks₁⟩, hp, rfl, e⟩ := ih
    obtain ⟨hcode, rfl⟩ : i :: code' = code.filter (· ∉ gone) ∧ blocks = blocks₁ :=
      Point.mk.injEq .. ▸ e
    obtain ⟨seen₁, code₁, hp₁, -, hseen, hcode₁⟩ := h.path_skip_cons hp hcode.symm
    obtain ⟨b, hb, l₁, -, -, -, hl, -⟩ := hp₁.located_cons hf
    rw [h.op_eq i (WellFormed.mem_allInstrs hb (by simp [hl]))] at hop
    refine ⟨i :: seen₁, ⟨code₁, blocks⟩, hp₁.pass hop, hseen.symm, ?_⟩
    rw [← hcode₁]
    rfl
  | @jump seen' code' i blocks v' b hp' htarget hv' ih =>
    obtain ⟨seen, ⟨code, blocks₁⟩, hp, rfl, e⟩ := ih
    obtain ⟨hcode, rfl⟩ : i :: code' = code.filter (· ∉ gone) ∧ blocks = blocks₁ :=
      Point.mk.injEq .. ▸ e
    obtain ⟨seen₁, code₁, hp₁, hg, hseen, -⟩ := h.path_skip_cons hp hcode.symm
    obtain ⟨a, ha, l₁, -, -, -, hl, -⟩ := hp₁.located_cons hf
    have hi : i ∈ f.allInstrs := WellFormed.mem_allInstrs ha (by simp [hl])
    rw [h.target?_eq hi hg] at htarget
    obtain ⟨v, hv, rfl⟩ := Option.map_eq_some_iff.mp htarget
    obtain ⟨n, hn⟩ := target?_mem hv
    have hblk := (h.block_iff hf ho hi hn).mp hv'
    exact ⟨i :: seen₁, startOf f b, hp₁.jump hv hblk, hseen.symm, h.startOf_eq (hf.target v b hblk)⟩

/-- A path to the start of a block of the trimmed fragment comes from one to its start. -/
theorem dominates (hb : b ∈ f.order) (hj : j ∉ gone) (hdom : Dominates f j (startOf f b)) :
    Dominates f' j (startOf f' b) := by
  intro seen' hp'
  obtain ⟨seen, p, hp, rfl, e⟩ := h.path_of hf ho hp'
  rw [h.startOf_eq hb] at e
  have hblocks : (startOf f b).blocks = p.blocks := (Point.mk.injEq .. ▸ e :
    _ ∧ (startOf f b).blocks = p.blocks).2
  suffices hseen : j ∈ seen from List.mem_filter.mpr ⟨hseen, by simpa using hj⟩
  obtain ⟨done, rest, hsplit⟩ := List.append_of_mem hb
  have hlen : (startOf f b).blocks = rest := by rw [Meaning.startOf_eq hf.order_nodup hsplit]
  rcases hp.located hf with rfl | ⟨a, ha, l₁, seen₀, hstart, rfl, -, hp⟩
  · -- the point in front of all blocks is not behind `b`
    have hlt := congrArg List.length (hblocks.symm.trans hlen)
    rw [hsplit] at hlt
    simp at hlt
    omega
  · obtain ⟨done', rest', hsplit'⟩ := List.append_of_mem ha
    have hlen' : (startOf f a).blocks = rest' := by rw [Meaning.startOf_eq hf.order_nodup hsplit']
    obtain rfl : rest = rest' := by rw [← hlen, ← hlen', hblocks, hp]
    have hcons := (List.append_inj (hsplit.symm.trans hsplit') (by
      have e₁ := congrArg List.length hsplit
      have e₂ := congrArg List.length hsplit'
      simp at e₁ e₂
      omega)).2
    cases hcons
    simp [hdom seen₀ hstart]

theorem ordered : Ordered f' where
  reachable b hb := by
    rw [h.order_eq] at hb
    obtain ⟨seen, hp⟩ := ho.reachable b hb
    rw [h.startOf_eq hb]
    exact ⟨_, h.path hf ho hp⟩
  defined b hb l₁' i l₂' e n v' hv' hc' := by
    rw [h.order_eq] at hb
    rw [h.blockInstrs_eq hb] at e
    obtain ⟨l₁, l₃, hl, rfl, hl₃⟩ := List.filter_eq_append_iff.mp e
    obtain ⟨l₄, l₂, rfl, hl₄, hgi, -⟩ := List.filter_eq_cons_iff.mp hl₃
    have hl : f.blockInstrs b = (l₁ ++ l₄) ++ i :: l₂ := by rw [hl, List.append_assoc]
    have hi : i ∈ f.allInstrs := WellFormed.mem_allInstrs hb (by simp [hl])
    rw [h.arg_eq i hi (by simpa using hgi)] at hv'
    obtain ⟨v, hv, rfl⟩ := Option.map_eq_some_iff.mp hv'
    obtain ⟨j, hj, hg, hres, hji⟩ : ∃ j ∈ f.allInstrs, j ∉ gone ∧
        (f.instr j).result = some (ρ v) ∧ Precedes f j i := by
      rcases h.arg_cases hf ho hi hv with ⟨hc, e⟩ | ⟨-, -, ⟨c, horigin, -⟩ | hres⟩
      · rw [e, h.isConstant_eq, hc] at hc'
        cases hc'
      · rw [isConstant, Value.isConstant, horigin] at hc'
        cases hc'
      · exact hres
    -- in front of `i`, or on every path to the block
    have hmem : j ∈ l₁ ++ l₄ → j ∈ l₁.filter (· ∉ gone) := by
      intro hm
      rcases List.mem_append.mp hm with hm | hm
      · exact List.mem_filter.mpr ⟨hm, by simpa using hg⟩
      · have := hl₄ j hm
        simp [hg] at this
    refine ⟨j, by rw [h.result_eq j hj]; exact hres, fun hm => ?_, fun seen' hp' => ?_⟩
    · rw [h.blockInstrs_eq hb] at hm
      rcases hji b hb _ _ hl with hj | ⟨hj, -⟩
      · exact hmem hj
      · exact absurd (List.mem_filter.mp hm).1 hj
    · rcases hji b hb _ _ hl with hj | ⟨-, hdom⟩
      · exact .inl (hmem hj)
      · exact .inr (h.dominates hf ho hb hg hdom seen' hp')

theorem argTy?_eq (hi : i ∈ f.allInstrs) (hg : i ∉ gone) (n : Slot) :
    argTy? f' i n = argTy? f i n := by
  rw [argTy?, h.arg_eq i hi hg, argTy?]
  cases hv : (f.instr i).arg n with
  | none => rfl
  | some v => exact congrArg some (h.arg_ty hf ho hi hv)

theorem typed (ht : Typed f) : Typed f' where
  accepted i hi := by
    obtain ⟨hi, hg⟩ := h.mem_allInstrs.mp hi
    have hty : f'.ty = f.ty := funext h.values.ty_eq
    rw [h.op_eq i hi, h.result_eq i hi, hty, h.argTy?_eq hf ho hi hg, h.argTy?_eq hf ho hi hg,
      h.argTy?_eq hf ho hi hg]
    exact ht.accepted i hi
  named i hi v' hv' hblk := by
    obtain ⟨hi, hg⟩ := h.mem_allInstrs.mp hi
    rw [h.target?_eq hi hg] at hv'
    obtain ⟨v, hv, rfl⟩ := Option.map_eq_some_iff.mp hv'
    obtain ⟨n, hn⟩ := target?_mem hv
    have hc := ht.named i hi v hv ((h.arg_ty hf ho hi hn).symm.trans hblk)
    rw [h.map_constant v hc, h.isConstant_eq]
    exact hc

end
end Trims
end Recompiler.Meaning
