import Recompiler.Proofs.IR.Skeleton
import Recompiler.Proofs.IR.Scanning

/-!
Default labels. Writing a fragment fills labels that are missing and changes nothing else; the
number it takes each time is the least one that is free.
-/
namespace Recompiler.IR.Fragment

variable {f f' f'' g : Fragment} {taken taken' : Std.HashSet String} {n m k : Nat} {s : String}
  {b : BlockId} {i : InstrId}

/-! ### Numbers -/

theorem toString_inj {m n : Nat} : toString m = toString n ↔ m = n := Nat.repr_inj

/-- A number is a label. -/
theorem isLabel_toString (n : Nat) : IsLabel (toString n) := by
  have hdigits : (toString n).toList = Nat.toDigits 10 n := by
    change (Nat.repr n).toList = _
    rw [Nat.repr, String.toList_ofList]
  refine ⟨?_, fun c hc => ?_⟩
  · rw [Ne, ← String.toList_eq_nil_iff, hdigits]
    exact Nat.toDigits_ne_nil
  · rw [hdigits] at hc
    have hdigit := Nat.isDigit_of_mem_toDigits (by omega) (by omega) hc
    simp [Token.isWord, Char.isAlphanum, hdigit]

/-- The least number from `n` on whose text is free. -/
structure Least (taken : Std.HashSet String) (n k : Nat) : Prop where
  le : n ≤ k
  free : toString k ∉ taken
  taken : ∀ m, n ≤ m → m < k → toString m ∈ taken

theorem Least.unique (h : Least taken n k) (h' : Least taken n m) : k = m := by
  rcases Nat.lt_trichotomy k m with hlt | heq | hgt
  · exact absurd (h'.taken k h.le hlt) h.free
  · exact heq
  · exact absurd (h.taken m h'.le hgt) h'.free

/-- Not every one of more numbers than there are labels is taken. -/
theorem exists_free (taken : Std.HashSet String) (n : Nat) :
    ∃ m, n ≤ m ∧ m ≤ n + taken.size ∧ toString m ∉ taken := by
  by_contra hall
  push Not at hall
  let numbers := (List.range (taken.size + 1)).map fun m => toString (n + m)
  have hnodup : numbers.Nodup := by
    refine List.nodup_range.map fun a b e => ?_
    have := toString_inj.mp e
    omega
  have hsub : numbers ⊆ taken.toList := by
    intro s hs
    obtain ⟨m, hm, rfl⟩ := List.mem_map.mp hs
    have hm := List.mem_range.mp hm
    exact Std.HashSet.mem_toList.mpr (hall (n + m) (by omega) (by omega))
  have hlen := hnodup.length_le_of_subset hsub
  rw [Std.HashSet.length_toList] at hlen
  simp [numbers] at hlen

theorem freshFrom_cases (taken : Std.HashSet String) (fuel n : Nat) :
    n ≤ freshFrom taken fuel n ∧ freshFrom taken fuel n ≤ n + fuel ∧
      (∀ m, n ≤ m → m < freshFrom taken fuel n → toString m ∈ taken) ∧
      (toString (freshFrom taken fuel n) ∉ taken ∨ freshFrom taken fuel n = n + fuel) := by
  induction fuel generalizing n with
  | zero =>
    exact ⟨Nat.le_refl _, Nat.le_refl _, fun m h h' =>
      absurd h (by simp [freshFrom] at h'; omega), .inr rfl⟩
  | succ fuel ih =>
    rw [freshFrom]
    split
    · next ht =>
      obtain ⟨hle, hle', htaken, hend⟩ := ih (n + 1)
      refine ⟨by omega, by omega, fun m hm hlt => ?_, ?_⟩
      · rcases Nat.eq_or_lt_of_le hm with rfl | hm
        · exact Std.HashSet.mem_iff_contains.mpr ht
        · exact htaken m hm hlt
      · rcases hend with hfree | hend
        · exact .inl hfree
        · exact .inr (by omega)
    · next ht =>
      refine ⟨Nat.le_refl _, by omega, fun m h h' => absurd h (by omega), .inl ?_⟩
      rw [Std.HashSet.mem_iff_contains]
      exact ht

theorem least_freshFrom (taken : Std.HashSet String) (n : Nat) :
    Least taken n (freshFrom taken taken.size n) := by
  obtain ⟨hle, hle', htaken, hend⟩ := freshFrom_cases taken taken.size n
  refine ⟨hle, ?_, htaken⟩
  rcases hend with hfree | hend
  · exact hfree
  · obtain ⟨m, hm, hm', hfree⟩ := exists_free taken n
    rcases Nat.eq_or_lt_of_le hm' with rfl | hlt
    · rw [hend]
      exact hfree
    · exact absurd (htaken m hm (by omega)) hfree

/-! ### Labels in use -/

theorem mem_insertMany_label {set : Std.HashSet String} {label : Option String} :
    s ∈ set.insertMany label.toList ↔ s ∈ set ∨ label = some s := by
  rw [Std.HashSet.mem_insertMany_list]
  cases label <;> simp [eq_comm]

theorem mem_labels_foldl {is : List InstrId} {set : Std.HashSet String} :
    s ∈ is.foldl (fun s i => s.insertMany (f.instr i).label.toList) set ↔
      s ∈ set ∨ ∃ i ∈ is, (f.instr i).label = some s := by
  induction is generalizing set with
  | nil => simp
  | cons i is ih =>
    rw [List.foldl_cons, ih, mem_insertMany_label]
    simp [or_assoc]

/-- The labels of a fragment are those of its blocks and its instructions. -/
theorem mem_labels : s ∈ f.labels ↔
    (∃ b ∈ f.order, (f.block b).label = some s) ∨
      ∃ i ∈ f.allInstrs, (f.instr i).label = some s := by
  have hfold : ∀ (bs : List BlockId) (set : Std.HashSet String),
      s ∈ bs.foldl (fun s b =>
        let s := s.insertMany (f.block b).label.toList
        (f.blockInstrs b).foldl (fun s i => s.insertMany (f.instr i).label.toList) s) set ↔
      s ∈ set ∨ (∃ b ∈ bs, (f.block b).label = some s) ∨
        ∃ i ∈ bs.flatMap f.blockInstrs, (f.instr i).label = some s := by
    intro bs
    induction bs with
    | nil => simp
    | cons b bs ih =>
      intro set
      rw [List.foldl_cons, ih, mem_labels_foldl, mem_insertMany_label]
      simp only [List.mem_cons, exists_eq_left, List.flatMap_cons, List.mem_append, or_and_right,
        exists_or]
      exact iff_of_eq (by ac_rfl)
  rw [labels, hfold]
  simp [allInstrs]

/-! ### Filling labels -/

/-- The fragment `f'` is `f` with labels where there were none. -/
structure Relabels (f f' : Fragment) : Prop where
  values_eq : f'.values = f.values
  order_eq : f'.order = f.order
  locals_eq : f'.locals = f.locals
  localsSize_eq : f'.localsSize = f.localsSize
  point_eq : f'.point = f.point
  size_instrs : f'.instrs.size = f.instrs.size
  size_blocks : f'.blocks.size = f.blocks.size
  instr_eq : ∀ i, f'.instr i = { f.instr i with label := (f.instr i).label.or (f'.instr i).label }
  block_eq : ∀ b, f'.block b = { f.block b with label := (f.block b).label.or (f'.block b).label }

namespace Relabels

theorem refl (f : Fragment) : Relabels f f :=
  ⟨rfl, rfl, rfl, rfl, rfl, rfl, rfl, fun _ => by simp, fun _ => by simp⟩

theorem trans (h : Relabels f f') (h' : Relabels f' f'') : Relabels f f'' where
  values_eq := h'.values_eq.trans h.values_eq
  order_eq := h'.order_eq.trans h.order_eq
  locals_eq := h'.locals_eq.trans h.locals_eq
  localsSize_eq := h'.localsSize_eq.trans h.localsSize_eq
  point_eq := h'.point_eq.trans h.point_eq
  size_instrs := h'.size_instrs.trans h.size_instrs
  size_blocks := h'.size_blocks.trans h.size_blocks
  instr_eq i := by
    rw [h'.instr_eq i, h.instr_eq i]
    cases (f.instr i).label <;> simp
  block_eq b := by
    rw [h'.block_eq b, h.block_eq b]
    cases (f.block b).label <;> simp

theorem sameLinks (h : Relabels f f') : SameLinks f f' where
  size_blocks := h.size_blocks
  head_eq b := by rw [h.block_eq]
  tail_eq b := by rw [h.block_eq]
  order_eq := h.order_eq
  size_instrs := h.size_instrs
  prev_eq i := by rw [h.instr_eq]
  next_eq i := by rw [h.instr_eq]
  block_eq i := by rw [h.instr_eq]
  removed_eq i := by rw [h.instr_eq]
  point_eq := h.point_eq

theorem value_eq (h : Relabels f f') (v : ValueId) : f'.value v = f.value v := by
  rw [value, h.values_eq, value]

theorem consistent (h : Relabels f f') (hf : f.Consistent) : f'.Consistent := by
  have hresult : ∀ i, (f'.instr i).result = (f.instr i).result := fun i => by rw [h.instr_eq]
  refine ⟨fun v c hc => ?_, fun i v hv => ?_, fun i v hv => ?_⟩
  · rw [h.value_eq] at hc
    rw [ty, h.value_eq]
    exact hf.constant_ty v c hc
  · rw [hresult] at hv
    rw [h.values_eq]
    exact hf.result_lt i v hv
  · rw [hresult] at hv
    rw [h.value_eq]
    exact hf.result_origin i v hv

end Relabels

/-- A label that is missing is filled. -/
theorem relabels_setInstrLabel (hi : (f.instr i).label = none) (name : String) :
    Relabels f (f.setInstrLabel i name) := by
  refine ⟨rfl, rfl, rfl, rfl, rfl, size_instrs_modifyInstr f i _, rfl, fun j => ?_, fun _ => by
    rw [setInstrLabel, block_modifyInstr, Option.or_self]⟩
  rw [setInstrLabel, instr_modifyInstr]
  split
  · next h =>
    rw [h.1, hi]
    rfl
  · rw [Option.or_self]

theorem relabels_setBlockLabel (hb : (f.block b).label = none) (name : String) :
    Relabels f (f.setBlockLabel b name) := by
  refine ⟨rfl, rfl, rfl, rfl, rfl, rfl, size_blocks_modifyBlock f b _, fun _ => by
    rw [setBlockLabel, instr_modifyBlock, Option.or_self], fun c => ?_⟩
  rw [setBlockLabel, block_modifyBlock]
  split
  · next h =>
    rw [h.1, hb]
    rfl
  · rw [Option.or_self]

theorem relabels_labelInstr (taken : Std.HashSet String) (p : Fragment × Nat) (i : InstrId) :
    Relabels p.1 (labelInstr taken p i).1 := by
  unfold labelInstr
  split
  · exact .refl _
  · next h => exact relabels_setInstrLabel h _

theorem relabels_foldl_labelInstr (taken : Std.HashSet String) (is : List InstrId)
    (p : Fragment × Nat) : Relabels p.1 (is.foldl (labelInstr taken) p).1 := by
  induction is generalizing p with
  | nil => exact .refl _
  | cons i is ih => exact (relabels_labelInstr taken p i).trans (ih _)

/-- The number taken for a block, if it needs one. -/
def labelHeading (taken : Std.HashSet String) (p : Fragment × Nat) (b : BlockId) : Fragment × Nat :=
  match (p.1.block b).label with
  | some _ => p
  | none =>
    let n := freshFrom taken taken.size p.2
    (p.1.setBlockLabel b (toString n), n + 1)

theorem labelBlock_eq (taken : Std.HashSet String) (p : Fragment × Nat) (b : BlockId) :
    labelBlock taken p b = ((labelHeading taken p b).1.blockInstrs b).foldl (labelInstr taken)
      (labelHeading taken p b) := rfl

theorem relabels_labelHeading (taken : Std.HashSet String) (p : Fragment × Nat) (b : BlockId) :
    Relabels p.1 (labelHeading taken p b).1 := by
  unfold labelHeading
  split
  · exact .refl _
  · next h => exact relabels_setBlockLabel h _

theorem relabels_labelBlock (taken : Std.HashSet String) (p : Fragment × Nat) (b : BlockId) :
    Relabels p.1 (labelBlock taken p b).1 := by
  rw [labelBlock_eq]
  exact (relabels_labelHeading taken p b).trans (relabels_foldl_labelInstr taken _ _)

theorem relabels_foldl_labelBlock (taken : Std.HashSet String) (bs : List BlockId)
    (p : Fragment × Nat) : Relabels p.1 (bs.foldl (labelBlock taken) p).1 := by
  induction bs generalizing p with
  | nil => exact .refl _
  | cons b bs ih => exact (relabels_labelBlock taken p b).trans (ih _)

theorem relabels_assignLabels (f : Fragment) : Relabels f f.assignLabels :=
  relabels_foldl_labelBlock f.labels f.order (f, 0)

/-! ### Fragments whose text needs no new labels -/

theorem not_isLabel_default : ¬ IsLabel "?" := by
  intro h
  exact absurd (h.2 '?' (by decide)) (by decide)

/-- A label that can be written was there. -/
theorem or_getD {label label' : Option String} (h : IsLabel (label.getD "?")) :
    (label.or label').getD "?" = label.getD "?" := by
  cases label with
  | none => exact absurd h not_isLabel_default
  | some s => rfl

theorem Relabels.operand_eq (h : Relabels f f') {v : ValueId} (hv : (f.operand v).Lexical) :
    f'.operand v = f.operand v := by
  unfold operand ty at hv ⊢
  rw [h.value_eq]
  split
  · next b ho =>
    rw [ho] at hv
    rw [h.block_eq]
    exact congrArg _ (or_getD hv)
  · rfl
  · next i ho =>
    rw [ho] at hv
    rw [h.instr_eq]
    exact congrArg _ (or_getD hv)

theorem Relabels.line_eq (h : Relabels f f') {i : InstrId} (hi : (f.line i).Lexical) :
    f'.line i = f.line i := by
  have hinstr : (f'.instr i).op = (f.instr i).op ∧ (f'.instr i).result = (f.instr i).result ∧
      (f'.instr i).operands = (f.instr i).operands := by
    rw [h.instr_eq]
    exact ⟨rfl, rfl, rfl⟩
  have hresult : f'.resultLabel i = f.resultLabel i := by
    have hlab := hi.result
    unfold line resultLabel at hlab
    unfold resultLabel
    rw [hinstr.2.1]
    cases hr : (f.instr i).result with
    | none => rfl
    | some v =>
      rw [hr] at hlab
      rw [Option.map_some, Option.map_some, ty, h.value_eq, h.instr_eq]
      exact congrArg (fun s => some (f.ty v, s)) (or_getD (hlab _ rfl))
  unfold line
  rw [hresult, hinstr.1, hinstr.2.2]
  refine congrArg (Line.mk _ _) (List.map_congr_left fun p hp => ?_)
  exact h.operand_eq (hi.args _ (List.mem_map_of_mem hp))

/-- What can be written as it is, is written the same with more labels. -/
theorem Relabels.listing_eq (h : Relabels f f') (hf : ∀ p ∈ f.listing, p.Lexical) :
    f'.listing = f.listing := by
  unfold listing
  rw [h.order_eq]
  refine List.map_congr_left fun b hb => ?_
  have hp := hf (f.paragraph b) (List.mem_map_of_mem hb)
  unfold paragraph
  rw [h.sameLinks.blockInstrs_eq, h.block_eq]
  refine congrArg₂ Paragraph.mk (or_getD hp.name) (List.map_congr_left fun i hi => ?_)
  exact h.line_eq (hp.lines _ (List.mem_map_of_mem hi))

theorem Relabels.blocks_eq (h : Relabels f f') (hlinked : Linked f)
    (hf : ∀ p ∈ f.listing, p.Lexical) : f'.blocks = f.blocks := by
  refine Array.ext h.size_blocks fun k hk hk' => ?_
  have hb : (⟨k⟩ : BlockId) ∈ f.order :=
    hlinked.order_perm.mem_iff.mpr (List.mem_map_of_mem (List.mem_range.mpr hk'))
  have hp := (hf (f.paragraph ⟨k⟩) (List.mem_map_of_mem hb)).name
  have hblock : f'.block ⟨k⟩ = f.block ⟨k⟩ := by
    rw [h.block_eq]
    cases hl : (f.block ⟨k⟩).label with
    | none =>
      rw [paragraph, hl] at hp
      exact absurd hp not_isLabel_default
    | some s => rw [Option.some_or, ← hl]
  rw [block, block, Array.getD_eq_getD_getElem?, Array.getD_eq_getD_getElem?,
    Array.getElem?_eq_getElem hk, Array.getElem?_eq_getElem hk'] at hblock
  exact hblock

/-! ### A first block without a label -/

/-- Two ways to number the rest: with the number `k` given away, or with its text in use. -/
structure SameNumbers (taken taken' : Std.HashSet String) (k : Nat)
    (p p' : Fragment × Nat) : Prop where
  fragment_eq : p.1 = p'.1
  number : p.2 = p'.2 ∧ k < p.2 ∨ p.2 = k + 1 ∧ p'.2 = 0

theorem SameNumbers.freshFrom_eq {p p' : Fragment × Nat} (hk : Least taken 0 k)
    (htaken : ∀ s, s ∈ taken' ↔ s ∈ taken ∨ s = toString k) (h : SameNumbers taken taken' k p p') :
    freshFrom taken taken.size p.2 = freshFrom taken' taken'.size p'.2 ∧
      k < freshFrom taken taken.size p.2 := by
  have hl := least_freshFrom taken p.2
  have hlt : k < p.2 := by
    rcases h.number with ⟨-, hlt⟩ | ⟨he, -⟩
    · exact hlt
    · omega
  have hbehind : k < freshFrom taken taken.size p.2 := Nat.lt_of_lt_of_le hlt hl.le
  have hleast : Least taken' p'.2 (freshFrom taken taken.size p.2) := by
    refine ⟨?_, ?_, fun m hm hm' => ?_⟩
    · rcases h.number with ⟨he, -⟩ | ⟨-, he⟩
      · rw [← he]
        exact hl.le
      · rw [he]
        exact Nat.zero_le _
    · rw [htaken]
      rintro (ht | ht)
      · exact hl.free ht
      · exact absurd (toString_inj.mp ht) (by omega)
    · rw [htaken]
      rcases Nat.lt_trichotomy m k with hmk | rfl | hmk
      · exact .inl (hk.taken m (Nat.zero_le m) hmk)
      · exact .inr rfl
      · refine .inl (hl.taken m ?_ hm')
        rcases h.number with ⟨he, -⟩ | ⟨he, -⟩ <;> omega
  exact ⟨hleast.unique (least_freshFrom taken' p'.2), hbehind⟩

theorem SameNumbers.labelInstr {p p' : Fragment × Nat} (hk : Least taken 0 k)
    (htaken : ∀ s, s ∈ taken' ↔ s ∈ taken ∨ s = toString k) (h : SameNumbers taken taken' k p p')
    (i : InstrId) : SameNumbers taken taken' k (labelInstr taken p i) (labelInstr taken' p' i) := by
  obtain ⟨hfresh, hlt⟩ := h.freshFrom_eq hk htaken
  unfold Fragment.labelInstr
  rw [← h.fragment_eq]
  split
  · exact h
  · refine ⟨by dsimp only; rw [hfresh], .inl ⟨by dsimp only; rw [hfresh], ?_⟩⟩
    dsimp only
    omega

theorem SameNumbers.labelHeading {p p' : Fragment × Nat} (hk : Least taken 0 k)
    (htaken : ∀ s, s ∈ taken' ↔ s ∈ taken ∨ s = toString k) (h : SameNumbers taken taken' k p p')
    (b : BlockId) :
    SameNumbers taken taken' k (labelHeading taken p b) (labelHeading taken' p' b) := by
  obtain ⟨hfresh, hlt⟩ := h.freshFrom_eq hk htaken
  unfold Fragment.labelHeading
  rw [← h.fragment_eq]
  split
  · exact h
  · refine ⟨by dsimp only; rw [hfresh], .inl ⟨by dsimp only; rw [hfresh], ?_⟩⟩
    dsimp only
    omega

theorem SameNumbers.foldl_labelInstr {p p' : Fragment × Nat} (hk : Least taken 0 k)
    (htaken : ∀ s, s ∈ taken' ↔ s ∈ taken ∨ s = toString k) (h : SameNumbers taken taken' k p p')
    (is : List InstrId) :
    SameNumbers taken taken' k (is.foldl (Fragment.labelInstr taken) p)
      (is.foldl (Fragment.labelInstr taken') p') := by
  induction is generalizing p p' with
  | nil => exact h
  | cons i is ih => exact ih (h.labelInstr hk htaken i)

theorem SameNumbers.labelBlock {p p' : Fragment × Nat} (hk : Least taken 0 k)
    (htaken : ∀ s, s ∈ taken' ↔ s ∈ taken ∨ s = toString k) (h : SameNumbers taken taken' k p p')
    (b : BlockId) : SameNumbers taken taken' k (labelBlock taken p b) (labelBlock taken' p' b) := by
  have hhead := h.labelHeading hk htaken b
  rw [labelBlock_eq, labelBlock_eq, hhead.fragment_eq]
  exact hhead.foldl_labelInstr hk htaken _

/-- The label that writing gives to a first block which has none can as well be there before. -/
theorem assignLabels_setBlockLabel {bs : List BlockId} (horder : f.order = b :: bs)
    (hlt : b.index < f.blocks.size) (hb : (f.block b).label = none)
    (hk : Least f.labels 0 k) :
    (f.setBlockLabel b (toString k)).assignLabels = f.assignLabels := by
  let g := f.setBlockLabel b (toString k)
  have hrel := relabels_setBlockLabel (f := f) hb (toString k)
  have hblock :
    ∀ c, (g.block c).label = if c = b then some (toString k) else (f.block c).label := by
    intro c
    change ((f.setBlockLabel b (toString k)).block c).label = _
    rw [setBlockLabel, block_modifyBlock]
    by_cases hc : c = b
    · rw [if_pos ⟨hc, hc ▸ hlt⟩, if_pos hc]
    · rw [if_neg fun e => hc e.1, if_neg hc]
  have hall : g.allInstrs = f.allInstrs := by
    unfold allInstrs
    rw [show g.order = f.order from rfl]
    exact congrArg (f.order.flatMap ·) (funext hrel.sameLinks.blockInstrs_eq)
  have htaken : ∀ s, s ∈ g.labels ↔ s ∈ f.labels ∨ s = toString k := by
    intro s
    rw [mem_labels, mem_labels, hall]
    have hblocks : (∃ c ∈ g.order, (g.block c).label = some s) ↔
        (∃ c ∈ f.order, (f.block c).label = some s) ∨ s = toString k := by
      rw [show g.order = f.order from rfl]
      constructor
      · rintro ⟨c, hc, hs⟩
        rw [hblock] at hs
        split at hs
        · exact .inr (Option.some.inj hs).symm
        · exact .inl ⟨c, hc, hs⟩
      · rintro (⟨c, hc, hs⟩ | rfl)
        · refine ⟨c, hc, ?_⟩
          rw [hblock, if_neg]
          · exact hs
          · rintro rfl
            rw [hb] at hs
            cases hs
        · exact ⟨b, by rw [horder]; simp, by rw [hblock, if_pos rfl]⟩
    rw [hblocks]
    have hinstr : ∀ i, (g.instr i).label = (f.instr i).label := fun _ => rfl
    simp only [hinstr]
    exact iff_of_eq (by ac_rfl)
  have hstart : SameNumbers f.labels g.labels k (labelHeading f.labels (f, 0) b)
      (labelHeading g.labels (g, 0) b) := by
    have hfresh : freshFrom f.labels f.labels.size 0 = k := (least_freshFrom _ 0).unique hk
    unfold labelHeading
    rw [hb, hblock, if_pos rfl]
    dsimp only
    rw [hfresh]
    exact ⟨rfl, .inr ⟨rfl, rfl⟩⟩
  have hfirst : SameNumbers f.labels g.labels k (labelBlock f.labels (f, 0) b)
      (labelBlock g.labels (g, 0) b) := by
    rw [labelBlock_eq, labelBlock_eq, hstart.fragment_eq]
    exact hstart.foldl_labelInstr hk htaken _
  have hrest : ∀ (bs : List BlockId) {p p' : Fragment × Nat},
      SameNumbers f.labels g.labels k p p' →
      SameNumbers f.labels g.labels k (bs.foldl (labelBlock f.labels) p)
        (bs.foldl (labelBlock g.labels) p') := by
    intro bs
    induction bs with
    | nil => exact fun h => h
    | cons c bs ih => exact fun h => ih (h.labelBlock hk htaken c)
  unfold assignLabels
  rw [show (f.setBlockLabel b (toString k)).order = f.order from rfl, horder]
  exact (hrest bs hfirst).fragment_eq.symm

end Recompiler.IR.Fragment
