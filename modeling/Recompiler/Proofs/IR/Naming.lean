import Recompiler.Proofs.IR.Labelling
import Recompiler.Proofs.IR.WellFormed

/-!
Labels that tell apart. A block or an instruction that is written has a label then, and the labels
that writing gives are new, so no two of them are the same.
-/
namespace Recompiler.IR.Fragment

variable {f f' : Fragment} {taken : Std.HashSet String} {n k : Nat} {p : Fragment × Nat}
  {b : BlockId} {i : InstrId} {x : BlockId ⊕ InstrId}

/-- The label of a block or an instruction. -/
def label? (f : Fragment) : BlockId ⊕ InstrId → Option String
  | .inl b => (f.block b).label
  | .inr i => (f.instr i).label

/-- The block or the instruction is written. -/
def Written (f : Fragment) : BlockId ⊕ InstrId → Prop
  | .inl b => b ∈ f.order
  | .inr i => i ∈ f.allInstrs

/-- No label is given twice. -/
def LabelsDiffer (f : Fragment) : Prop :=
  ∀ x y s, f.Written x → f.Written y → f.label? x = some s → f.label? y = some s → x = y

theorem SameLinks.written_iff (h : SameLinks f f') : f'.Written x ↔ f.Written x := by
  cases x with
  | inl b => rw [Written, Written, h.order_eq]
  | inr i => rw [Written, Written, allInstrs, allInstrs, h.order_eq, funext h.blockInstrs_eq]

theorem Relabels.label?_eq (h : Relabels f f') (x : BlockId ⊕ InstrId) :
    f'.label? x = (f.label? x).or (f'.label? x) := by
  cases x with
  | inl b => exact congrArg Block.label (h.block_eq b)
  | inr i => exact congrArg Instr.label (h.instr_eq i)

theorem Relabels.label?_isSome (h : Relabels f f') (hx : (f.label? x).isSome) :
    (f'.label? x).isSome := by
  rw [h.label?_eq x, Option.isSome_or, hx, Bool.true_or]

/-! ### Numbers that are new -/

/-- Labels differ, and each of them is in use or a number below the next one. -/
structure Numbered (taken : Std.HashSet String) (p : Fragment × Nat) : Prop where
  differ : p.1.LabelsDiffer
  known : ∀ x s, p.1.Written x → p.1.label? x = some s → s ∈ taken ∨ ∃ m < p.2, s = toString m

/-- A label that is filled with the next free number is new. -/
theorem Numbered.label (h : Numbered taken (f, n)) (hk : Least taken n k) (hlinks : SameLinks f f')
    (hlabel : ∀ y, f'.label? y = f.label? y ∨ y = x ∧ f'.label? y = some (toString k)) :
    Numbered taken (f', k + 1) := by
  have hle := hk.le
  have hnew : ∀ y, f.Written y → f.label? y ≠ some (toString k) := by
    intro y hy he
    obtain ht | ⟨m, hm, he⟩ := h.known y _ hy he
    · exact hk.free ht
    · obtain rfl := toString_inj.mp he
      exact absurd hm (Nat.not_lt.mpr hle)
  refine ⟨fun y z s hy hz hys hzs => ?_, fun y s hy hys => ?_⟩
  · rw [hlinks.written_iff] at hy hz
    obtain hy' | ⟨rfl, hy'⟩ := hlabel y <;> obtain hz' | ⟨rfl, hz'⟩ := hlabel z
    · exact h.differ y z s hy hz (hy' ▸ hys) (hz' ▸ hzs)
    · rw [hy'] at hys
      exact absurd (hys.trans (hzs.symm.trans hz')) (hnew y hy)
    · rw [hz'] at hzs
      exact absurd (hzs.trans (hys.symm.trans hy')) (hnew z hz)
    · rfl
  · rw [hlinks.written_iff] at hy
    obtain hy' | ⟨-, hy'⟩ := hlabel y
    · obtain ht | ⟨m, hm, rfl⟩ := h.known y s hy (hy' ▸ hys)
      · exact .inl ht
      · exact .inr ⟨m, Nat.lt_succ_of_lt (Nat.lt_of_lt_of_le hm hle), rfl⟩
    · exact .inr ⟨k, Nat.lt_succ_self k, Option.some.inj (hys.symm.trans hy')⟩

theorem Numbered.labelInstr (h : Numbered taken p) (i : InstrId) :
    Numbered taken (labelInstr taken p i) := by
  unfold Fragment.labelInstr
  split
  · exact h
  · refine h.label (x := .inr i) (least_freshFrom taken p.2)
      (sameLinks_setInstrLabel p.1 i _) fun y => ?_
    cases y with
    | inl b => exact .inl rfl
    | inr j =>
      rw [label?, label?, setInstrLabel, instr_modifyInstr]
      split
      · next hj => exact .inr ⟨congrArg Sum.inr hj.1, rfl⟩
      · exact .inl rfl

theorem Numbered.labelHeading (h : Numbered taken p) (b : BlockId) :
    Numbered taken (labelHeading taken p b) := by
  unfold Fragment.labelHeading
  split
  · exact h
  · next hb =>
    refine h.label (x := .inl b) (least_freshFrom taken p.2)
      (relabels_setBlockLabel hb _).sameLinks fun y => ?_
    cases y with
    | inl c =>
      rw [label?, label?, setBlockLabel, block_modifyBlock]
      split
      · next hc => exact .inr ⟨congrArg Sum.inl hc.1, rfl⟩
      · exact .inl rfl
    | inr j => exact .inl rfl

theorem Numbered.foldl_labelInstr (h : Numbered taken p) (is : List InstrId) :
    Numbered taken (is.foldl (Fragment.labelInstr taken) p) := by
  induction is generalizing p with
  | nil => exact h
  | cons i is ih => exact ih (h.labelInstr i)

theorem Numbered.foldl_labelBlock (h : Numbered taken p) (bs : List BlockId) :
    Numbered taken (bs.foldl (labelBlock taken) p) := by
  induction bs generalizing p with
  | nil => exact h
  | cons b bs ih =>
    refine ih ?_
    rw [labelBlock_eq]
    exact (h.labelHeading b).foldl_labelInstr _

theorem numbered_start (h : f.LabelsDiffer) : Numbered f.labels (f, 0) := by
  refine ⟨h, fun x s hx hs => .inl ?_⟩
  rw [mem_labels]
  cases x with
  | inl b => exact .inl ⟨b, hx, hs⟩
  | inr i => exact .inr ⟨i, hx, hs⟩

/-- Labels that differ still differ when the missing ones have been filled. -/
theorem labelsDiffer_assignLabels (h : f.LabelsDiffer) : f.assignLabels.LabelsDiffer :=
  ((numbered_start h).foldl_labelBlock f.order).differ

/-- What is filled in is a label. -/
theorem isLabel_assignLabels (h : f.LabelsDiffer)
    (hlabels : ∀ x s, f.Written x → f.label? x = some s → IsLabel s) {s : String}
    (hx : f.Written x) (hs : f.assignLabels.label? x = some s) : IsLabel s := by
  have hnumbered := (numbered_start h).foldl_labelBlock f.order
  obtain hin | ⟨m, -, rfl⟩ :=
    hnumbered.known x s ((relabels_assignLabels f).sameLinks.written_iff.mpr hx) hs
  · obtain ⟨b, hb, hs⟩ | ⟨i, hi, hs⟩ := mem_labels.mp hin
    · exact hlabels (.inl b) s hb hs
    · exact hlabels (.inr i) s hi hs
  · exact isLabel_toString m

/-! ### No label is missing -/

theorem labelled_labelInstr (hi : i.index < p.1.instrs.size) :
    ((labelInstr taken p i).1.label? (.inr i)).isSome := by
  unfold labelInstr
  split
  · next hs => exact Option.isSome_iff_exists.mpr ⟨_, hs⟩
  · change ((p.1.setInstrLabel i _).instr i).label.isSome
    rw [setInstrLabel, instr_modifyInstr, if_pos ⟨rfl, hi⟩]
    rfl

theorem labelled_foldl_labelInstr {is : List InstrId}
    (hlt : ∀ i ∈ is, i.index < p.1.instrs.size) (hi : i ∈ is) :
    ((is.foldl (labelInstr taken) p).1.label? (.inr i)).isSome := by
  induction is generalizing p with
  | nil => cases hi
  | cons j is ih =>
    have hrel := relabels_labelInstr taken p j
    obtain rfl | hi := List.mem_cons.mp hi
    · exact (relabels_foldl_labelInstr taken is _).label?_isSome
        (labelled_labelInstr (hlt i (by simp)))
    · refine ih (fun k hk => ?_) hi
      rw [hrel.size_instrs]
      exact hlt k (by simp [hk])

theorem labelled_labelBlock (taken : Std.HashSet String) (hb : b.index < p.1.blocks.size)
    (hlt : ∀ i ∈ p.1.blockInstrs b, i.index < p.1.instrs.size) :
    ((labelBlock taken p b).1.label? (.inl b)).isSome ∧
      ∀ i ∈ p.1.blockInstrs b, ((labelBlock taken p b).1.label? (.inr i)).isSome := by
  have hrel := relabels_labelHeading taken p b
  rw [labelBlock_eq]
  refine ⟨(relabels_foldl_labelInstr taken _ _).label?_isSome ?_, fun i hi => ?_⟩
  · unfold labelHeading
    split
    · next hs => exact Option.isSome_iff_exists.mpr ⟨_, hs⟩
    · change ((p.1.setBlockLabel b _).block b).label.isSome
      rw [setBlockLabel, block_modifyBlock, if_pos ⟨rfl, hb⟩]
      rfl
  · rw [hrel.sameLinks.blockInstrs_eq]
    refine labelled_foldl_labelInstr (fun j hj => ?_) hi
    rw [hrel.size_instrs]
    exact hlt j hj

/-- Everything that is written has a label then. -/
theorem labelled_assignLabels (hf : WellFormed f) (hx : f.Written x) :
    (f.assignLabels.label? x).isSome := by
  have hfold : ∀ (bs : List BlockId) (p : Fragment × Nat), Relabels f p.1 →
      (∀ b ∈ bs, b ∈ f.order) → ∀ b ∈ bs,
      ((bs.foldl (labelBlock f.labels) p).1.label? (.inl b)).isSome ∧
        ∀ i ∈ f.blockInstrs b, ((bs.foldl (labelBlock f.labels) p).1.label? (.inr i)).isSome := by
    intro bs
    induction bs with
    | nil => simp
    | cons c bs ih =>
      intro p hrel hbs b hb
      have hnext := relabels_labelBlock f.labels p c
      have hrest : Relabels (labelBlock f.labels p c).1
          (bs.foldl (labelBlock f.labels) (labelBlock f.labels p c)).1 :=
        relabels_foldl_labelBlock f.labels bs _
      obtain rfl | hb := List.mem_cons.mp hb
      · have hchain := hf.chain b (hbs b (by simp))
        have hblock : b.index < p.1.blocks.size := by
          rw [hrel.size_blocks]
          exact hchain.block_lt
        have hinstrs : ∀ i ∈ p.1.blockInstrs b, i.index < p.1.instrs.size := by
          rw [hrel.sameLinks.blockInstrs_eq, hrel.size_instrs]
          exact hchain.lt
        obtain ⟨hheading, hcode⟩ := labelled_labelBlock f.labels hblock hinstrs
        rw [hrel.sameLinks.blockInstrs_eq] at hcode
        exact ⟨hrest.label?_isSome hheading, fun i hi => hrest.label?_isSome (hcode i hi)⟩
      · exact ih _ (hrel.trans hnext) (fun d hd => hbs d (by simp [hd])) b hb
  have hall := hfold f.order (f, 0) (.refl f) fun b hb => hb
  cases x with
  | inl b => exact (hall b hx).1
  | inr i =>
    obtain ⟨b, hb, hi⟩ := List.mem_flatMap.mp hx
    exact (hall b hb).2 i hi

end Recompiler.IR.Fragment
