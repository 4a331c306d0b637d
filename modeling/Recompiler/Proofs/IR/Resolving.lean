import Recompiler.Proofs.IR.Drafting

/-!
Resolving the references of a draft. What stands for a reference has its label and its type, so the
fragment reads as the draft did.
-/
namespace Recompiler.IR.Parser

open Fragment

variable {f f' : Fragment} {name : String} {b : BlockId} {v : ValueId} {r : Reference}

/-! ### Names -/

/-- A table that later entries overwrite holds the last entry for a name. -/
theorem getElem?_foldl {α β : Type} {step : Std.HashMap String β → α → Std.HashMap String β}
    (pick : α → Option β) (hstep : ∀ m a, (step m a)[name]? = (pick a).or m[name]?)
    (l : List α) (m : Std.HashMap String β) :
    (l.foldl step m)[name]? = (l.reverse.findSome? pick).or m[name]? := by
  induction l generalizing m with
  | nil => simp
  | cons a l ih =>
    rw [List.foldl_cons, ih, hstep, List.reverse_cons, List.findSome?_append, Option.or_assoc]
    simp

/-- The block that a label names. -/
theorem getElem?_blockNames (f : Fragment) (name : String) : (blockNames f)[name]? =
    f.order.reverse.findSome? fun b => if (f.block b).label = some name then some b else none := by
  unfold blockNames
  rw [getElem?_foldl fun b => if (f.block b).label = some name then some b else none]
  · simp
  · intro m b
    cases hl : (f.block b).label with
    | none => simp
    | some l =>
      rw [Std.HashMap.getElem?_insert]
      by_cases h : l = name <;> simp [h]

/-- The value that a label names. -/
theorem getElem?_resultNames (f : Fragment) (name : String) : (resultNames f)[name]? =
    f.allInstrs.reverse.findSome? fun i =>
      if (f.instr i).label = some name then (f.instr i).result else none := by
  unfold resultNames
  rw [getElem?_foldl fun i =>
    if (f.instr i).label = some name then (f.instr i).result else none]
  · simp
  · intro m i
    cases hl : (f.instr i).label with
    | none => simp
    | some l =>
      cases hr : (f.instr i).result with
      | none => simp
      | some v =>
        dsimp only
        rw [Std.HashMap.getElem?_insert]
        by_cases h : l = name <;> simp [h]

theorem label_of_blockNames (h : (blockNames f)[name]? = some b) :
    b ∈ f.order ∧ (f.block b).label = some name := by
  rw [getElem?_blockNames] at h
  obtain ⟨c, hc, h⟩ := List.exists_of_findSome?_eq_some h
  split at h
  · next hl =>
    cases h
    exact ⟨List.mem_reverse.mp hc, hl⟩
  · cases h

theorem label_of_resultNames (h : (resultNames f)[name]? = some v) :
    ∃ i ∈ f.allInstrs, (f.instr i).label = some name ∧ (f.instr i).result = some v := by
  rw [getElem?_resultNames] at h
  obtain ⟨i, hi, h⟩ := List.exists_of_findSome?_eq_some h
  split at h
  · next hl => exact ⟨i, List.mem_reverse.mp hi, hl, h⟩
  · cases h

/-! ### One reference -/

/-- The fragment `f'` is `f` with a value that is written as `o` in the position of the
reference. -/
structure Fills (f f' : Fragment) (r : Reference) (v : ValueId) : Prop where
  skeleton : SameSkeleton f f'
  linked : Linked f'
  consistent : f'.Consistent
  arg_eq : ∀ j m, (f'.instr j).arg m = if j = r.instr ∧
    m = r.slot then some v else (f.instr j).arg m
  operand_eq : f'.operand v = .reference r.ty r.name

theorem fill_spec {f₀ : Fragment} (hs : SameSkeleton f₀ f) (hlinked : Linked f)
    (hcons : f.Consistent) (hlive : f.Live r.instr)
    (h : r.fill (blockNames f₀) (resultNames f₀) f = some f') : ∃ v, Fills f f' r v := by
  unfold Reference.fill at h
  split at h
  · next hblk =>
    split at h
    · cases h
    · next b hb =>
      have hlabel : (f.block b).label = some r.name :=
        (hs.blockLabel_eq b).trans (label_of_blockNames hb).2
      generalize hg : (if (f.instr r.instr).op.isBranch then f.addEdge (f.instr r.instr).block b
        else f) = g at h
      have hedge : SameSkeleton f g ∧ Linked g ∧ g.Consistent ∧ ∀ j, g.instr j = f.instr j := by
        rw [← hg]
        split
        · exact ⟨sameSkeleton_addEdge _ _ _, hlinked.addEdge _ _, hcons.addEdge _ _, fun _ => rfl⟩
        · exact ⟨.refl f, hlinked, hcons, fun _ => rfl⟩
      obtain ⟨hskel, hlinked, hcons, hinstr⟩ := hedge
      have hlive' : g.Live r.instr := hskel.links.live_iff.mpr hlive
      cases h
      have hskel' := (sameSkeleton_addConstant g (.blk b)).trans
        (sameSkeleton_setArg _ r.instr r.slot (g.addConstant (.blk b)).2)
      have horigin := Draft.origin_number (f := g) (i := r.instr) (n := r.slot) (.blk b)
      refine ⟨(g.addConstant (.blk b)).2, hskel.trans hskel', ?_,
        (hcons.addConstant _).setArg _ _ _, fun j m => ?_, ?_⟩
      · exact (hlinked.addConstant _).setArg hlive' (by simp [addConstant, addValue])
      · rw [Draft.arg_number hlive'.1, hinstr]
      · have hty := ((hcons.addConstant (.blk b)).setArg r.instr r.slot
          (g.addConstant (.blk b)).2).constant_ty _ _ horigin
        unfold operand
        rw [horigin]
        dsimp only
        rw [hty, hskel'.blockLabel_eq, hskel.blockLabel_eq, hlabel, hblk]
        rfl
  · split at h
    · cases h
    · next v hv =>
      split at h
      · next hty =>
        cases h
        obtain ⟨i, -, hlabel, hresult⟩ := label_of_resultNames hv
        have hres : (f.instr i).result = some v := (hs.result_eq i).trans hresult
        have hlab : (f.instr i).label = some r.name := (hs.label_eq i).trans hlabel
        have hlt := hcons.result_lt i v hres
        have hskel := sameSkeleton_setArg f r.instr r.slot v
        refine ⟨v, hskel, hlinked.setArg hlive hlt, hcons.setArg _ _ _,
          arg_setArg hlive.1, ?_⟩
        rw [hskel.operand_eq hlt, operand, hcons.result_origin i v hres]
        dsimp only
        rw [hlab, hty]
        rfl
      · cases h

/-! ### A draft and what it resolves to -/

/-- A draft some of whose references have been resolved. -/
structure Pending (d : Draft) : Prop where
  linked : Linked d.fragment
  consistent : d.fragment.Consistent
  pending : ∀ r ∈ d.references, d.fragment.Live r.instr ∧
    (d.fragment.instr r.instr).arg r.slot = none
  distinct : d.references.Pairwise fun r s => ¬ (r.instr = s.instr ∧ r.slot = s.slot)

/-- Resolving the oldest reference keeps what the draft reads like. -/
theorem listing_fill {rs : List Reference} (h : Pending ⟨f, rs ++ [r]⟩) (hf : Fills f f' r v) :
    Pending ⟨f', rs⟩ ∧ Draft.listing ⟨f', rs⟩ = Draft.listing ⟨f, rs ++ [r]⟩ := by
  obtain ⟨hdist, -, hlast⟩ := List.pairwise_append.mp h.distinct
  have hother : ∀ s ∈ rs, ¬ (s.instr = r.instr ∧ s.slot = r.slot) := fun s hs =>
    hlast s hs r (by simp)
  have hr := h.pending r (by simp)
  have hview : ∀ j m, Draft.operand? ⟨f', rs⟩ j m = Draft.operand? ⟨f, rs ++ [r]⟩ j m := by
    intro j m
    unfold Draft.operand?
    dsimp only
    rw [hf.arg_eq]
    by_cases hjm : j = r.instr ∧ m = r.slot
    · obtain ⟨rfl, rfl⟩ := hjm
      have hnone : rs.find? (fun s => s.instr = r.instr ∧ s.slot = r.slot) = none := by
        rw [List.find?_eq_none]
        intro s hs e
        exact hother s hs (of_decide_eq_true e)
      rw [if_pos ⟨rfl, rfl⟩, hr.2, List.find?_append, hnone]
      simp [hf.operand_eq]
    · rw [if_neg hjm]
      cases ha : (f.instr j).arg m with
      | some u => exact congrArg some (hf.skeleton.operand_eq (h.linked.uses.arg_lt ha))
      | none =>
        have hr' : ¬ (r.instr = j ∧ r.slot = m) := fun e => hjm ⟨e.1.symm, e.2.symm⟩
        simp [List.find?_append, hr']
  have hline : ∀ j, Draft.line ⟨f', rs⟩ j = Draft.line ⟨f, rs ++ [r]⟩ j := by
    intro j
    unfold Draft.line
    refine congr (congrArg₂ Line.mk (hf.skeleton.resultLabel_eq h.consistent j)
      (hf.skeleton.op_eq j)) ?_
    congr 1
    funext m
    exact hview j m
  refine ⟨⟨hf.linked, hf.consistent, fun s hs => ?_, hdist⟩, ?_⟩
  · obtain ⟨hlive, hno⟩ := h.pending s (by simp [hs])
    refine ⟨hf.skeleton.links.live_iff.mpr hlive, ?_⟩
    rw [hf.arg_eq, if_neg (hother s hs)]
    exact hno
  · unfold Draft.listing Draft.paragraph
    dsimp only
    rw [hf.skeleton.links.order_eq]
    refine List.map_congr_left fun c _ => ?_
    rw [hf.skeleton.blockLabel_eq, hf.skeleton.links.blockInstrs_eq]
    exact congrArg (Paragraph.mk _) (List.map_congr_left fun j _ => hline j)

theorem listing_foldlM {f₀ : Fragment} {rs : List Reference} (hs : SameSkeleton f₀ f)
    (h : Pending ⟨f, rs.reverse⟩)
    (hf : rs.foldlM (Reference.fill (blockNames f₀) (resultNames f₀)) f = some f') :
    SameSkeleton f₀ f' ∧ Linked f' ∧ f'.Consistent ∧
      f'.listing = Draft.listing ⟨f, rs.reverse⟩ := by
  induction rs generalizing f with
  | nil =>
    obtain rfl : f = f' := Option.some.inj hf
    exact ⟨hs, h.linked, h.consistent, (Draft.listing_resolved f).symm⟩
  | cons r rs ih =>
    rw [List.foldlM_cons] at hf
    obtain ⟨g, hg, hf⟩ := Option.bind_eq_some_iff.mp hf
    rw [List.reverse_cons] at h ⊢
    obtain ⟨v, hv⟩ := fill_spec hs h.linked h.consistent (h.pending r (by simp)).1 hg
    obtain ⟨hp, hl⟩ := listing_fill h hv
    obtain ⟨hs', hlinked, hcons, hlisting⟩ := ih (hs.trans hv.skeleton) hp hf
    exact ⟨hs', hlinked, hcons, hlisting.trans hl⟩

/-- The fragment that paragraphs describe reads like them. -/
theorem listing_assemble {ps : List Paragraph} (hps : ∀ it ∈ ps.flatMap Paragraph.items, it.Valid)
    (h : assemble (ps.flatMap Paragraph.items) = some f) :
    Linked f ∧ f.Consistent ∧ f.listing = ps := by
  obtain ⟨hplaced, hlisting⟩ := Draft.addParagraphs_spec Draft.placed_empty hps
  unfold assemble Draft.resolve at h
  have hpending : Pending ⟨((ps.flatMap Paragraph.items).foldl Draft.add {}).fragment,
      ((ps.flatMap Paragraph.items).foldl Draft.add {}).references.reverse.reverse⟩ := by
    rw [List.reverse_reverse]
    exact ⟨hplaced.linked, hplaced.consistent, hplaced.pending, hplaced.distinct⟩
  obtain ⟨-, hlinked, hcons, hl⟩ := listing_foldlM (.refl _) hpending h
  refine ⟨hlinked, hcons, hl.trans ?_⟩
  rw [List.reverse_reverse]
  exact hlisting

end Recompiler.IR.Parser
