import Recompiler.Proofs.IR.Labelling
import Recompiler.Proofs.IR.Resolving
import Recompiler.Proofs.IR.Spelling

/-!
Reading a fragment, writing it and reading it again. A text may leave out the heading of its first
block; the written form has one, so the second reading makes the same fragment with that label.
-/
namespace Recompiler.IR

/-! ### The label of the first block -/

namespace Fragment

variable {f f' : Fragment} {x : Option String} {name : String} {b : BlockId}

/-- The fragment with another label, or none, on its first block. -/
def retitle (x : Option String) (f : Fragment) : Fragment :=
  f.modifyBlock ⟨0⟩ ({ · with label := x })

theorem modifyBlock_comm {g h : Block → Block} {a b : BlockId}
    (hcomm : a = b → ∀ blk, g (h blk) = h (g blk)) (f : Fragment) :
    (f.modifyBlock a g).modifyBlock b h = (f.modifyBlock b h).modifyBlock a g := by
  have hblocks : (f.blocks.modify a.index g).modify b.index h =
      (f.blocks.modify b.index h).modify a.index g := by
    refine Array.ext (by simp) fun k hk hk' => ?_
    simp only [Array.getElem_modify]
    split <;> split
    · next hb ha => exact (hcomm (BlockId.ext_index (ha.trans hb.symm)) _).symm
    · rfl
    · rfl
    · rfl
  exact congrArg (fun blocks => { f with blocks }) hblocks

/-- Changes of a block that ignore its label commute with a new title. -/
theorem retitle_modifyBlock {g : Block → Block}
    (hg : ∀ blk x, g { blk with label := x } = { g blk with label := x }) (x : Option String)
    (b : BlockId) (f : Fragment) : (f.modifyBlock b g).retitle x = (f.retitle x).modifyBlock b g :=
  modifyBlock_comm (fun _ blk => hg blk x) f

@[simp] theorem instr_retitle (x : Option String) (f : Fragment) (i : InstrId) :
    (f.retitle x).instr i = f.instr i := rfl

@[simp] theorem size_blocks_retitle (x : Option String) (f : Fragment) :
    (f.retitle x).blocks.size = f.blocks.size := size_blocks_modifyBlock f _ _

theorem block_retitle (x : Option String) (f : Fragment) (b : BlockId) :
    (f.retitle x).block b =
      if b = ⟨0⟩ ∧ b.index < f.blocks.size then { f.block b with label := x } else f.block b :=
  block_modifyBlock _ _ _ _

theorem head_retitle (x : Option String) (f : Fragment) (b : BlockId) :
    ((f.retitle x).block b).head = (f.block b).head ∧
      ((f.retitle x).block b).tail = (f.block b).tail := by
  rw [block_retitle]
  split <;> exact ⟨rfl, rfl⟩

theorem retitle_modifyInstr (x : Option String) (f : Fragment) (i : InstrId) (g : Instr → Instr) :
    (f.modifyInstr i g).retitle x = (f.retitle x).modifyInstr i g := rfl

theorem retitle_setArg (x : Option String) (f : Fragment) (i : InstrId) (n : Slot) (v : ValueId) :
    (f.setArg i n v).retitle x = (f.retitle x).setArg i n v := by
  unfold setArg clearArg
  rw [instr_retitle]
  split <;> rfl

/-- A constant put into a position. -/
theorem retitle_putConstant (x : Option String) (f : Fragment) (i : InstrId) (n : Slot)
    (c : Constant) : ((f.addConstant c).1.setArg i n (f.addConstant c).2).retitle x =
      ((f.retitle x).addConstant c).1.setArg i n ((f.retitle x).addConstant c).2 :=
  retitle_setArg x (f.addConstant c).1 i n (f.addConstant c).2

theorem retitle_linkAfter (x : Option String) (f : Fragment) (b : BlockId)
    (after : Option InstrId) (i : InstrId) :
    (f.linkAfter b after i).retitle x = (f.retitle x).linkAfter b after i := by
  have hnext : (f.retitle x).following b after = f.following b after := by
    unfold following
    cases after with
    | some a => rfl
    | none => exact (head_retitle x f b).1
  have hhead : ∀ g : Fragment, (g.modifyBlock b ({ · with head := some i })).retitle x =
      (g.retitle x).modifyBlock b ({ · with head := some i }) :=
    retitle_modifyBlock (fun _ _ => rfl) x b
  have htail : ∀ g : Fragment, (g.modifyBlock b ({ · with tail := some i })).retitle x =
      (g.retitle x).modifyBlock b ({ · with tail := some i }) :=
    retitle_modifyBlock (fun _ _ => rfl) x b
  unfold linkAfter
  rw [hnext]
  cases after with
  | some a =>
    cases f.following b (some a) with
    | some n => rfl
    | none => exact htail _
  | none =>
    cases f.following b none with
    | some n =>
      dsimp only
      rw [retitle_modifyInstr, hhead]
      rfl
    | none =>
      dsimp only
      rw [htail, hhead]
      rfl

theorem retitle_appendBlock (hf : 0 < f.blocks.size) :
    f.appendBlock.1.retitle x = (f.retitle x).appendBlock.1 ∧
      (f.retitle x).appendBlock.2 = f.appendBlock.2 := by
  have hpush : (f.blocks.push {}).modify 0 ({ · with label := x }) =
      (f.blocks.modify 0 ({ · with label := x })).push {} := by
    refine Array.ext (by simp) fun k hk hk' => ?_
    simp only [Array.getElem_modify, Array.getElem_push, Array.size_modify]
    by_cases hlt : k < f.blocks.size
    · simp only [hlt, dite_true]
    · have hne : (0 : Nat) ≠ k := by omega
      simp only [hlt, dite_false, if_neg hne]
  have hid : (⟨(f.blocks.modify 0 ({ · with label := x })).size⟩ : BlockId) = ⟨f.blocks.size⟩ :=
    congrArg BlockId.mk (Array.size_modify ..)
  refine ⟨?_, hid⟩
  change { f.appendBlock.1 with blocks := (f.blocks.push {}).modify 0 ({ · with label := x }) } =
    { f.appendBlock.1 with
      blocks := (f.blocks.modify 0 ({ · with label := x })).push {}
      order := f.order ++ [⟨(f.blocks.modify 0 ({ · with label := x })).size⟩] }
  rw [hpush, hid]
  rfl

theorem retitle_ensureBlock (hf : 0 < f.blocks.size) :
    (f.retitle x).ensureBlock = (f.ensureBlock.1.retitle x, f.ensureBlock.2) := by
  obtain ⟨happend, hid⟩ := retitle_appendBlock (x := x) hf
  unfold ensureBlock
  rw [show (f.retitle x).point = f.point from rfl]
  split
  · rfl
  · dsimp only
    rw [← happend, hid]
    rfl

theorem retitle_appendInstr (hf : 0 < f.blocks.size) (op : Opcode) (ty : Option Ty) :
    (f.retitle x).appendInstr op ty =
      ((f.appendInstr op ty).1.retitle x, (f.appendInstr op ty).2) := by
  unfold appendInstr
  rw [retitle_ensureBlock hf]
  generalize f.ensureBlock = p
  obtain ⟨g, b⟩ := p
  have hlink : ∀ (g : Fragment) (b : BlockId) (i : InstrId),
      ((g.retitle x).linkAfter b g.point.after i).setPoint
          { ((g.retitle x).linkAfter b g.point.after i).point with after := some i } =
        ((g.linkAfter b g.point.after i).setPoint
          { (g.linkAfter b g.point.after i).point with after := some i }).retitle x := by
    intro g b i
    rw [← retitle_linkAfter]
    rfl
  cases ty with
  | none => exact congrArg (·, _) (hlink { g with instrs := g.instrs.push _ } b ⟨g.instrs.size⟩)
  | some t =>
    exact congrArg (·, _) (hlink
      { (g.addValue { ty := t, origin := .result ⟨g.instrs.size⟩ }).1 with
        instrs := g.instrs.push _ } b ⟨g.instrs.size⟩)

theorem retitle_addEdge (x : Option String) (f : Fragment) (a b : BlockId) :
    (f.addEdge a b).retitle x = (f.retitle x).addEdge a b := by
  refine retitle_modifyBlock (fun blk x => ?_) x a f
  dsimp only
  split <;> rfl

theorem allInstrs_retitle (x : Option String) (f : Fragment) :
    (f.retitle x).allInstrs = f.allInstrs := by
  unfold allInstrs blockInstrs
  refine congrArg (f.order.flatMap ·) (funext fun b => ?_)
  rw [(head_retitle x f b).1]
  rfl

/-- An instruction may open a block, and no block goes away. -/
theorem extends_appendInstr (f : Fragment) (op : Opcode) (ty : Option Ty) :
    f.order <+: (f.appendInstr op ty).1.order ∧
      f.blocks.size ≤ (f.appendInstr op ty).1.blocks.size := by
  have hensure : f.order <+: f.ensureBlock.1.order ∧
    f.blocks.size ≤ f.ensureBlock.1.blocks.size := by
    unfold ensureBlock
    split
    · exact ⟨List.prefix_rfl, Nat.le_refl _⟩
    · exact ⟨List.prefix_append .., by simp [appendBlock, setPoint]⟩
  have hlink : ∀ (g : Fragment) (b : BlockId) (i : InstrId),
      g.order <+: (g.linkAfter b g.point.after i).order ∧
        g.blocks.size ≤ (g.linkAfter b g.point.after i).blocks.size := by
    intro g b i
    rw [size_blocks_linkAfter, linkAfter_eq]
    exact ⟨List.prefix_rfl, Nat.le_refl _⟩
  unfold appendInstr
  revert hensure
  generalize f.ensureBlock = p
  obtain ⟨g, b⟩ := p
  intro hensure
  cases ty with
  | none =>
    obtain ⟨horder, hsize⟩ := hlink
      { g with instrs := g.instrs.push { op, result := none, block := b } } b ⟨g.instrs.size⟩
    exact ⟨hensure.1.trans horder, hensure.2.trans hsize⟩
  | some t =>
    obtain ⟨horder, hsize⟩ := hlink
      { (g.addValue { ty := t, origin := .result ⟨g.instrs.size⟩ }).1 with
        instrs := g.instrs.push { op, result := some ⟨g.values.size⟩, block := b } } b
      ⟨g.instrs.size⟩
    exact ⟨hensure.1.trans horder, hensure.2.trans hsize⟩

end Fragment

namespace Parser

open Fragment

variable {d : Draft} {f f₀ f' : Fragment} {x : Option String} {name : String} {its : List Item}
  {r : Reference}

/-! ### Drafts -/

namespace Draft

def retitle (x : Option String) (d : Draft) : Draft := { d with fragment := d.fragment.retitle x }

theorem retitle_addOperand (x : Option String) (d : Draft) (i : InstrId) (n : Slot) (o : Operand) :
    (d.retitle x).addOperand i n o = (d.addOperand i n o).retitle x := by
  cases o with
  | reference ty name => rfl
  | constant k =>
    exact congrArg (fun f => { d with fragment := f }) (retitle_putConstant x d.fragment i n k).symm

theorem retitle_addOperands (x : Option String) (d : Draft) (i : InstrId)
    (args : List (Slot × Operand)) :
    (d.retitle x).addOperands i args = (d.addOperands i args).retitle x := by
  unfold addOperands
  induction args generalizing d with
  | nil => rfl
  | cons p args ih => rw [List.foldl_cons, List.foldl_cons, retitle_addOperand, ih]

theorem retitle_addInstr (hd : 0 < d.fragment.blocks.size) (op : Opcode)
    (result : Option (Ty × String)) :
    (d.retitle x).addInstr op result = (d.addInstr op result).retitle x := by
  unfold addInstr
  rw [show (d.retitle x).fragment = d.fragment.retitle x from rfl, retitle_appendInstr hd]
  cases result with
  | none => rfl
  | some p => rfl

theorem retitle_reserveLocal (x : Option String) (i : InstrId) (op : Opcode) (result : Option Ty)
    (args : List Ty) (f : Fragment) : reserveLocal i op result args (f.retitle x) =
      (reserveLocal i op result args f).map (·.retitle x) := by
  have hslot : ∀ ty offset, ((f.retitle x).reserveLocal ty offset).map (·.1) =
      ((f.reserveLocal ty offset).map (·.1)).map (·.retitle x) := by
    intro ty offset
    unfold Fragment.reserveLocal
    rw [show (f.retitle x).locals = f.locals from rfl]
    split
    · rfl
    · split <;> rfl
  unfold reserveLocal
  dsimp only [instr_retitle]
  rw [show (f.retitle x).value = f.value from rfl]
  split
  · split
    · exact hslot _ _
    · rfl
  · rfl

theorem retitle_addCode (hd : 0 < d.fragment.blocks.size) (l : Line) :
    (d.retitle x).addCode l = (d.addCode l).retitle x := by
  unfold addCode
  rw [retitle_addInstr hd, show (d.retitle x).fragment = d.fragment.retitle x from rfl,
    retitle_appendInstr hd, retitle_addOperands]

theorem retitle_slotted (hd : 0 < d.fragment.blocks.size) (l : Line) :
    (d.retitle x).slotted l = (d.slotted l).map (·.retitle x) := by
  unfold slotted
  rw [retitle_addCode hd, show (d.retitle x).fragment = d.fragment.retitle x from rfl,
    retitle_appendInstr hd]
  exact retitle_reserveLocal x _ _ _ _ _

theorem retitle_addLine (hd : 0 < d.fragment.blocks.size) (l : Line) :
    (d.retitle x).addLine l = (d.addLine l).retitle x := by
  unfold addLine
  rw [retitle_slotted hd, retitle_addCode hd]
  cases d.slotted l <;> rfl

theorem retitle_addBlock (hd : 0 < d.fragment.blocks.size) (name : String) :
    (d.retitle x).addBlock name = (d.addBlock name).retitle x := by
  obtain ⟨happend, hid⟩ := retitle_appendBlock (f := d.fragment) (x := x) hd
  have hne : (⟨0⟩ : BlockId) ≠ d.fragment.appendBlock.2 := by
    intro e
    exact absurd (congrArg BlockId.index e) (Nat.ne_of_lt hd)
  have hlabel : (d.fragment.retitle x).appendBlock.1.setBlockLabel d.fragment.appendBlock.2 name =
      (d.fragment.appendBlock.1.setBlockLabel d.fragment.appendBlock.2 name).retitle x := by
    rw [← happend]
    exact modifyBlock_comm (fun e => absurd e hne) _
  unfold addBlock
  rw [show (d.retitle x).fragment = d.fragment.retitle x from rfl]
  dsimp only
  rw [hid, hlabel, atEndOf, (head_retitle x _ _).2]
  rfl

theorem retitle_add (hd : 0 < d.fragment.blocks.size) (it : Item) :
    (d.retitle x).add it = (d.add it).retitle x := by
  cases it with
  | block name => exact retitle_addBlock hd name
  | instr l => exact retitle_addLine hd l

theorem sameSkeleton_addOperands (d : Draft) (i : InstrId) (args : List (Slot × Operand)) :
    SameSkeleton d.fragment (d.addOperands i args).fragment := by
  unfold addOperands
  induction args generalizing d with
  | nil => exact .refl _
  | cons p args ih => exact (sameSkeleton_addOperand d i p.1 p.2).trans (ih _)

/-- Blocks are added behind those that are there. -/
theorem extends_add (d : Draft) (it : Item) :
    d.fragment.order <+: (d.add it).fragment.order ∧
      d.fragment.blocks.size ≤ (d.add it).fragment.blocks.size := by
  cases it with
  | block name =>
    exact ⟨List.prefix_append ..,
      by simp [add, addBlock, appendBlock, setBlockLabel, atEndOf, setPoint]⟩
  | instr l =>
    let i := (d.fragment.appendInstr l.op (l.result.map (·.1))).2
    have hinstr : d.fragment.order <+: (d.addInstr l.op l.result).fragment.order ∧
        d.fragment.blocks.size ≤ (d.addInstr l.op l.result).fragment.blocks.size := by
      unfold addInstr
      cases l.result with
      | none => exact extends_appendInstr d.fragment l.op none
      | some p => exact extends_appendInstr d.fragment l.op (some p.1)
    have hargs :=
      sameSkeleton_addOperands (d.addInstr l.op l.result) i ((List.finRange 3).zip l.args)
    obtain ⟨ls, size, hline⟩ := addLine_eq d l
    rw [add, hline]
    dsimp only [addCode]
    rw [hargs.links.order_eq, hargs.links.size_blocks]
    exact hinstr

theorem extends_foldl_add (d : Draft) (its : List Item) :
    d.fragment.order <+: (its.foldl add d).fragment.order ∧
      d.fragment.blocks.size ≤ (its.foldl add d).fragment.blocks.size := by
  induction its generalizing d with
  | nil => exact ⟨List.prefix_rfl, Nat.le_refl _⟩
  | cons it its ih =>
    obtain ⟨horder, hsize⟩ := extends_add d it
    obtain ⟨horder', hsize'⟩ := ih (d.add it)
    exact ⟨horder.trans horder', hsize.trans hsize'⟩

/-- The title of the first block has no part in what is read after it. -/
theorem retitle_foldl_add (hd : 0 < d.fragment.blocks.size) (its : List Item) :
    its.foldl add (d.retitle x) = (its.foldl add d).retitle x := by
  induction its generalizing d with
  | nil => rfl
  | cons it its ih =>
    rw [List.foldl_cons, List.foldl_cons, retitle_add hd, ih]
    exact Nat.lt_of_lt_of_le hd (extends_add d it).2

theorem retitle_fitsAll (hd : 0 < d.fragment.blocks.size) {its : List Item} (h : d.FitsAll its) :
    (d.retitle x).FitsAll its := by
  induction its generalizing d with
  | nil => trivial
  | cons it its ih =>
    refine ⟨?_, ?_⟩
    · cases it with
      | block name => trivial
      | instr l =>
        obtain ⟨f, hf⟩ := h.1
        exact ⟨f.retitle x, by rw [retitle_slotted hd, hf]; rfl⟩
    · rw [retitle_add hd]
      exact ih (Nat.lt_of_lt_of_le hd (extends_add d it).2) h.2

end Draft

/-! ### References -/

theorem resultNames_retitle (x : Option String) (f : Fragment) :
    resultNames (f.retitle x) = resultNames f := by
  unfold resultNames
  rw [allInstrs_retitle]
  rfl

/-- A title that no block has takes no reference away. -/
theorem blockNames_retitle {b : BlockId} (hlabel : (f.block ⟨0⟩).label = none) (hne : r.name ≠ name)
    (h : (blockNames f)[r.name]? = some b) :
    (blockNames (f.retitle (some name)))[r.name]? = some b := by
  rw [getElem?_blockNames] at h ⊢
  rw [← h]
  refine congrArg (List.findSome? · f.order.reverse) (funext fun c => ?_)
  rw [block_retitle]
  split
  · next hc =>
    rw [hc.1, hlabel, if_neg fun e => hne (Option.some.inj e).symm, if_neg (by simp)]
  · rfl

theorem sameSkeleton_fill {blocks : Std.HashMap String BlockId}
    {results : Std.HashMap String ValueId} (h : r.fill blocks results f = some f') :
    SameSkeleton f f' := by
  unfold Reference.fill at h
  split at h
  · split at h
    · cases h
    · cases h
      refine .trans ?_ ((sameSkeleton_addConstant _ _).trans (sameSkeleton_setArg _ _ _ _))
      split
      · exact sameSkeleton_addEdge _ _ _
      · exact .refl f
  · split at h
    · cases h
    · split at h
      · cases h
        exact sameSkeleton_setArg _ _ _ _
      · cases h

theorem fill_retitle (hlabel : (f₀.block ⟨0⟩).label = none)
    (hname : ∀ b ∈ f₀.order, (f₀.block b).label ≠ some name)
    (h : r.fill (blockNames f₀) (resultNames f₀) f = some f') :
    r.fill (blockNames (f₀.retitle (some name))) (resultNames (f₀.retitle (some name)))
      (f.retitle (some name)) = some (f'.retitle (some name)) := by
  rw [resultNames_retitle]
  unfold Reference.fill at h ⊢
  split at h
  · next hblk =>
    rw [if_pos hblk]
    split at h
    · cases h
    · next b hb =>
      obtain ⟨hmem, hb'⟩ := label_of_blockNames hb
      have hne : r.name ≠ name := by
        intro e
        exact hname b hmem (e ▸ hb')
      rw [blockNames_retitle hlabel hne hb]
      cases h
      dsimp only [instr_retitle]
      rw [retitle_putConstant, apply_ite (Fragment.retitle (some name)), retitle_addEdge]
      rfl
  · next hblk =>
    rw [if_neg hblk]
    split at h
    · cases h
    · next v hv =>
      split at h
      · next hty =>
        cases h
        rw [if_pos (show (f.retitle (some name)).ty v = r.ty from hty), retitle_setArg]
      · cases h

theorem sameSkeleton_foldlM_fill {blocks : Std.HashMap String BlockId}
    {results : Std.HashMap String ValueId} {rs : List Reference}
    (h : rs.foldlM (Reference.fill blocks results) f = some f') : SameSkeleton f f' := by
  induction rs generalizing f with
  | nil =>
    obtain rfl : f = f' := Option.some.inj h
    exact .refl f
  | cons r rs ih =>
    rw [List.foldlM_cons] at h
    obtain ⟨g, hg, h⟩ := Option.bind_eq_some_iff.mp h
    exact (sameSkeleton_fill hg).trans (ih h)

theorem foldlM_fill_retitle {rs : List Reference} (hlabel : (f₀.block ⟨0⟩).label = none)
    (hname : ∀ b ∈ f₀.order, (f₀.block b).label ≠ some name)
    (h : rs.foldlM (Reference.fill (blockNames f₀) (resultNames f₀)) f = some f') :
    rs.foldlM (Reference.fill (blockNames (f₀.retitle (some name)))
      (resultNames (f₀.retitle (some name)))) (f.retitle (some name)) =
        some (f'.retitle (some name)) := by
  induction rs generalizing f with
  | nil => exact congrArg (fun f => some (f.retitle (some name))) (Option.some.inj h)
  | cons r rs ih =>
    rw [List.foldlM_cons] at h ⊢
    obtain ⟨g, hg, h⟩ := Option.bind_eq_some_iff.mp h
    rw [fill_retitle hlabel hname hg]
    exact ih h

/-! ### Items without a first heading -/

theorem addBlock_empty (name : String) :
    ({} : Draft).addBlock name = Draft.retitle (some name)
    { fragment := empty.ensureBlock.1 } := rfl

theorem addCode_empty (l : Line) :
    ({} : Draft).addCode l = Draft.addCode { fragment := empty.ensureBlock.1 } l := by
  unfold Draft.addCode Draft.addInstr
  dsimp only
  rw [appendInstr_ensureBlock]

theorem slotted_empty (l : Line) :
    ({} : Draft).slotted l = Draft.slotted { fragment := empty.ensureBlock.1 } l := by
  unfold Draft.slotted
  rw [addCode_empty, appendInstr_ensureBlock]

theorem addLine_empty (l : Line) :
    ({} : Draft).addLine l = Draft.addLine { fragment := empty.ensureBlock.1 } l := by
  unfold Draft.addLine
  rw [slotted_empty, addCode_empty]

/-- The items still fit behind a heading that is put in front. -/
theorem fitsAll_heading {l : Line} (h : Draft.FitsAll {} (.instr l :: its)) (name : String) :
    Draft.FitsAll {} (.block name :: .instr l :: its) := by
  have hstart : Draft.FitsAll { fragment := empty.ensureBlock.1 } (.instr l :: its) := by
    obtain ⟨⟨f, hf⟩, hits⟩ := h
    rw [slotted_empty] at hf
    rw [Draft.add, addLine_empty] at hits
    exact ⟨⟨f, hf⟩, hits⟩
  refine ⟨trivial, ?_⟩
  rw [Draft.add, addBlock_empty]
  exact Draft.retitle_fitsAll (by decide) hstart

/-- A heading that is put in front gives its name to the first block, if the name is new. -/
theorem assemble_heading {l : Line} (h : assemble (.instr l :: its) = some f)
    (hname : ∀ b ∈ f.order, (f.block b).label ≠ some name) :
    assemble (.block name :: .instr l :: its) = some (f.retitle (some name)) ∧
      (∃ bs, f.order = ⟨0⟩ :: bs) ∧ 0 < f.blocks.size ∧ (f.block ⟨0⟩).label = none := by
  let start : Draft := { fragment := empty.ensureBlock.1 }
  have hstart : 0 < start.fragment.blocks.size := by decide
  generalize hd : (Item.instr l :: its).foldl Draft.add start = d
  have hread : (Item.instr l :: its).foldl Draft.add {} = d := by
    rw [← hd]
    exact congrArg (its.foldl Draft.add) (addLine_empty l)
  have hread' : (Item.block name :: .instr l :: its).foldl Draft.add {} =
    d.retitle (some name) := by
    rw [← hd, ← Draft.retitle_foldl_add hstart]
    rfl
  obtain ⟨⟨bs, horder⟩, hsize⟩ := Draft.extends_foldl_add start (.instr l :: its)
  rw [hd] at horder hsize
  -- Taking the title away changes nothing, since there was none at the start.
  have hlabel : (d.fragment.block ⟨0⟩).label = none := by
    have hnone : d.retitle none = d := by
      rw [← hd, ← Draft.retitle_foldl_add hstart]
      rfl
    rw [← hnone]
    change ((d.fragment.retitle none).block ⟨0⟩).label = none
    rw [block_retitle, if_pos ⟨rfl, Nat.lt_of_lt_of_le hstart hsize⟩]
  unfold assemble Draft.resolve at h ⊢
  rw [hread] at h
  rw [hread']
  have hskel := sameSkeleton_foldlM_fill h
  have hname' : ∀ b ∈ d.fragment.order, (d.fragment.block b).label ≠ some name := by
    intro b hb
    rw [← hskel.blockLabel_eq]
    exact hname b (hskel.links.order_eq ▸ hb)
  refine ⟨foldlM_fill_retitle hlabel hname' h, ⟨bs, ?_⟩, ?_, ?_⟩
  · rw [hskel.links.order_eq, ← horder]
    rfl
  · rw [hskel.links.size_blocks]
    exact Nat.lt_of_lt_of_le hstart hsize
  · rw [hskel.blockLabel_eq]
    exact hlabel

/-- A heading and what follows it are paragraphs. -/
theorem exists_paragraphs (name : String) (its : List Item) :
    ∃ ls ps, Item.block name :: its = ((⟨name, ls⟩ : Paragraph) :: ps).flatMap Paragraph.items := by
  induction its generalizing name with
  | nil => exact ⟨[], [], rfl⟩
  | cons it its ih =>
    cases it with
    | block next =>
      obtain ⟨ls, ps, h⟩ := ih next
      exact ⟨[], ⟨next, ls⟩ :: ps, congrArg (Item.block name :: ·) h⟩
    | instr l =>
      obtain ⟨ls, ps, h⟩ := ih name
      refine ⟨l :: ls, ps, ?_⟩
      exact congrArg (fun its => Item.block name :: .instr l :: its) (List.cons.inj h).2

/-! ### Reading, writing and reading again -/

theorem lexical_of_valid {ps : List Paragraph} (h : ∀ it ∈ ps.flatMap Paragraph.items, it.Valid) :
    ∀ p ∈ ps, p.Lexical := by
  intro p hp
  have hitems : ∀ it ∈ p.items, it.Valid := fun it hit => h it (List.mem_flatMap.mpr ⟨p, hp, hit⟩)
  refine ⟨hitems (.block p.name) (by simp [Paragraph.items]), fun l hl => ?_⟩
  exact (hitems (.instr l) (by simp [Paragraph.items, hl])).1

/-- A fragment that paragraphs describe is written as these, and read from there. -/
theorem parse_render_of_listing {ps : List Paragraph}
    (hps : ∀ it ∈ ps.flatMap Paragraph.items, it.Valid)
    (hfits : Draft.FitsAll {} (ps.flatMap Paragraph.items))
    (h : assemble (ps.flatMap Paragraph.items) = some f) :
    parse f.render.2 = .ok f ∧ f.render.1.blocks = f.blocks := by
  obtain ⟨hlinked, hcons, hlisting⟩ := listing_assemble hps h
  have hrel := relabels_assignLabels f
  have hlex : ∀ p ∈ f.listing, p.Lexical := hlisting ▸ lexical_of_valid hps
  refine ⟨parse_of_listing hps hfits ?_ h, hrel.blocks_eq hlinked hlex⟩
  rw [← hlisting, ← hrel.listing_eq hlex]
  exact toList_text (hrel.consistent hcons)

/-- Items describe what paragraphs do, up to the label that writing gives to a first block which has
none. -/
theorem exists_titled (hits : ∀ it ∈ its, it.Valid) (hfits : Draft.FitsAll {} its)
    (h : assemble its = some f) :
    ∃ (g : Fragment) (ps : List Paragraph), (∀ it ∈ ps.flatMap Paragraph.items, it.Valid) ∧
      Draft.FitsAll {} (ps.flatMap Paragraph.items) ∧
      assemble (ps.flatMap Paragraph.items) = some g ∧ g.assignLabels = f.assignLabels ∧
      g = { f with blocks := g.blocks } := by
  cases its with
  | nil => exact ⟨f, [], hits, hfits, h, rfl, rfl⟩
  | cons it its =>
    cases it with
    | block name =>
      obtain ⟨ls, ps, hps⟩ := exists_paragraphs name its
      rw [hps] at hits hfits h
      exact ⟨f, _, hits, hfits, h, rfl, rfl⟩
    | instr l =>
      have hleast := least_freshFrom f.labels 0
      generalize freshFrom f.labels f.labels.size 0 = k at hleast
      have hname : ∀ b ∈ f.order, (f.block b).label ≠ some (toString k) := by
        intro b hb he
        exact hleast.free (mem_labels.mpr (.inl ⟨b, hb, he⟩))
      obtain ⟨hread, ⟨bs, horder⟩, hsize, hlabel⟩ := assemble_heading h hname
      obtain ⟨ls, ps, hps⟩ := exists_paragraphs (toString k) (.instr l :: its)
      have hfits' := fitsAll_heading hfits (toString k)
      rw [hps] at hread hfits'
      refine ⟨f.retitle (some (toString k)), _, ?_, hfits', hread,
        assignLabels_setBlockLabel horder hsize hlabel hleast, rfl⟩
      rw [← hps]
      intro it hit
      rcases List.mem_cons.mp hit with rfl | hit
      · exact isLabel_toString k
      · exact hits it hit

/-- Reading is stable. What is written for a fragment that was read is read as the same fragment,
with the labels of the blocks as they were written, and is written the same again. Writing itself
only fills labels that are missing. -/
theorem parse_render {src : String} (h : parse src = .ok f) :
    parse f.render.2 = .ok { f with blocks := f.render.1.blocks } ∧
      ({ f with blocks := f.render.1.blocks } : Fragment).render = f.render ∧
      f.Relabels f.render.1 := by
  obtain ⟨its, hits, hfits, hf⟩ := items_of_parse h
  obtain ⟨g, ps, hps, hfits', hg, hlabels, heq⟩ := exists_titled hits hfits hf
  obtain ⟨hparse, hblocks⟩ := parse_render_of_listing hps hfits' hg
  have hrender : g.render = f.render := by
    unfold render
    rw [hlabels]
  rw [hrender] at hparse hblocks
  rw [hblocks, ← heq]
  exact ⟨hparse, hrender, relabels_assignLabels f⟩

/-! ### A text with references -/

/-- What `resolve` does, with labels that are looked up in the fragment itself. A hash table is not
evaluated in a proof. -/
def resolveIn (f : Fragment) (r : Reference) : Parse Unit := do
  if r.ty == .blk then
    match f.order.reverse.findSome? fun b =>
        if (f.block b).label = some r.name then some b else none with
    | none => refuse (.unresolvedReference r.name)
    | some b =>
      update fun f =>
        let ins := f.instr r.instr
        if ins.op.isBranch then f.addEdge ins.block b else f
      let v ← extend (·.addConstant (.blk b))
      update (·.setArg r.instr r.slot v)
  else
    match f.allInstrs.reverse.findSome? fun i =>
        if (f.instr i).label = some r.name then (f.instr i).result else none with
    | none => refuse (.unresolvedReference r.name)
    | some v =>
      let found := (← get).fragment.ty v
      if found ≠ r.ty then refuse (.typeMismatch r.name r.ty found)
      update (·.setArg r.instr r.slot v)

theorem resolve_eq (f : Fragment) (r : Reference) :
    resolve (blockNames f) (resultNames f) r = resolveIn f r := by
  unfold resolve
  rw [getElem?_blockNames, getElem?_resultNames]
  rfl

/-- What `parse` does, with references resolved in this way. -/
def parseIn (src : String) : Except (Stop × Fragment) Fragment :=
  let tokens := Token.scan src.toList
  match tokens with
  | [] => .ok .empty
  | .error e :: _ => .error (.refused e, .empty)
  | .ok t :: rest =>
    let reading : Parse Unit := do
      items (tokens.length + 1)
      let s ← get
      s.references.reverse.forM (resolveIn s.fragment)
    match reading.run { current := t, rest } with
    | (.ok (), s) => .ok s.fragment
    | (.error e, s) => .error (e, s.fragment)

theorem parse_eq_parseIn (src : String) : parse src = parseIn src := by
  have hprogram (fuel : Nat) : program fuel = (do
      items fuel
      let s ← get
      s.references.reverse.forM (resolveIn s.fragment)) := by
    unfold program
    refine bind_congr fun _ => bind_congr fun s => ?_
    exact congrArg (List.forM _) (funext (resolve_eq s.fragment))
  unfold parse
  simp only [hprogram]
  rfl

/-- A block without a heading, two blocks and two results of the same names, references to names
that are given again later, and a local slot that is not the first one. -/
def untitled : String :=
  "i32 %x = load_local i32 0x4\n%b:\ni32 %x = neg i32 %x\nbranch blk %b\n%b:\n"

theorem parse_render_untitled : ∃ f, parse untitled = .ok f ∧
    f.order.length = 3 ∧ f.locals = #[⟨.i32, 4⟩] ∧
    parse f.render.2 = .ok { f with blocks := f.render.1.blocks } ∧
    ({ f with blocks := f.render.1.blocks } : Fragment).render = f.render := by
  have hview : (parse untitled).toOption.map (fun f => (f.order.length, f.locals)) =
      some (3, #[⟨.i32, 4⟩]) := by
    rw [parse_eq_parseIn]
    decide +kernel
  obtain ⟨f, hf, hview⟩ := Option.map_eq_some_iff.mp hview
  have hread : parse untitled = .ok f := by
    generalize parse untitled = r at hf ⊢
    cases r with
    | error e => cases hf
    | ok f' => exact congrArg _ (Option.some.inj hf)
  obtain ⟨horder, hlocals⟩ := Prod.mk.inj hview
  obtain ⟨hparse, hrender, -⟩ := parse_render hread
  exact ⟨f, hread, horder, hlocals, hparse, hrender⟩

/-! ### Fragments that do not come back -/

/-- A block reference is read from host memory and written back. -/
def copyReference : Build Unit := do
  let addr ← Build.i64 0x10
  Build.storeHost addr (← Build.loadHost addr .blk)

/-- A routine is called with its second argument only. -/
def callSecond : Build Unit := do
  Build.call 0x10 none (some (← Build.i64 0x20))

theorem copyReference_text : (copyReference .empty).toOption.map (·.2.render.2) =
    some "%0:\nblk %1 = load_host i64 0x10\nstore_host i64 0x10, blk %1\n\n" := by decide +kernel

theorem callSecond_text : (callSecond .empty).toOption.map (·.2.render.2) =
    some "%0:\ncall i64 0x10, i64 0x20\n\n" := by decide +kernel

/-- What building methods accept is not always what is read. A store takes a value of every type
when it is built, but no block reference when it is read; and an argument in the last position of a
call comes back in the position before it. -/
theorem built_not_read :
    (∃ f, copyReference .empty = .ok ((), f) ∧ ∀ g, parse f.render.2 ≠ .ok g) ∧
    ∃ f g, callSecond .empty = .ok ((), f) ∧ parse f.render.2 = .ok g ∧
      (((f.instr ⟨0⟩).arg 1).isSome, ((f.instr ⟨0⟩).arg 2).isSome) = (false, true) ∧
      (((g.instr ⟨0⟩).arg 1).isSome, ((g.instr ⟨0⟩).arg 2).isSome) = (true, false) := by
  constructor
  · have htext := copyReference_text
    cases hbuilt : copyReference .empty with
    | error e =>
      rw [hbuilt] at htext
      cases htext
    | ok p =>
      rw [hbuilt] at htext
      refine ⟨p.2, rfl, fun g hg => ?_⟩
      have hread : (parse
          "%0:\nblk %1 = load_host i64 0x10\nstore_host i64 0x10, blk %1\n\n").toOption.isNone =
          true := by decide +kernel
      rw [← Option.some.inj htext, hg] at hread
      cases hread
  · have htext := callSecond_text
    have hfilled : (callSecond .empty).toOption.map
        (fun p => (((p.2.instr ⟨0⟩).arg 1).isSome, ((p.2.instr ⟨0⟩).arg 2).isSome)) =
          some (false, true) := by decide +kernel
    have hread : (parse "%0:\ncall i64 0x10, i64 0x20\n\n").toOption.map
        (fun g => (((g.instr ⟨0⟩).arg 1).isSome, ((g.instr ⟨0⟩).arg 2).isSome)) =
          some (true, false) := by decide +kernel
    cases hbuilt : callSecond .empty with
    | error e =>
      rw [hbuilt] at htext
      cases htext
    | ok p =>
      rw [hbuilt] at htext hfilled
      rw [← Option.some.inj htext] at hread
      dsimp only at hread
      cases hg : parse p.2.render.2 with
      | error e =>
        rw [hg] at hread
        cases hread
      | ok g =>
        rw [hg] at hread
        exact ⟨p.2, g, rfl, hg, Option.some.inj hfilled, Option.some.inj hread⟩

end Parser
end Recompiler.IR
