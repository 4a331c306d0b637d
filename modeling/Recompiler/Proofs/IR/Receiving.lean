import Recompiler.Proofs.IR.Resolving
import Recompiler.Proofs.IR.Serving

/-!
What the reader asks of a fragment. Every change that it makes is a request whose subjects are
there, and only the slot of a local access can be refused.
-/
namespace Recompiler.IR

/-- How many positions of an operation have to be filled: a call may leave out its arguments. -/
def Opcode.required (op : Opcode) : Nat := if op == .call then 1 else op.info.arity

theorem required_le_of_arityOk {op : Opcode} {n : Nat} (h : Signature.arityOk op n = true) :
    op.required ≤ n := by
  unfold Signature.arityOk at h
  unfold Opcode.required
  split at h
  · next hcall =>
    rw [if_pos hcall]
    exact of_decide_eq_true (Bool.and_eq_true_iff.mp h).1
  · next hcall =>
    rw [if_neg hcall]
    exact Nat.le_of_eq (beq_iff_eq.mp h).symm

namespace Fragment

variable {f f' f'' : Fragment} {i j : InstrId} {a b : BlockId} {v : ValueId} {n : Slot}

/-! ### Requests -/

/-- The fragment comes from the empty one by requests that are allowed and do not fault. -/
def Reached (f : Fragment) : Prop := ∃ rs, Serves empty rs f

theorem Serves.snoc {rs : List Request} {r : Request} (h : Serves f rs f') (allowed : r.Allowed f')
    (done : r.serve f' = .ok f'') : Serves f (rs ++ [r]) f'' := by
  induction h with
  | nil => exact .cons allowed done (.nil _)
  | cons allowed' done' _ ih => exact .cons allowed' done' (ih allowed done)

namespace Reached

theorem serve {r : Request} (h : Reached f) (allowed : r.Allowed f) (hfound : r.found f = true)
    (happly : r.apply f = .ok f') : Reached f' := by
  obtain ⟨rs, hrs⟩ := h
  refine ⟨_, hrs.snoc allowed ?_⟩
  rw [Request.serve, if_pos hfound]
  exact happly

theorem linked (h : Reached f) : Linked f := by
  obtain ⟨rs, hrs⟩ := h
  exact linked_empty.serves hrs

theorem addConstant (h : Reached f) (c : Constant) : Reached (f.addConstant c).1 :=
  h.serve (r := .constant c) trivial rfl rfl

theorem setArg (h : Reached f) (hi : f.Live i) (hv : v.index < f.values.size) :
    Reached (f.setArg i n v) := by
  refine h.serve (r := .setArg i n.val v) hi ?_ ?_
  · exact Bool.and_eq_true_iff.mpr ⟨decide_eq_true hi.1, decide_eq_true hv⟩
  · have hslot : Slot.ofNat n.val = .ok n := by
      rw [Slot.ofNat, dif_pos n.isLt]
    rw [Request.apply, hslot]
    rfl

theorem addEdge (h : Reached f) (ha : a.index < f.blocks.size) : Reached (f.addEdge a b) :=
  h.serve (r := .addEdge a b) trivial (decide_eq_true ha) rfl

theorem appendInstr (h : Reached f) (hopen : f.canAppend) (op : Opcode) (ty : Option Ty) :
    Reached (f.appendInstr op ty).1 :=
  h.serve (r := .appendInstr op ty) trivial hopen rfl

theorem setInstrLabel (h : Reached f) (hi : f.Live i) (name : String) :
    Reached (f.setInstrLabel i name) :=
  h.serve (r := .setInstrLabel i name) trivial (decide_eq_true hi.1) rfl

/-- A block is put at the end, gets a label, and is where code goes next. -/
theorem addBlock (h : Reached f) (name : String) :
    Reached ((f.appendBlock.1.setBlockLabel f.appendBlock.2 name).atEndOf f.appendBlock.2) := by
  have hblock : Reached f.appendBlock.1 := h.serve (r := .appendBlock) trivial rfl rfl
  have hlt : f.appendBlock.2.index < f.appendBlock.1.blocks.size := by
    simp [Fragment.appendBlock]
  have hlabel : Reached (f.appendBlock.1.setBlockLabel f.appendBlock.2 name) :=
    hblock.serve (r := .setBlockLabel _ name) trivial (decide_eq_true hlt) rfl
  refine hlabel.serve (r := .atEndOf _) trivial (decide_eq_true ?_) rfl
  rw [Fragment.setBlockLabel, size_blocks_modifyBlock]
  exact hlt

theorem reserveLocal {ty : Ty} {offset : Int} (h : Reached f)
    (hok : (f.reserveLocal ty offset).map (·.1) = .ok f') : Reached f' :=
  h.serve (r := .reserveLocal ty offset) trivial rfl hok

theorem empty : Reached empty := ⟨[], .nil _⟩

end Reached

/-! ### New instructions -/

/-- The instruction `i` is new in `f'`, has no label or arguments, and everything else is as in
`f`. -/
structure Appended (f f' : Fragment) (op : Opcode) (i : InstrId) : Prop where
  grows : Grows f f'
  size_eq : f'.instrs.size = f.instrs.size + 1
  id_eq : i = ⟨f.instrs.size⟩
  op_eq : (f'.instr i).op = op
  locals_eq : f'.locals = f.locals
  consistent : f'.Consistent
  live : f'.Live i
  lives : ∀ j, f.Live j → f'.Live j
  canAppend : f'.canAppend

theorem appended (h : Linked f) (hcons : f.Consistent) (hopen : f.canAppend) (op : Opcode)
    (ty : Option Ty) : Appended f (f.appendInstr op ty).1 op (f.appendInstr op ty).2 := by
  obtain ⟨-, hlive, hopen', -⟩ := h.appendInstr hopen op ty
  obtain ⟨b, hb, hlt⟩ := ensureBlock_block hopen
  obtain ⟨l₁, l₂, hchain, hp⟩ := h.ensureBlock.split hb hlt
  have he := emitted_appendInstr hchain hp op ty
  have hid : (f.ensureBlock.1.appendInstr op ty).2 = ⟨f.ensureBlock.1.instrs.size⟩ := by
    rw [appendInstr_eq op ty hp]
  -- A first block changes neither instructions nor values.
  have hsame : f.ensureBlock.1.instrs = f.instrs ∧ f.ensureBlock.1.values = f.values ∧
      f.ensureBlock.1.locals = f.locals := by
    unfold Fragment.ensureBlock
    split <;> exact ⟨rfl, rfl, rfl⟩
  obtain ⟨hinstrs, hvalues, hlocals⟩ := hsame
  have hinstr : ∀ j, f.ensureBlock.1.instr j = f.instr j := fun j => by rw [instr, instr, hinstrs]
  have hvalue : ∀ v, f.ensureBlock.1.value v = f.value v := fun v => by rw [value, value, hvalues]
  have hgrows : Grows f f.ensureBlock.1 :=
    ⟨Nat.le_of_eq (by rw [hvalues]), Nat.le_of_eq (by rw [hinstrs]), fun v _ => by rw [hvalue],
      fun v _ => by rw [hvalue], fun v _ => by rw [hvalue], fun j _ => by rw [hinstr],
      fun j _ => by rw [hinstr], fun j _ => by rw [hinstr]⟩
  have hcons' : f.ensureBlock.1.Consistent :=
    ⟨fun v c hc => by rw [Fragment.ty, hvalue] at *; exact hcons.constant_ty v c hc,
      fun j v hr => by rw [hinstr] at hr; rw [hvalues]; exact hcons.result_lt j v hr,
      fun j v hr => by rw [hinstr] at hr; rw [hvalue]; exact hcons.result_origin j v hr⟩
  rw [appendInstr_ensureBlock] at hlive hopen' ⊢
  rw [hid] at hlive ⊢
  refine ⟨hgrows.trans he.grows, ?_, ?_, he.op_eq, he.locals_eq.trans hlocals,
    hcons'.emitted he, hlive,
    fun j hj => ?_, hopen'⟩
  · rw [he.size_instrs, hinstrs]
  · rw [hinstrs]
  · have hj' : f.ensureBlock.1.Live j := ⟨by rw [hinstrs]; exact hj.1, by rw [hinstr]; exact hj.2⟩
    obtain ⟨l, hl, hm⟩ := h.ensureBlock.listed j hj'
    by_cases hjb : (f.ensureBlock.1.instr j).block = b
    · rw [hjb] at hl
      rw [hl.unique hchain] at hm
      refine he.chain.mem_live ?_
      simp only [List.mem_append, List.mem_cons] at hm ⊢
      tauto
    · exact (he.chains _ l hjb hl).mem_live hm

end Fragment

/-! ### Drafts -/

namespace Parser.Draft

open Fragment

variable {d d' d'' : Draft} {i j : InstrId} {n : Slot}

/-- A position is filled, or a reference waits for it. -/
def Has (d : Draft) (i : InstrId) (n : Slot) : Prop :=
  ((d.fragment.instr i).arg n).isSome ∨ ∃ r ∈ d.references, r.instr = i ∧ r.slot = n

/-- Every position that an operation requires is filled, or a reference waits for it. -/
def Complete (d : Draft) : Prop :=
  ∀ i : InstrId, i.index < d.fragment.instrs.size →
    ∀ n : Slot, n.val < (d.fragment.instr i).op.required → d.Has i n

/-- The fragment was made by requests, and is ready for more; its references are of instructions
that are there, and its slots end where an offset can. -/
structure Sound (d : Draft) : Prop where
  reached : Reached d.fragment
  canAppend : d.fragment.canAppend
  consistent : d.fragment.Consistent
  pending : ∀ r ∈ d.references, d.fragment.Live r.instr
  slots : ∀ s ∈ d.fragment.locals, s.offset + s.ty.bytes ≤ maxLocalsSize

theorem sound_empty : Sound {} where
  reached := .empty
  canAppend := rfl
  consistent := consistent_empty
  pending _ hr := absurd hr (by simp)
  slots _ hs := absurd hs (by simp [Fragment.empty])

theorem complete_empty : Complete {} := fun _ hi => absurd hi (by simp [Fragment.empty])

/-- The second draft has the instructions of the first one, and no position has been emptied. -/
structure Feeds (d d' : Draft) : Prop where
  skeleton : SameSkeleton d.fragment d'.fragment
  args : ∀ j m, ((d.fragment.instr j).arg m).isSome → ((d'.fragment.instr j).arg m).isSome
  references : ∀ r ∈ d.references, r ∈ d'.references

namespace Feeds

theorem refl (d : Draft) : Feeds d d := ⟨.refl _, fun _ _ h => h, fun _ h => h⟩

theorem trans (h : Feeds d d') (h' : Feeds d' d'') : Feeds d d'' :=
  ⟨h.skeleton.trans h'.skeleton, fun j m hm => h'.args j m (h.args j m hm),
    fun r hr => h'.references r (h.references r hr)⟩

theorem live (h : Feeds d d') (hi : d.fragment.Live i) : d'.fragment.Live i :=
  h.skeleton.links.live_iff.mpr hi

theorem has (h : Feeds d d') (hm : d.Has i n) : d'.Has i n :=
  hm.imp (h.args i n) fun ⟨r, hr, he⟩ => ⟨r, h.references r hr, he⟩

theorem complete (h : Feeds d d') (hd : Complete d) : Complete d' := by
  intro i hi n hn
  rw [h.skeleton.links.size_instrs] at hi
  rw [h.skeleton.op_eq] at hn
  exact h.has (hd i hi n hn)

end Feeds

/-- What keeps the skeleton keeps the place of the next instruction. -/
theorem canAppend_of_skeleton {f f' : Fragment} (h : f.canAppend) (hs : SameSkeleton f f') :
    f'.canAppend := by
  rw [canAppend_iff] at h ⊢
  rw [hs.links.point_eq, hs.links.size_blocks]
  exact h

/-! ### Arguments -/

theorem Sound.constant (h : Sound d) (c : Constant) :
    Sound { d with fragment := (d.fragment.addConstant c).1 } ∧
      Feeds d { d with fragment := (d.fragment.addConstant c).1 } :=
  ⟨⟨h.reached.addConstant c, h.canAppend, h.consistent.addConstant c, h.pending, h.slots⟩,
    ⟨sameSkeleton_addConstant _ c, fun _ _ hm => hm, fun _ hr => hr⟩⟩

theorem Sound.arg {v : ValueId} (h : Sound d) (hi : d.fragment.Live i)
    (hv : v.index < d.fragment.values.size) (n : Slot) :
    Sound { d with fragment := d.fragment.setArg i n v } ∧
      Feeds d { d with fragment := d.fragment.setArg i n v } ∧
      (((d.fragment.setArg i n v).instr i).arg n).isSome := by
  have hskel := sameSkeleton_setArg d.fragment i n v
  refine ⟨⟨h.reached.setArg hi hv, canAppend_of_skeleton h.canAppend hskel,
    h.consistent.setArg _ _ _,
    fun r hr => hskel.links.live_iff.mpr (h.pending r hr), fun s hs => ?_⟩,
    ⟨hskel, fun j m hm => ?_, fun _ hr => hr⟩, ?_⟩
  · exact h.slots s ((sameFrame_setArg d.fragment i n v).locals_eq ▸ hs)
  · rw [arg_setArg hi.1]
    split
    · rfl
    · exact hm
  · rw [arg_setArg hi.1, if_pos ⟨rfl, rfl⟩]
    rfl

/-- A constant fills its position. -/
theorem Sound.number (h : Sound d) (hi : d.fragment.Live i) (n : Slot) (c : Constant) :
    let f := (d.fragment.addConstant c).1.setArg i n (d.fragment.addConstant c).2
    Sound { d with fragment := f } ∧ Feeds d { d with fragment := f } ∧
      ((f.instr i).arg n).isSome := by
  obtain ⟨hs, hfeeds⟩ := h.constant c
  obtain ⟨hs', hfeeds', hfull⟩ := hs.arg (hfeeds.live hi)
    (show (d.fragment.addConstant c).2.index < _ by simp [addConstant, addValue]) n
  exact ⟨hs', hfeeds.trans hfeeds', hfull⟩

/-- A reference waits for its position. -/
theorem Sound.reference (h : Sound d) {r : Reference} (hi : d.fragment.Live r.instr) :
    Sound { d with references := r :: d.references } ∧
      Feeds d { d with references := r :: d.references } := by
  refine ⟨⟨h.reached, h.canAppend, h.consistent, fun s hs => ?_, h.slots⟩,
    ⟨.refl _, fun _ _ hm => hm, fun s hs => List.mem_cons_of_mem _ hs⟩⟩
  rcases List.mem_cons.mp hs with rfl | hs
  · exact hi
  · exact h.pending s hs

/-- A branch to a block is an edge from the block that the branch stands in. -/
theorem Sound.edge (h : Sound d) (hi : d.fragment.Live i) (b : BlockId) :
    Sound { d with fragment := d.fragment.addEdge (d.fragment.instr i).block b } ∧
      Feeds d { d with fragment := d.fragment.addEdge (d.fragment.instr i).block b } := by
  obtain ⟨l, hl, -⟩ := h.reached.linked.listed i hi
  have hskel := sameSkeleton_addEdge d.fragment (d.fragment.instr i).block b
  exact ⟨⟨h.reached.addEdge hl.block_lt, canAppend_of_skeleton h.canAppend hskel,
    h.consistent.addEdge _ _, fun r hr => hskel.links.live_iff.mpr (h.pending r hr), h.slots⟩,
    ⟨hskel, fun _ _ hm => hm, fun _ hr => hr⟩⟩

/-! ### Blocks and instructions -/

theorem Sound.addBlock (h : Sound d) (hfull : Complete d) (name : String) :
    Sound (d.addBlock name) ∧ Complete (d.addBlock name) := by
  refine ⟨⟨h.reached.addBlock name, ?_, ⟨h.consistent.constant_ty, h.consistent.result_lt,
    h.consistent.result_origin⟩, h.pending, h.slots⟩, hfull⟩
  rw [canAppend_iff]
  intro b hb
  cases hb
  simp [Draft.addBlock, Fragment.appendBlock, setBlockLabel, atEndOf, setPoint, modifyBlock]

/-- A new instruction has to be fed; the others are as complete as before. -/
theorem Sound.addInstr (h : Sound d) (hfull : Complete d) (op : Opcode)
    (result : Option (Ty × String)) :
    let i := (d.fragment.appendInstr op (result.map (·.1))).2
    let d' := d.addInstr op result
    Sound d' ∧ d'.fragment.Live i ∧ (d'.fragment.instr i).op = op ∧
      ∀ j : InstrId, j.index < d'.fragment.instrs.size → j ≠ i →
        ∀ n : Slot, n.val < (d'.fragment.instr j).op.required → d'.Has j n := by
  have ha := appended h.reached.linked h.consistent h.canAppend op (result.map (·.1))
  have hreached := h.reached.appendInstr h.canAppend op (result.map (·.1))
  generalize hp : d.fragment.appendInstr op (result.map (·.1)) = p at ha hreached
  have hothers : ∀ j : InstrId, j.index < p.1.instrs.size → j ≠ p.2 →
      ∀ n : Slot, n.val < (p.1.instr j).op.required → Has ⟨p.1, d.references⟩ j n := by
    intro j hj hne n hn
    have hlt : j.index < d.fragment.instrs.size := by
      have hne' : j.index ≠ d.fragment.instrs.size := fun e => hne (ha.id_eq ▸ InstrId.ext_index e)
      have := ha.size_eq
      omega
    rw [ha.grows.op_eq j hlt] at hn
    refine (hfull j hlt n hn).imp_left fun hs => ?_
    change ((p.1.instr j).args.get n).isSome
    rw [ha.grows.args_eq j hlt]
    exact hs
  have hsound : Sound ⟨p.1, d.references⟩ :=
    ⟨hreached, ha.canAppend, ha.consistent, fun r hr => ha.lives _ (h.pending r hr),
      fun s hs => h.slots s (ha.locals_eq ▸ hs)⟩
  unfold Draft.addInstr
  rw [hp]
  cases result with
  | none => exact ⟨hsound, ha.live, ha.op_eq, hothers⟩
  | some r =>
    -- A label changes neither operations nor arguments.
    have hinstr : ∀ j, ((p.1.setInstrLabel p.2 r.2).instr j).op = (p.1.instr j).op ∧
        ((p.1.setInstrLabel p.2 r.2).instr j).args = (p.1.instr j).args ∧
        ((p.1.setInstrLabel p.2 r.2).instr j).result = (p.1.instr j).result := by
      intro j
      rw [setInstrLabel, instr_modifyInstr]
      split <;> exact ⟨rfl, rfl, rfl⟩
    have hlinks := sameLinks_setInstrLabel p.1 p.2 r.2
    refine ⟨⟨hreached.setInstrLabel ha.live r.2, ha.canAppend, ?_,
      fun s hs => hlinks.live_iff.mpr (hsound.pending s hs), hsound.slots⟩,
      hlinks.live_iff.mpr ha.live, (hinstr p.2).1.trans ha.op_eq, fun j hj hne n hn => ?_⟩
    · refine ⟨ha.consistent.constant_ty, fun j v hv => ?_, fun j v hv => ?_⟩
      · exact ha.consistent.result_lt j v ((hinstr j).2.2 ▸ hv)
      · exact ha.consistent.result_origin j v ((hinstr j).2.2 ▸ hv)
    · rw [hlinks.size_instrs] at hj
      rw [(hinstr j).1] at hn
      refine (hothers j hj hne n hn).imp_left fun hs => ?_
      change (((p.1.setInstrLabel p.2 r.2).instr j).args.get n).isSome
      rw [(hinstr j).2.1]
      exact hs

/-! ### Local slots -/

/-- An access to local memory whose slot would end where no offset is. -/
def Overruns (f : Fragment) : Prop :=
  ∃ (i : InstrId) (v : ValueId) (bits : UInt32) (ty : Ty), f.Live i ∧
    ((f.instr i).op = .loadLocal ∨ (f.instr i).op = .storeLocal) ∧ (f.instr i).arg 0 = some v ∧
    (f.value v).constant? = some (.i32 bits) ∧ bits.toInt32.toInt + ty.bytes > maxLocalsSize

/-- Only an access to local memory at a constant offset asks for a slot. -/
theorem reserveLocal_cases (i : InstrId) (op : Opcode) (result : Option Ty) (args : List Ty)
    (f : Fragment) : reserveLocal i op result args f = .ok f ∨
      ∃ ty v bits, (op = .loadLocal ∨ op = .storeLocal) ∧ (f.instr i).arg 0 = some v ∧
        (f.value v).constant? = some (.i32 bits) ∧
        reserveLocal i op result args f = (f.reserveLocal ty bits.toInt32.toInt).map (·.1) := by
  unfold reserveLocal
  dsimp only
  split
  · next ty v hty hv =>
    split
    · next bits hbits =>
      refine .inr ⟨ty, v, bits, ?_, hv, hbits, rfl⟩
      split at hty
      · exact .inl rfl
      · exact .inr rfl
      · cases hty
    · exact .inl rfl
  · exact .inl rfl

/-- A slot that is made ends where an offset can, and only the end of a slot can be wrong. -/
theorem reserveLocal_outcome (f : Fragment) (ty : Ty) (offset : Int) :
    match (f.reserveLocal ty offset).map (·.1) with
    | .ok f' => f' = f ∨ offset + ty.bytes ≤ maxLocalsSize ∧ ∃ size,
        f' = { f with locals := f.locals.push ⟨ty, offset⟩, localsSize := size }
    | .error e => e = .overflow ∧ offset + ty.bytes > maxLocalsSize := by
  unfold Fragment.reserveLocal
  cases f.locals.findIdx? (· == { ty, offset }) with
  | some n => exact .inl rfl
  | none =>
    by_cases hend : offset + ty.bytes > maxLocalsSize
    · dsimp only
      rw [if_pos hend]
      exact ⟨rfl, hend⟩
    · dsimp only
      rw [if_neg hend]
      exact .inr ⟨Int.not_lt.mp hend, _, rfl⟩

theorem Sound.withSlot (h : Sound d) {ty : Ty} {offset size : Int}
    (hreached : Reached { d.fragment with
      locals := d.fragment.locals.push ⟨ty, offset⟩, localsSize := size })
    (hend : offset + ty.bytes ≤ maxLocalsSize) :
    Sound { d with fragment := { d.fragment with
      locals := d.fragment.locals.push ⟨ty, offset⟩, localsSize := size } } where
  reached := hreached
  canAppend := h.canAppend
  consistent := h.consistent.withLocals _ _
  pending := h.pending
  slots s hs := by
    rcases Array.mem_push.mp hs with hs | rfl
    · exact h.slots s hs
    · exact hend

/-- The slot of an access is made, or it is the access that cannot be. -/
theorem Sound.reserve {op : Opcode} (h : Sound d) (hi : d.fragment.Live i)
    (hop : (d.fragment.instr i).op = op) (result : Option Ty) (args : List Ty) :
    (∀ f, reserveLocal i op result args d.fragment = .ok f →
      Sound { d with fragment := f } ∧ Feeds d { d with fragment := f }) ∧
    ∀ e, reserveLocal i op result args d.fragment = .error e →
      e = .overflow ∧ Overruns d.fragment := by
  rcases reserveLocal_cases i op result args d.fragment
    with hsame | ⟨ty, v, bits, haccess, hv, hbits, heq⟩
  · rw [hsame]
    refine ⟨fun f hf => ?_, nofun⟩
    cases hf
    exact ⟨h, .refl d⟩
  · rw [heq]
    have hcases := reserveLocal_outcome d.fragment ty bits.toInt32.toInt
    have hreached : ∀ {f}, (d.fragment.reserveLocal ty bits.toInt32.toInt).map (·.1) = .ok f →
        Reached f := fun hf => h.reached.reserveLocal hf
    generalize (d.fragment.reserveLocal ty bits.toInt32.toInt).map (·.1) = made at hcases hreached ⊢
    cases made with
    | error e =>
      refine ⟨nofun, fun e' he => ?_⟩
      cases he
      exact ⟨hcases.1, i, v, bits, ty, hi, hop ▸ haccess, hv, hbits, hcases.2⟩
    | ok f' =>
      refine ⟨fun f hf => ?_, nofun⟩
      cases hf
      rcases hcases with rfl | ⟨hend, size, rfl⟩
      · exact ⟨h, .refl d⟩
      · exact ⟨h.withSlot (hreached rfl) hend, ⟨⟨⟨rfl, fun _ => rfl, fun _ => rfl, rfl, rfl,
          fun _ => rfl, fun _ => rfl, fun _ => rfl, fun _ => rfl, rfl⟩, fun _ => rfl, fun _ => rfl,
          fun _ => rfl, fun _ => rfl, Nat.le_refl _, fun _ _ => rfl, fun _ _ => rfl⟩,
          fun _ _ hm => hm, fun _ hr => hr⟩⟩

end Parser.Draft
end Recompiler.IR
