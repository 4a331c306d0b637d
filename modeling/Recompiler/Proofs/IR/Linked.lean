import Recompiler.Proofs.IR.Removal
import Recompiler.Proofs.IR.Requests

/-!
The links, use lists and program order of a fragment agree after every sequence of requests.
-/
namespace Recompiler.IR.Fragment

variable {f f' f'' : Fragment} {b c : BlockId} {l l₁ l₂ : List InstrId} {i j : InstrId}

/-- Blocks hold exactly the live instructions, values list exactly the positions that refer to
them, and the insert point stands behind a live instruction of its block. -/
structure Linked (f : Fragment) : Prop where
  chain : ∀ b : BlockId, b.index < f.blocks.size → ∃ l, f.Chain b l
  listed : ∀ i, f.Live i → ∃ l, f.Chain (f.instr i).block l ∧ i ∈ l
  uses : UseLists f
  uses_nodup : ∀ v, (f.value v).uses.Nodup
  cleared : ∀ i, (f.instr i).removed = true → ∀ n, (f.instr i).arg n = none
  order_perm : f.order.Perm ((List.range f.blocks.size).map BlockId.mk)
  point : ∀ b a, f.point.block = some b → f.point.after = some a →
    f.Live a ∧ (f.instr a).block = b

theorem Chain.unique (h : f.Chain b l) (h' : f.Chain b l₁) : l = l₁ :=
  h.blockInstrs_eq.symm.trans h'.blockInstrs_eq

theorem Chain.mem_live (h : f.Chain b l) (hi : i ∈ l) : f.Live i := ⟨h.lt i hi, h.live i hi⟩

theorem linked_empty : Linked empty where
  chain b hb := absurd hb (Nat.not_lt_zero _)
  listed i hi := absurd hi.1 (Nat.not_lt_zero _)
  uses v u := by
    have hnone : ∀ n : Slot, (default : Instr).arg n = none := Slot.forall rfl rfl rfl
    change u ∈ [] ↔ (default : Instr).arg u.slot = some v
    rw [hnone]
    simp
  uses_nodup v := List.nodup_nil
  cleared i hi := by cases hi
  order_perm := .refl _
  point b a hb := by cases hb

/-! ### Requests that keep the links -/

/-- Two fragments have the same blocks with the same instructions in them, and the same insert
point. -/
structure SameLinks (f f' : Fragment) : Prop where
  size_blocks : f'.blocks.size = f.blocks.size
  head_eq : ∀ b, (f'.block b).head = (f.block b).head
  tail_eq : ∀ b, (f'.block b).tail = (f.block b).tail
  order_eq : f'.order = f.order
  size_instrs : f'.instrs.size = f.instrs.size
  prev_eq : ∀ i, (f'.instr i).prev = (f.instr i).prev
  next_eq : ∀ i, (f'.instr i).next = (f.instr i).next
  block_eq : ∀ i, (f'.instr i).block = (f.instr i).block
  removed_eq : ∀ i, (f'.instr i).removed = (f.instr i).removed
  point_eq : f'.point = f.point

theorem Chain.sameLinks (h : f.Chain b l) (hs : SameLinks f f') : f'.Chain b l :=
  h.congr (hs.size_blocks ▸ h.block_lt) (hs.head_eq b) (hs.tail_eq b)
    (fun i hi => hs.size_instrs ▸ h.lt i hi) fun i _ =>
      ⟨hs.prev_eq i, hs.next_eq i, hs.block_eq i, hs.removed_eq i⟩

theorem SameLinks.live_iff (hs : SameLinks f f') : f'.Live i ↔ f.Live i := by
  unfold Live
  rw [hs.size_instrs, hs.removed_eq]

/-- What is left to show of a change that keeps the links. -/
theorem Linked.sameLinks (h : Linked f) (hs : SameLinks f f') (huses : UseLists f')
    (hnodup : ∀ v, (f'.value v).uses.Nodup)
    (hcleared : ∀ i, (f.instr i).removed = true → ∀ n, (f'.instr i).arg n = none) :
    Linked f' where
  chain b hb := by
    obtain ⟨l, hl⟩ := h.chain b (hs.size_blocks ▸ hb)
    exact ⟨l, hl.sameLinks hs⟩
  listed i hi := by
    obtain ⟨l, hl, hm⟩ := h.listed i (hs.live_iff.mp hi)
    rw [hs.block_eq]
    exact ⟨l, hl.sameLinks hs, hm⟩
  uses := huses
  uses_nodup := hnodup
  cleared i hi := hcleared i (hs.removed_eq i ▸ hi)
  order_perm := by
    rw [hs.order_eq, hs.size_blocks]
    exact h.order_perm
  point b a hb ha := by
    rw [hs.point_eq] at hb ha
    rw [hs.live_iff, hs.block_eq]
    exact h.point b a hb ha

/-- Neither the arguments of an instruction nor the uses of a value change. -/
structure SameUses (f f' : Fragment) : Prop where
  uses_eq : ∀ v, (f'.value v).uses = (f.value v).uses
  args_eq : ∀ i, (f'.instr i).args = (f.instr i).args

theorem SameUses.arg_eq (h : SameUses f f') (i : InstrId) (n : Slot) :
    (f'.instr i).arg n = (f.instr i).arg n := congrArg (·.get n) (h.args_eq i)

theorem SameUses.useLists (h : SameUses f f') (hu : UseLists f) : UseLists f' := by
  intro v u
  rw [h.uses_eq, h.arg_eq]
  exact hu v u

theorem Linked.congr (h : Linked f) (hs : SameLinks f f') (hu : SameUses f f') : Linked f' := by
  refine h.sameLinks hs (hu.useLists h.uses) (fun v => ?_) fun i hi n => ?_
  · rw [hu.uses_eq]
    exact h.uses_nodup v
  · rw [hu.arg_eq]
    exact h.cleared i hi n

theorem value_addValue (val : Value) (v : ValueId) :
    (f.addValue val).1.value v = if v.index = f.values.size then val else f.value v := by
  change (f.values.push val).getD v.index default = _
  rcases Nat.lt_trichotomy v.index f.values.size with hv | hv | hv
  · rw [if_neg (Nat.ne_of_lt hv)]
    exact getD_push_lt _ _ _ hv
  · rw [if_pos hv, hv]
    exact getD_push_self _ _ _
  · rw [if_neg (Nat.ne_of_gt hv), value_eq_default (Nat.le_of_lt hv),
      Array.getD_eq_getD_getElem?, Array.getElem?_eq_none (by simpa using hv)]
    rfl

/-- A new value is not used yet. -/
theorem uses_addValue {val : Value} (hval : val.uses = []) (v : ValueId) :
    ((f.addValue val).1.value v).uses = (f.value v).uses := by
  rw [value_addValue]
  split
  · next hv =>
    rw [hval, value_eq_default (Nat.le_of_eq hv.symm)]
    rfl
  · rfl

theorem Linked.addConstant (h : Linked f) (c : Constant) : Linked (f.addConstant c).1 :=
  h.congr ⟨rfl, fun _ => rfl, fun _ => rfl, rfl, rfl, fun _ => rfl, fun _ => rfl, fun _ => rfl,
    fun _ => rfl, rfl⟩ ⟨uses_addValue rfl, fun _ => rfl⟩

theorem Linked.modifyBlock (h : Linked f) (b : BlockId) {g : Block → Block}
    (hhead : ∀ blk, (g blk).head = blk.head) (htail : ∀ blk, (g blk).tail = blk.tail) :
    Linked (f.modifyBlock b g) := by
  refine h.congr ⟨size_blocks_modifyBlock f b g, fun c => ?_, fun c => ?_, rfl, rfl, fun _ => rfl,
    fun _ => rfl, fun _ => rfl, fun _ => rfl, rfl⟩ ⟨fun _ => rfl, fun _ => rfl⟩
  · rw [block_modifyBlock]
    split
    · exact hhead _
    · rfl
  · rw [block_modifyBlock]
    split
    · exact htail _
    · rfl

theorem Linked.addEdge (h : Linked f) (a b : BlockId) : Linked (f.addEdge a b) := by
  refine h.modifyBlock a (fun blk => ?_) fun blk => ?_ <;> split <;> rfl

theorem Linked.setInstrLabel (h : Linked f) (i : InstrId) (label : String) :
    Linked (f.setInstrLabel i label) := by
  have hinstr : ∀ j, SameButArgs (f.instr j) ((f.setInstrLabel i label).instr j) ∧
      ((f.setInstrLabel i label).instr j).args = (f.instr j).args := by
    intro j
    rw [Fragment.setInstrLabel, instr_modifyInstr]
    split
    · exact ⟨⟨rfl, rfl, rfl, rfl, rfl, rfl⟩, rfl⟩
    · exact ⟨.refl _, rfl⟩
  exact h.congr ⟨rfl, fun _ => rfl, fun _ => rfl, rfl, size_instrs_modifyInstr f i _,
    fun j => (hinstr j).1.prev_eq, fun j => (hinstr j).1.next_eq, fun j => (hinstr j).1.block_eq,
    fun j => (hinstr j).1.removed_eq, rfl⟩ ⟨fun _ => rfl, fun j => (hinstr j).2⟩

theorem Linked.allocLocal {ty : Ty} {slot : LocalId} (h : Linked f)
    (hok : f.allocLocal ty = .ok (f', slot)) : Linked f' := by
  unfold Fragment.allocLocal at hok
  dsimp only at hok
  split_ifs at hok
  cases hok
  exact h.congr ⟨rfl, fun _ => rfl, fun _ => rfl, rfl, rfl, fun _ => rfl, fun _ => rfl,
    fun _ => rfl, fun _ => rfl, rfl⟩ ⟨fun _ => rfl, fun _ => rfl⟩

theorem Linked.reserveLocal {ty : Ty} {offset : Int} {slot : LocalId} (h : Linked f)
    (hok : f.reserveLocal ty offset = .ok (f', slot)) : Linked f' := by
  unfold Fragment.reserveLocal at hok
  split at hok
  · cases hok
    exact h
  · split_ifs at hok
    cases hok
    exact h.congr ⟨rfl, fun _ => rfl, fun _ => rfl, rfl, rfl, fun _ => rfl, fun _ => rfl,
      fun _ => rfl, fun _ => rfl, rfl⟩ ⟨fun _ => rfl, fun _ => rfl⟩

/-! ### Insert points -/

theorem Linked.setPoint (h : Linked f) {p : InsertPoint}
    (hp : ∀ b a, p.block = some b → p.after = some a → f.Live a ∧ (f.instr a).block = b) :
    Linked (f.setPoint p) where
  chain b hb := by
    obtain ⟨l, hl⟩ := h.chain b hb
    exact ⟨l, hl.setPoint p⟩
  listed i hi := by
    obtain ⟨l, hl, hm⟩ := h.listed i hi
    exact ⟨l, hl.setPoint p, hm⟩
  uses := h.uses
  uses_nodup := h.uses_nodup
  cleared := h.cleared
  order_perm := h.order_perm
  point := hp

theorem Linked.atEndOf (h : Linked f) (hb : b.index < f.blocks.size) : Linked (f.atEndOf b) := by
  obtain ⟨l, hl⟩ := h.chain b hb
  refine h.setPoint fun c a hc ha => ?_
  cases hc
  have hm : a ∈ l := List.mem_of_getLast? (hl.tail_eq.symm.trans ha)
  exact ⟨hl.mem_live hm, hl.block_eq a hm⟩

theorem Linked.afterInstr (h : Linked f) (hi : f.Live i) : Linked (f.afterInstr i) := by
  refine h.setPoint fun c a hc ha => ?_
  cases hc
  cases ha
  exact ⟨hi, rfl⟩

theorem Linked.beforeInstr (h : Linked f) (hi : f.Live i) : Linked (f.beforeInstr i) := by
  obtain ⟨l, hl, hm⟩ := h.listed i hi
  obtain ⟨l₁, l₂, rfl⟩ := List.append_of_mem hm
  refine h.setPoint fun c a hc ha => ?_
  cases hc
  have ha : a ∈ l₁ := List.mem_of_getLast? ((hl.prev_eq l₁ i l₂ rfl).symm.trans ha)
  exact ⟨hl.mem_live (by simp [ha]), hl.block_eq a (by simp [ha])⟩

/-! ### Blocks -/

theorem block_push_lt {order : List BlockId} (hb : b.index < f.blocks.size) :
    ({ f with blocks := f.blocks.push {}, order } : Fragment).block b = f.block b :=
  getD_push_lt _ _ _ hb

theorem Chain.pushBlock {order : List BlockId} (h : f.Chain b l) :
    ({ f with blocks := f.blocks.push {}, order } : Fragment).Chain b l := by
  have hblock : ({ f with blocks := f.blocks.push {}, order } : Fragment).block b = f.block b :=
    block_push_lt h.block_lt
  refine h.congr ?_ (by rw [hblock]) (by rw [hblock]) h.lt fun _ _ => ⟨rfl, rfl, rfl, rfl⟩
  simpa using Nat.lt_succ_of_lt h.block_lt

/-- A block that is new has no instructions. -/
theorem Linked.pushBlock (h : Linked f) {order : List BlockId}
    (horder : order.Perm (f.order ++ [⟨f.blocks.size⟩])) :
    Linked { f with blocks := f.blocks.push {}, order } where
  chain b hb := by
    rcases Nat.lt_succ_iff_lt_or_eq.mp (by simpa using hb) with hlt | heq
    · obtain ⟨l, hl⟩ := h.chain b hlt
      exact ⟨l, hl.pushBlock⟩
    · have hblock : ({ f with blocks := f.blocks.push {}, order } : Fragment).block b = {} := by
        unfold block
        rw [heq]
        exact getD_push_self _ _ _
      exact ⟨[], hb, by rw [hblock]; rfl, by rw [hblock]; rfl, by simp, by simp, List.nodup_nil,
        by simp, by simp, by simp⟩
  listed i hi := by
    obtain ⟨l, hl, hm⟩ := h.listed i hi
    exact ⟨l, hl.pushBlock, hm⟩
  uses := h.uses
  uses_nodup := h.uses_nodup
  cleared := h.cleared
  order_perm := by
    rw [Array.size_push, List.range_succ, List.map_append]
    exact horder.trans (h.order_perm.append_right _)
  point := h.point

theorem insertAfter_perm (a b : BlockId) (l : List BlockId) :
    (insertAfter a b l).Perm (l ++ [b]) := by
  induction l with
  | nil => exact .refl _
  | cons x l ih =>
    unfold insertAfter
    split
    · exact .cons x (List.perm_append_singleton b l).symm
    · exact .cons x ih

theorem Linked.appendBlock (h : Linked f) : Linked f.appendBlock.1 := h.pushBlock (.refl _)

theorem Linked.insertBlockAfter (h : Linked f) (a : BlockId) :
    Linked (f.insertBlockAfter a).1 := h.pushBlock (insertAfter_perm a _ _)

/-! ### Arguments -/

theorem SameFrame.sameLinks (hframe : SameFrame f f') (hsize : f'.instrs.size = f.instrs.size)
    (hi : ∀ i, SameButArgs (f.instr i) (f'.instr i)) : SameLinks f f' := by
  have hblock : ∀ b, f'.block b = f.block b := by
    intro b
    unfold block
    rw [hframe.blocks_eq]
  exact ⟨congrArg Array.size hframe.blocks_eq, fun b => by rw [hblock], fun b => by rw [hblock],
    hframe.order_eq, hsize, fun i => (hi i).prev_eq, fun i => (hi i).next_eq,
    fun i => (hi i).block_eq, fun i => (hi i).removed_eq, hframe.point_eq⟩

theorem uses_clearArg (i : InstrId) (n : Slot) (v : ValueId) :
    ((f.clearArg i n).value v).uses.Sublist (f.value v).uses := by
  unfold Fragment.clearArg
  split
  · simp only [value_modifyValue, value_modifyInstr]
    split
    · exact List.filter_sublist
    · exact .refl _
  · exact .refl _

theorem Linked.clearArg (h : Linked f) (i : InstrId) (n : Slot) : Linked (f.clearArg i n) := by
  have hc := empties_clearArg f i n
  refine h.sameLinks (hc.frame.sameLinks hc.size_instrs hc.instr) (h.uses.clearArg i n)
    (fun v => (uses_clearArg i n v).nodup (h.uses_nodup v)) fun j hj m => ?_
  rw [arg_clearArg]
  split
  · rfl
  · exact h.cleared j hj m

theorem Linked.clearArgs (h : Linked f) (i : InstrId) : Linked (f.clearArgs i) := by
  rw [clearArgs_eq]
  exact ((h.clearArg i 0).clearArg i 1).clearArg i 2

/-- A position that is empty is filled. -/
theorem Linked.fillArg (h : Linked f) {n : Slot} {v : ValueId} (hi : f.Live i)
    (hv : v.index < f.values.size) (hnone : (f.instr i).arg n = none) :
    Linked (f.redirect ⟨i, n⟩ v) := by
  have hinstr : ∀ j, SameButArgs (f.instr j) ((f.redirect ⟨i, n⟩ v).instr j) := by
    intro j
    rw [instr_redirect]
    split
    · exact ⟨rfl, rfl, rfl, rfl, rfl, rfl⟩
    · exact .refl _
  have harg : ∀ j m, ((f.redirect ⟨i, n⟩ v).instr j).arg m =
      if (⟨j, m⟩ : Use) = ⟨i, n⟩ then some v else (f.instr j).arg m := by
    intro j m
    rw [instr_redirect]
    by_cases hj : j = i
    · subst hj
      rw [if_pos ⟨rfl, hi.1⟩, Instr.arg, Slot.get_put]
      simp [Instr.arg]
    · simp [hj]
  have hmem : ∀ w, (⟨i, n⟩ : Use) ∉ (f.value w).uses := by
    intro w hw
    have := (h.uses w ⟨i, n⟩).mp hw
    rw [hnone] at this
    cases this
  have hframe : SameFrame f (f.redirect ⟨i, n⟩ v) := ⟨rfl, rfl, rfl, rfl, rfl⟩
  refine h.sameLinks (hframe.sameLinks (by simp [redirect]) hinstr) ?_ ?_ ?_
  · rintro w u
    rw [value_redirect, harg]
    by_cases hu : u = ⟨i, n⟩
    · subst hu
      by_cases hw : w = v
      · subst hw
        simp [hv]
      · simp [hw, hmem, Ne.symm hw]
    · have hu' : (⟨u.instr, u.slot⟩ : Use) ≠ ⟨i, n⟩ := hu
      rw [if_neg hu', ← h.uses w u]
      by_cases hw : w = v
      · simp [hw, hv, hu]
      · simp [hw]
  · intro w
    rw [value_redirect]
    split
    · exact List.nodup_append.mpr ⟨h.uses_nodup w, List.nodup_singleton _, by
        rintro u hu _ hu' rfl
        rw [List.mem_singleton.mp hu'] at hu
        exact hmem w hu⟩
    · exact h.uses_nodup w
  · intro j hj m
    rw [harg, if_neg]
    · exact h.cleared j hj m
    · intro e
      cases e
      rw [hi.2] at hj
      cases hj

theorem live_clearArg {n : Slot} : (f.clearArg j n).Live i ↔ f.Live i := by
  have hsize : (f.clearArg j n).instrs.size = f.instrs.size := by
    unfold Fragment.clearArg
    split <;> simp
  unfold Live
  rw [hsize, instr_clearArg]
  split <;> rfl

theorem Linked.setArg (h : Linked f) {n : Slot} {v : ValueId} (hi : f.Live i)
    (hv : v.index < f.values.size) : Linked (f.setArg i n v) :=
  (h.clearArg i n).fillArg (live_clearArg.mpr hi)
    (by rw [(sameValues_clearArg f i n).size_eq]; exact hv)
    (by rw [arg_clearArg, if_pos ⟨rfl, rfl⟩])

theorem Linked.replaceUses {a v : ValueId} (h : Linked f) (ha : a.index < f.values.size)
    (hv : v.index < f.values.size) (hok : f.replaceUses a v = .ok f') : Linked f' := by
  have hne : a ≠ v := by
    rintro rfl
    simp [Fragment.replaceUses] at hok
  have hty : f.ty a = f.ty v := by
    by_contra hty
    simp [Fragment.replaceUses, hne, hty] at hok
  obtain ⟨g, hg, hr⟩ := replaceUses_spec h.uses ha hv hne hty
  cases hg.symm.trans hok
  have huses : f' = (f.value a).uses.foldl (fun f u => f.redirect u v)
      (f.modifyValue a ({ · with uses := [] })) := by
    unfold Fragment.replaceUses at hok
    rw [if_neg hne, if_neg (not_not.mpr hty)] at hok
    exact (Except.ok.inj hok).symm
  refine h.sameLinks (hr.frame.sameLinks hr.size_instrs hr.instr) hr.uses (fun w => ?_)
    fun i hi n => ?_
  · rw [huses, (redirects_foldl _ v _).uses_eq, size_values_modifyValue, value_modifyValue]
    by_cases hwa : w = a
    · subst hwa
      simp [hne, ha]
    · by_cases hwv : w = v
      · subst hwv
        simp only [hwa, hv, true_and, if_true, false_and, if_false]
        refine List.nodup_append.mpr ⟨h.uses_nodup w, h.uses_nodup a, ?_⟩
        rintro u hu _ hu' rfl
        exact hwa (Option.some.inj (((h.uses w u).mp hu).symm.trans ((h.uses a u).mp hu')))
      · simp only [hwa, hwv, false_and, if_false]
        exact h.uses_nodup w
  · rw [hr.arg_eq, h.cleared i hi n]
    rfl

/-! ### Emission -/

/-- Making room for an instruction keeps a fragment linked. -/
theorem Linked.ensureBlock (h : Linked f) : Linked f.ensureBlock.1 := by
  unfold Fragment.ensureBlock
  split
  · exact h
  · exact h.appendBlock.setPoint fun _ _ _ ha => by cases ha

theorem appendInstr_ensureBlock (op : Opcode) (ty : Option Ty) :
    f.appendInstr op ty = f.ensureBlock.1.appendInstr op ty := by
  unfold Fragment.ensureBlock
  split
  · rfl
  · next hp =>
    unfold appendInstr Fragment.ensureBlock
    rw [hp]
    rfl

theorem canAppend_iff : f.canAppend = true ↔ ∀ b, f.point.block = some b →
    b.index < f.blocks.size := by
  unfold canAppend
  cases f.point.block <;> simp

theorem ensureBlock_block (h : f.canAppend) :
    ∃ b, f.ensureBlock.1.point.block = some b ∧ b.index < f.ensureBlock.1.blocks.size := by
  unfold Fragment.ensureBlock
  split
  · next b hb => exact ⟨b, hb, canAppend_iff.mp h b hb⟩
  · exact ⟨⟨f.blocks.size⟩, rfl, by simp [Fragment.appendBlock, Fragment.setPoint]⟩

/-- The insert point of a linked fragment splits the list of its block. -/
theorem Linked.split (h : Linked f) (hb : f.point.block = some b)
    (hlt : b.index < f.blocks.size) :
    ∃ l₁ l₂, f.Chain b (l₁ ++ l₂) ∧ f.point = ⟨some b, l₁.getLast?⟩ := by
  cases ha : f.point.after with
  | none =>
    obtain ⟨l, hl⟩ := h.chain b hlt
    refine ⟨[], l, hl, ?_⟩
    rw [← hb, List.getLast?_nil, ← ha]
  | some a =>
    obtain ⟨hlive, rfl⟩ := h.point b a hb ha
    obtain ⟨l, hl, hm⟩ := h.listed a hlive
    obtain ⟨l₁, l₂, rfl⟩ := List.append_of_mem hm
    refine ⟨l₁ ++ [a], l₂, by simpa using hl, ?_⟩
    rw [← hb, List.getLast?_concat, ← ha]

theorem instr_linkAfter_same (after : Option InstrId) (j : InstrId) :
    ((f.linkAfter b after i).instr j).args = (f.instr j).args ∧
      ((f.linkAfter b after i).instr j).block = (f.instr j).block ∧
      ((f.linkAfter b after i).instr j).removed = (f.instr j).removed := by
  unfold linkAfter
  dsimp only
  split <;> split <;> simp only [instr_modifyInstr, instr_modifyBlock, size_instrs_modifyInstr,
    size_instrs_modifyBlock] <;> repeat' split
  all_goals exact ⟨rfl, rfl, rfl⟩

theorem arg_eq_none (h : f.instrs.size ≤ i.index) (n : Slot) : (f.instr i).arg n = none := by
  cases hn : (f.instr i).arg n with
  | none => rfl
  | some v => exact absurd (lt_of_arg hn) (Nat.not_lt.mpr h)

/-- An instruction that is emitted stands in its block, and the others stay as they are. -/
theorem Linked.appendInstr_at (h : Linked f) (op : Opcode) (ty : Option Ty)
    (hchain : f.Chain b (l₁ ++ l₂)) (hp : f.point = ⟨some b, l₁.getLast?⟩) :
    Linked (f.appendInstr op ty).1 ∧ (f.appendInstr op ty).1.Live ⟨f.instrs.size⟩ := by
  have he := emitted_appendInstr hchain hp op ty
  have hfresh : (f.appendInstr op ty).1.Live ⟨f.instrs.size⟩ := he.chain.mem_live (by simp)
  have hvalue : ∀ v, ((f.appendInstr op ty).1.value v).uses = (f.value v).uses := by
    intro v
    rw [appendInstr_eq op ty hp, linkAfter_eq]
    cases ty with
    | none => rfl
    | some t => exact uses_addValue rfl v
  have hinstr : ∀ j : InstrId, j.index < f.instrs.size →
      ((f.appendInstr op ty).1.instr j).args = (f.instr j).args ∧
      ((f.appendInstr op ty).1.instr j).block = (f.instr j).block ∧
      ((f.appendInstr op ty).1.instr j).removed = (f.instr j).removed := by
    intro j hj
    have hlink := instr_linkAfter_same (f := f.withInstr op ty b) (b := b) (i := ⟨f.instrs.size⟩)
      l₁.getLast? j
    rw [instr_withInstr_lt op ty b hj] at hlink
    rw [appendInstr_eq op ty hp]
    exact hlink
  have hcases : ∀ j, (f.appendInstr op ty).1.Live j → f.Live j ∨ j = ⟨f.instrs.size⟩ := by
    intro j hj
    rcases Nat.lt_succ_iff_lt_or_eq.mp (he.size_instrs ▸ hj.1) with hlt | heq
    · exact .inl ⟨hlt, (hinstr j hlt).2.2 ▸ hj.2⟩
    · exact .inr (InstrId.ext_index heq)
  have hargs : ∀ j n, ((f.appendInstr op ty).1.instr j).arg n = (f.instr j).arg n := by
    intro j n
    rcases Nat.lt_trichotomy j.index f.instrs.size with hlt | heq | hgt
    · exact congrArg (·.get n) (hinstr j hlt).1
    · rw [arg_eq_none (Nat.le_of_eq heq.symm),
        InstrId.ext_index (j := ⟨f.instrs.size⟩) heq, he.arg_eq,
        List.getElem?_nil]
    · rw [arg_eq_none (Nat.le_of_lt hgt), arg_eq_none (by rw [he.size_instrs]; omega)]
  refine ⟨⟨?_, ?_, ?_, ?_, ?_, ?_, ?_⟩, hfresh⟩
  · intro c hc
    by_cases hcb : c = b
    · exact ⟨_, hcb ▸ he.chain⟩
    · obtain ⟨l, hl⟩ := h.chain c (he.size_blocks ▸ hc)
      exact ⟨l, he.chains c l hcb hl⟩
  · intro j hj
    rcases hcases j hj with hold | rfl
    · obtain ⟨l, hl, hm⟩ := h.listed j hold
      rw [(hinstr j hold.1).2.1]
      by_cases hjb : (f.instr j).block = b
      · rw [hjb] at hl ⊢
        have hsame := hl.unique hchain
        refine ⟨_, he.chain, ?_⟩
        rw [hsame] at hm
        simp only [List.mem_append, List.mem_cons] at hm ⊢
        tauto
      · exact ⟨l, he.chains _ l hjb hl, hm⟩
    · rw [he.chain.block_eq _ (by simp)]
      exact ⟨_, he.chain, by simp⟩
  · intro v u
    rw [hvalue, hargs]
    exact h.uses v u
  · intro v
    rw [hvalue]
    exact h.uses_nodup v
  · intro j hj n
    rw [hargs]
    by_cases hlt : j.index < f.instrs.size
    · exact h.cleared j ((hinstr j hlt).2.2 ▸ hj) n
    · exact arg_eq_none (by omega) n
  · rw [he.order_eq, he.size_blocks]
    exact h.order_perm
  · intro c a hc ha
    rw [he.point_eq] at hc ha
    cases hc
    cases ha
    exact ⟨hfresh, he.chain.block_eq _ (by simp)⟩

theorem Linked.appendInstr (h : Linked f) (hopen : f.canAppend) (op : Opcode) (ty : Option Ty) :
    Linked (f.appendInstr op ty).1 ∧
      (f.appendInstr op ty).1.Live (f.appendInstr op ty).2 ∧
      (f.appendInstr op ty).1.canAppend ∧
      f.values.size ≤ (f.appendInstr op ty).1.values.size := by
  obtain ⟨b, hb, hlt⟩ := ensureBlock_block hopen
  obtain ⟨l₁, l₂, hchain, hp⟩ := h.ensureBlock.split hb hlt
  have hvalues : f.ensureBlock.1.values = f.values := by
    unfold Fragment.ensureBlock
    split <;> rfl
  have he := emitted_appendInstr hchain hp op ty
  have hid : (f.ensureBlock.1.appendInstr op ty).2 = ⟨f.ensureBlock.1.instrs.size⟩ := by
    rw [appendInstr_eq op ty hp]
  rw [appendInstr_ensureBlock, hid]
  obtain ⟨hlinked, hlive⟩ := h.ensureBlock.appendInstr_at op ty hchain hp
  refine ⟨hlinked, hlive, canAppend_iff.mpr ?_, ?_⟩
  · intro c hc
    rw [he.point_eq] at hc
    cases hc
    exact he.chain.block_lt
  · rw [← hvalues]
    exact he.grows.values_le

/-! ### Removal -/

theorem point_unlink (f : Fragment) (i : InstrId) : (f.unlink i).point =
    if f.point.after = some i then { f.point with after := (f.instr i).prev } else f.point := by
  have hjoin : ∀ b prev next, (f.join b prev next).point = f.point := by
    intro b prev next
    unfold join
    cases prev <;> cases next <;> rfl
  let joined := f.join (f.instr i).block (f.instr i).prev (f.instr i).next
  have hj : joined.point = f.point := hjoin _ _ _
  have h : f.unlink i = (if joined.point.after = some i then
      joined.setPoint { joined.point with after := (f.instr i).prev } else joined).modifyInstr i
      ({ · with prev := none, next := none, removed := true }) := rfl
  rw [h, hj]
  split
  · rfl
  · exact hj

/-- What is linked to a block and what is removed once `i` is taken out. -/
theorem instr_unlink_status (f : Fragment) (hi : i.index < f.instrs.size) (j : InstrId) :
    ((f.unlink i).instr j).block = (f.instr j).block ∧
      ((f.unlink i).instr j).removed = (if j = i then true else (f.instr j).removed) := by
  have hjoin : ∀ prev next, ((f.join (f.instr i).block prev next).instr j).block =
    (f.instr j).block ∧
      ((f.join (f.instr i).block prev next).instr j).removed = (f.instr j).removed := by
    intro prev next
    unfold join
    cases prev <;> cases next <;>
      simp only [instr_modifyInstr, instr_modifyBlock] <;> repeat' split
    all_goals simp
  obtain ⟨p, hp⟩ := unlink_eq f i
  rw [hp, instr_modifyInstr]
  by_cases hj : j = i
  · subst hj
    rw [if_pos ⟨rfl, by simpa [Fragment.setPoint] using hi⟩, if_pos rfl]
    exact ⟨(hjoin _ _).1, rfl⟩
  · rw [if_neg fun e => hj e.1, if_neg hj]
    exact hjoin _ _

theorem Linked.unlink (h : Linked f) (hi : f.Live i) (hargs : ∀ n, (f.instr i).arg n = none) :
    Linked (f.unlink i) := by
  obtain ⟨l, hl, hm⟩ := h.listed i hi
  obtain ⟨l₁, l₂, rfl⟩ := List.append_of_mem hm
  have hstatus := instr_unlink_status f hi.1
  obtain ⟨hsize, hblocks⟩ := size_unlink f i
  obtain ⟨-, horder, -⟩ := unlink_frame f i
  have hlive : ∀ j, (f.unlink i).Live j ↔ f.Live j ∧ j ≠ i := by
    intro j
    unfold Live
    rw [hsize, (hstatus j).2]
    by_cases hj : j = i <;> simp [hj]
  have hnodup := hl.nodup
  rw [List.perm_middle.nodup_iff, List.nodup_cons] at hnodup
  refine ⟨?_, ?_, ?_, ?_, ?_, ?_, ?_⟩
  · intro c hc
    by_cases hcb : c = (f.instr i).block
    · exact ⟨_, hcb ▸ hl.unlink⟩
    · obtain ⟨l', hl'⟩ := h.chain c (hblocks ▸ hc)
      exact ⟨l', hl'.unlink_other hcb hl⟩
  · intro j hj
    obtain ⟨hold, hne⟩ := (hlive j).mp hj
    obtain ⟨l', hl', hm'⟩ := h.listed j hold
    rw [(hstatus j).1]
    by_cases hjb : (f.instr j).block = (f.instr i).block
    · rw [hjb] at hl' ⊢
      refine ⟨_, hl.unlink, ?_⟩
      rw [hl'.unique hl] at hm'
      simp only [List.mem_append, List.mem_cons] at hm' ⊢
      tauto
    · exact ⟨l', hl'.unlink_other hjb hl, hm'⟩
  · intro v u
    rw [value_unlink, arg_unlink]
    exact h.uses v u
  · intro v
    rw [value_unlink]
    exact h.uses_nodup v
  · intro j hj n
    rw [arg_unlink]
    by_cases hji : j = i
    · rw [hji]
      exact hargs n
    · rw [(hstatus j).2, if_neg hji] at hj
      exact h.cleared j hj n
  · rw [horder, hblocks]
    exact h.order_perm
  · intro c a hc ha
    rw [point_unlink] at hc ha
    rw [hlive, (hstatus a).1]
    by_cases hp : f.point.after = some i
    · rw [if_pos hp] at hc ha
      obtain ⟨-, hblock⟩ := h.point c i hc hp
      have hmem : a ∈ l₁ := List.mem_of_getLast? ((hl.prev_eq l₁ i l₂ rfl).symm.trans ha)
      refine ⟨⟨hl.mem_live (by simp [hmem]), ?_⟩, (hl.block_eq a (by simp [hmem])).trans hblock⟩
      rintro rfl
      exact hnodup.1 (by simp [hmem])
    · rw [if_neg hp] at hc ha
      obtain ⟨hold, hblock⟩ := h.point c a hc ha
      refine ⟨⟨hold, ?_⟩, hblock⟩
      rintro rfl
      exact hp ha

theorem Linked.removeInstr (h : Linked f) (hi : i.index < f.instrs.size)
    (hok : f.removeInstr i = .ok f') : Linked f' := by
  have hlive : (f.instr i).removed = false := by
    by_contra hr
    unfold Fragment.removeInstr at hok
    rw [if_pos (eq_true_of_ne_false hr)] at hok
    cases hok
  have heq : f' = (f.clearArgs i).unlink i := by
    unfold Fragment.removeInstr at hok
    dsimp only at hok
    split_ifs at hok
    exact (Except.ok.inj hok).symm
  have hc := clears_clearArgs h.uses i
  have hnone : ∀ n, ((f.clearArgs i).instr i).arg n = none := by
    intro n
    rw [arg_clearArgs, if_pos rfl]
  have hstill : (f.clearArgs i).Live i := by
    refine ⟨?_, (hc.instr i).removed_eq.trans hlive⟩
    rw [hc.size_instrs]
    exact hi
  rw [heq]
  exact (h.clearArgs i).unlink hstill hnone

end Recompiler.IR.Fragment
