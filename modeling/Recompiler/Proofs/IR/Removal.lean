import Recompiler.Proofs.IR.Emit

/-!
Lists of uses, and the two changes that go by them: all uses of a value are redirected to another
one, and an instruction whose result is unused is taken out of its block.
-/
namespace Recompiler.IR.Fragment

variable {f f' f'' : Fragment} {b c : BlockId} {l l₁ l₂ : List InstrId} {i j : InstrId}

/-- Each value lists the argument positions that refer to it. -/
def UseLists (f : Fragment) : Prop :=
  ∀ (v : ValueId) (u : Use), u ∈ (f.value v).uses ↔ (f.instr u.instr).arg u.slot = some v

/-- Two instructions that differ in their arguments only. -/
structure SameButArgs (a b : Instr) : Prop where
  op_eq : b.op = a.op
  result_eq : b.result = a.result
  block_eq : b.block = a.block
  prev_eq : b.prev = a.prev
  next_eq : b.next = a.next
  removed_eq : b.removed = a.removed

theorem SameButArgs.refl (a : Instr) : SameButArgs a a := ⟨rfl, rfl, rfl, rfl, rfl, rfl⟩

theorem SameButArgs.trans {a b c : Instr} (h : SameButArgs a b) (h' : SameButArgs b c) :
    SameButArgs a c :=
  ⟨h'.op_eq.trans h.op_eq, h'.result_eq.trans h.result_eq, h'.block_eq.trans h.block_eq,
    h'.prev_eq.trans h.prev_eq, h'.next_eq.trans h.next_eq, h'.removed_eq.trans h.removed_eq⟩

theorem SameFrame.refl (f : Fragment) : SameFrame f f := ⟨rfl, rfl, rfl, rfl, rfl⟩

/-- An instruction that has an argument is there. -/
theorem lt_of_arg {n : Slot} {v : ValueId} (h : (f.instr i).arg n = some v) :
    i.index < f.instrs.size := by
  by_contra hlt
  have hdefault : f.instr i = default := by
    unfold instr
    rw [Array.getD_eq_getD_getElem?, Array.getElem?_eq_none (by omega)]
    rfl
  rw [hdefault] at h
  have hnone : ∀ n : Slot, (default : Instr).arg n = none := Slot.forall rfl rfl rfl
  rw [hnone] at h
  cases h

theorem value_eq_default {v : ValueId} (h : f.values.size ≤ v.index) : f.value v = default := by
  unfold value
  rw [Array.getD_eq_getD_getElem?, Array.getElem?_eq_none h]
  rfl

theorem UseLists.arg_lt (h : UseLists f) {n : Slot} {v : ValueId}
    (hv : (f.instr i).arg n = some v) : v.index < f.values.size := by
  by_contra hlt
  have hmem := (h v ⟨i, n⟩).mpr hv
  rw [value_eq_default (by omega)] at hmem
  cases hmem

/-- For a fragment that is written down, the lists are compared number by number. -/
theorem useLists_of_numbers
    (huses : ∀ n < f.values.size, ∀ u ∈ (f.value ⟨n⟩).uses,
      (f.instr u.instr).arg u.slot = some ⟨n⟩)
    (hargs : ∀ n < f.instrs.size, ∀ k : Slot, ∀ v ∈ (f.instr ⟨n⟩).arg k,
      ⟨⟨n⟩, k⟩ ∈ (f.value v).uses) : UseLists f := by
  intro v u
  constructor
  · intro hu
    by_cases hlt : v.index < f.values.size
    · exact huses v.index hlt u hu
    · rw [value_eq_default (by omega)] at hu
      cases hu
  · intro hv
    exact hargs u.instr.index (lt_of_arg hv) u.slot v hv

/-- A chain stays where only arguments change. -/
theorem Chain.sameButArgs (h : f.Chain b l) (hblocks : f'.blocks = f.blocks)
    (hsize : f'.instrs.size = f.instrs.size) (hi : ∀ i, SameButArgs (f.instr i) (f'.instr i)) :
    f'.Chain b l := by
  have hblock : f'.block b = f.block b := by
    unfold block
    rw [hblocks]
  refine h.congr ?_ (by rw [hblock]) (by rw [hblock]) ?_ fun i _ =>
    ⟨(hi i).prev_eq, (hi i).next_eq, (hi i).block_eq, (hi i).removed_eq⟩
  · rw [hblocks]
    exact h.block_lt
  · intro i hi
    rw [hsize]
    exact h.lt i hi

/-! ### Redirected uses -/

theorem instr_redirect (u : Use) (v : ValueId) (j : InstrId) :
    (f.redirect u v).instr j = if j = u.instr ∧ j.index < f.instrs.size then
      { f.instr j with args := Slot.put u.slot (some v) (f.instr j).args } else f.instr j := by
  unfold redirect
  rw [instr_modifyValue, instr_modifyInstr]

theorem value_redirect (u : Use) (v w : ValueId) :
    (f.redirect u v).value w = if w = v ∧ w.index < f.values.size then
      { f.value w with uses := (f.value w).uses ++ [u] } else f.value w := by
  unfold redirect
  rw [value_modifyValue, value_modifyInstr, size_values_modifyInstr]

/-- What redirecting a list of uses changes. -/
structure Redirects (f f' : Fragment) (us : List Use) (v : ValueId) : Prop where
  values : SameValues f f'
  frame : SameFrame f f'
  size_instrs : f'.instrs.size = f.instrs.size
  instr : ∀ j, SameButArgs (f.instr j) (f'.instr j)
  arg_eq : ∀ j n, (f'.instr j).arg n =
    if ⟨j, n⟩ ∈ us ∧ j.index < f.instrs.size then some v else (f.instr j).arg n
  uses_eq : ∀ w : ValueId, (f'.value w).uses =
    if w = v ∧ w.index < f.values.size then (f.value w).uses ++ us else (f.value w).uses

theorem redirects_foldl (us : List Use) (v : ValueId) (f : Fragment) :
    Redirects f (us.foldl (fun f u => f.redirect u v) f) us v := by
  induction us generalizing f with
  | nil =>
    refine ⟨.refl f, .refl f, rfl, fun _ => .refl _, fun j n => ?_, fun w => ?_⟩
    · simp
    · simp
  | cons u us ih =>
    have h := ih (f.redirect u v)
    have hsize : (f.redirect u v).instrs.size = f.instrs.size := by simp [redirect]
    have hvalues : SameValues f (f.redirect u v) :=
      sameValues_modifyUses v (· ++ [u]) (by simp only [redirect, modifyValue, modifyInstr])
    refine ⟨hvalues.trans h.values, ?_, h.size_instrs.trans hsize, fun j => ?_, fun j n => ?_,
      fun w => ?_⟩
    · have hframe : SameFrame f (f.redirect u v) := ⟨rfl, rfl, rfl, rfl, rfl⟩
      exact hframe.trans h.frame
    · refine SameButArgs.trans ?_ (h.instr j)
      rw [instr_redirect]
      split
      · exact ⟨rfl, rfl, rfl, rfl, rfl, rfl⟩
      · exact .refl _
    · rw [List.foldl_cons, h.arg_eq, hsize, instr_redirect]
      by_cases hlt : j.index < f.instrs.size
      · by_cases hmem : (⟨j, n⟩ : Use) ∈ us
        · simp [hmem, hlt]
        · by_cases hj : j = u.instr
          · subst hj
            by_cases hn : n = u.slot
            · subst hn
              simp [hmem, hlt, Instr.arg, Slot.get_put]
            · have hne : (⟨u.instr, n⟩ : Use) ≠ u := fun e => hn (congrArg Use.slot e)
              simp [hmem, hlt, Instr.arg, Slot.get_put, hn, hne]
          · have hne : (⟨j, n⟩ : Use) ≠ u := fun e => hj (congrArg Use.instr e)
            simp [hmem, hlt, hj, hne]
      · simp [hlt]
    · rw [List.foldl_cons, h.uses_eq, hvalues.size_eq, value_redirect]
      by_cases hw : w = v ∧ w.index < f.values.size
      · obtain ⟨rfl, hlt⟩ := hw
        simp [hlt]
      · simp [hw]

/-- The second fragment is the first one with `v` for `a` in all arguments. -/
structure Replaces (f f' : Fragment) (a v : ValueId) : Prop where
  values : SameValues f f'
  frame : SameFrame f f'
  size_instrs : f'.instrs.size = f.instrs.size
  instr : ∀ j, SameButArgs (f.instr j) (f'.instr j)
  arg_eq : ∀ j n, (f'.instr j).arg n = ((f.instr j).arg n).map fun w => if w = a then v else w
  uses : UseLists f'
  unused : (f'.value a).uses = []

theorem replaceUses_spec (h : UseLists f) {a v : ValueId} (ha : a.index < f.values.size)
    (hv : v.index < f.values.size) (hne : a ≠ v) (hty : f.ty a = f.ty v) :
    ∃ f', f.replaceUses a v = .ok f' ∧ Replaces f f' a v := by
  have hcleared : SameValues f (f.modifyValue a ({ · with uses := [] })) :=
    sameValues_modifyUses a (fun _ => []) rfl
  have hframe : SameFrame f (f.modifyValue a ({ · with uses := [] })) := ⟨rfl, rfl, rfl, rfl, rfl⟩
  have hr := redirects_foldl (f.value a).uses v (f.modifyValue a ({ · with uses := [] }))
  unfold replaceUses
  rw [if_neg hne, if_neg (not_not.mpr hty)]
  refine ⟨_, rfl, ?_⟩
  generalize (f.value a).uses.foldl (fun f u => f.redirect u v)
    (f.modifyValue a ({ · with uses := [] })) = f' at hr
  have harg : ∀ j n, (f'.instr j).arg n =
      ((f.instr j).arg n).map fun w => if w = a then v else w := by
    intro j n
    rw [hr.arg_eq]
    simp only [h a, instr_modifyValue, size_instrs_modifyValue]
    cases harg : (f.instr j).arg n with
    | none => simp
    | some w =>
      have hlt := lt_of_arg harg
      by_cases hw : w = a
      · simp [hw, hlt]
      · simp [hw]
  have huses : ∀ w, (f'.value w).uses = if w = a ∧ w.index < f.values.size then []
      else if w = v ∧ w.index < f.values.size then (f.value w).uses ++ (f.value a).uses
      else (f.value w).uses := by
    intro w
    rw [hr.uses_eq, value_modifyValue, size_values_modifyValue]
    by_cases hwa : w = a
    · subst hwa
      simp [ha, hne]
    · simp [hwa]
  refine ⟨hcleared.trans hr.values, hframe.trans hr.frame, hr.size_instrs, hr.instr, harg, ?_, ?_⟩
  · intro w u
    rw [harg, huses]
    have hold := h w u
    have holda := h a u
    by_cases hwa : w = a
    · subst hwa
      simp only [ha, and_self, if_true, List.not_mem_nil, false_iff, Option.map_eq_some_iff,
        not_exists, not_and]
      intro x _
      split
      · exact fun e => hne e.symm
      · next hx => exact hx
    · rw [if_neg fun e => hwa e.1]
      by_cases hwv : w = v
      · subst hwv
        rw [if_pos ⟨rfl, hv⟩, List.mem_append, hold, holda]
        cases (f.instr u.instr).arg u.slot with
        | none => simp
        | some x =>
          by_cases hx : x = a
          · simp [hx]
          · simp [hx]
      · rw [if_neg fun e => hwv e.1, hold]
        cases (f.instr u.instr).arg u.slot with
        | none => simp
        | some x =>
          by_cases hx : x = a
          · simp [hx, Ne.symm hwa, Ne.symm hwv]
          · simp [hx]
  · rw [huses, if_pos ⟨rfl, ha⟩]

/-! ### Removed instructions -/

theorem arg_clearArg (i : InstrId) (n : Slot) (j : InstrId) (k : Slot) :
    ((f.clearArg i n).instr j).arg k = if j = i ∧ k = n then none else (f.instr j).arg k := by
  rw [instr_clearArg]
  by_cases hlt : j.index < f.instrs.size
  · by_cases hj : j = i
    · rw [if_pos ⟨hj, hlt⟩, Instr.arg, Slot.get_put]
      simp [hj, Instr.arg]
    · rw [if_neg fun h => hj h.1, if_neg fun h => hj h.1]
  · have hnone : (f.instr j).arg k = none := by
      cases hv : (f.instr j).arg k with
      | none => rfl
      | some v => exact absurd (lt_of_arg hv) hlt
    rw [if_neg fun h => hlt h.2, hnone, ite_self]

theorem clearArgs_eq (f : Fragment) (i : InstrId) :
    f.clearArgs i = ((f.clearArg i 0).clearArg i 1).clearArg i 2 := by
  rw [clearArgs, show List.finRange 3 = [0, 1, 2] from rfl]
  simp only [List.foldl_cons, List.foldl_nil]

theorem arg_clearArgs (i j : InstrId) (k : Slot) :
    ((f.clearArgs i).instr j).arg k = if j = i then none else (f.instr j).arg k := by
  rw [clearArgs_eq]
  simp only [arg_clearArg]
  by_cases hj : j = i
  · revert k
    refine Slot.forall ?_ ?_ ?_ <;> simp [hj]
  · simp [hj]

theorem UseLists.clearArg (h : UseLists f) (i : InstrId) (n : Slot) :
    UseLists (f.clearArg i n) := by
  intro w u
  have hold := h w u
  have harg : ((f.clearArg i n).instr u.instr).arg u.slot =
      if u = ⟨i, n⟩ then none else (f.instr u.instr).arg u.slot := by
    obtain ⟨j, k⟩ := u
    simp only [arg_clearArg, Use.mk.injEq]
  rw [harg]
  cases ha : (f.instr i).arg n with
  | none =>
    have he : f.clearArg i n = f := by rw [Fragment.clearArg, ha]
    rw [he, hold]
    by_cases hu : u = ⟨i, n⟩
    · subst hu
      simp [ha]
    · rw [if_neg hu]
  | some v =>
    have hv := h.arg_lt ha
    have huses : ((f.clearArg i n).value w).uses =
        if w = v then (f.value w).uses.filter (· != ⟨i, n⟩) else (f.value w).uses := by
      rw [Fragment.clearArg, ha]
      simp only [value_modifyValue, value_modifyInstr, size_values_modifyInstr]
      by_cases hwv : w = v
      · simp [hwv, hv]
      · simp [hwv]
    rw [huses]
    by_cases hu : u = ⟨i, n⟩
    · subst hu
      by_cases hwv : w = v
      · simp [hwv]
      · simp only [hwv, if_false, if_true, hold, ha, Option.some.injEq, reduceCtorEq, iff_false]
        exact fun e => hwv e.symm
    · by_cases hwv : w = v
      · subst hwv
        simp [hu, hold]
      · simp [hwv, hu, hold]

theorem UseLists.clearArgs (h : UseLists f) (i : InstrId) : UseLists (f.clearArgs i) := by
  rw [clearArgs_eq]
  exact ((h.clearArg i 0).clearArg i 1).clearArg i 2

/-- What taking the arguments of `i` away leaves, whatever the lists of uses say. -/
structure Empties (f f' : Fragment) (i : InstrId) : Prop where
  values : SameValues f f'
  frame : SameFrame f f'
  size_instrs : f'.instrs.size = f.instrs.size
  instr : ∀ j, SameButArgs (f.instr j) (f'.instr j)
  args_eq : ∀ j, j ≠ i → (f'.instr j).args = (f.instr j).args

theorem Empties.trans (h : Empties f f' i) (h' : Empties f' f'' i) : Empties f f'' i where
  values := h.values.trans h'.values
  frame := h.frame.trans h'.frame
  size_instrs := h'.size_instrs.trans h.size_instrs
  instr j := (h.instr j).trans (h'.instr j)
  args_eq j hj := (h'.args_eq j hj).trans (h.args_eq j hj)

theorem empties_clearArg (f : Fragment) (i : InstrId) (n : Slot) :
    Empties f (f.clearArg i n) i where
  values := sameValues_clearArg f i n
  frame := by
    unfold Fragment.clearArg
    split <;> exact ⟨rfl, rfl, rfl, rfl, rfl⟩
  size_instrs := by
    unfold Fragment.clearArg
    split <;> simp
  instr j := by
    rw [instr_clearArg]
    split
    · exact ⟨rfl, rfl, rfl, rfl, rfl, rfl⟩
    · exact .refl _
  args_eq j hj := by rw [instr_clearArg, if_neg fun e => hj e.1]

theorem empties_clearArgs (f : Fragment) (i : InstrId) : Empties f (f.clearArgs i) i := by
  rw [clearArgs_eq]
  exact ((empties_clearArg f i 0).trans (empties_clearArg _ i 1)).trans (empties_clearArg _ i 2)

/-- What taking the arguments of `i` away changes. -/
structure Clears (f f' : Fragment) (i : InstrId) : Prop where
  values : SameValues f f'
  frame : SameFrame f f'
  size_instrs : f'.instrs.size = f.instrs.size
  instr : ∀ j, SameButArgs (f.instr j) (f'.instr j)
  args_eq : ∀ j, j ≠ i → (f'.instr j).args = (f.instr j).args
  uses : UseLists f'

theorem clears_clearArgs (h : UseLists f) (i : InstrId) : Clears f (f.clearArgs i) i := by
  have he := empties_clearArgs f i
  exact ⟨he.values, he.frame, he.size_instrs, he.instr, he.args_eq, h.clearArgs i⟩

/-- The neighbours of a removed instruction, joined. -/
def join (f : Fragment) (b : BlockId) (prev next : Option InstrId) : Fragment :=
  let f := match prev with
    | some p => f.modifyInstr p ({ · with next := next })
    | none => f.modifyBlock b ({ · with head := next })
  match next with
  | some n => f.modifyInstr n ({ · with prev := prev })
  | none => f.modifyBlock b ({ · with tail := prev })

theorem unlink_eq (f : Fragment) (i : InstrId) : ∃ p, f.unlink i =
    ((f.join (f.instr i).block (f.instr i).prev (f.instr i).next).setPoint p).modifyInstr i
      ({ · with prev := none, next := none, removed := true }) := by
  let joined := f.join (f.instr i).block (f.instr i).prev (f.instr i).next
  have h : f.unlink i = (if joined.point.after = some i then
      joined.setPoint { joined.point with after := (f.instr i).prev } else joined).modifyInstr i
      ({ · with prev := none, next := none, removed := true }) := rfl
  rw [h]
  split
  · exact ⟨_, rfl⟩
  · exact ⟨joined.point, rfl⟩

theorem block_join {prev next : Option InstrId} (hb : b.index < f.blocks.size) (c : BlockId) :
    (f.join b prev next).block c =
      if c = b then
        { f.block c with
          head := if prev = none then next else (f.block c).head
          tail := if next = none then prev else (f.block c).tail }
      else f.block c := by
  unfold join
  cases prev <;> cases next <;>
    simp only [block_modifyInstr, block_modifyBlock, size_blocks_modifyBlock,
      size_blocks_modifyInstr] <;>
    by_cases hc : c = b <;> simp [hc, hb]

theorem instr_join {prev next : Option InstrId}
    (hp : ∀ a, prev = some a → a.index < f.instrs.size)
    (hn : ∀ a, next = some a → a.index < f.instrs.size) (j : InstrId) :
    (f.join b prev next).instr j =
      { f.instr j with
        prev := if next = some j then prev else (f.instr j).prev
        next := if prev = some j then next else (f.instr j).next } := by
  unfold join
  cases prev with
  | none =>
    cases next with
    | none => simp
    | some n =>
      have hn := hn n rfl
      simp only [instr_modifyBlock, instr_modifyInstr, size_instrs_modifyBlock]
      by_cases hj : j = n
      · subst hj
        simp [hn]
      · simp [hj, Ne.symm hj]
  | some a =>
    have hp := hp a rfl
    cases next with
    | none =>
      simp only [instr_modifyBlock, instr_modifyInstr]
      by_cases hj : j = a
      · subst hj
        simp [hp]
      · simp [hj, Ne.symm hj]
    | some n =>
      have hn := hn n rfl
      simp only [instr_modifyInstr, size_instrs_modifyInstr]
      by_cases hj : j = a
      · subst hj
        by_cases hjn : j = n
        · subst hjn
          simp [hp]
        · simp [hp, hjn, Ne.symm hjn]
      · by_cases hjn : j = n
        · subst hjn
          simp [hn, hj, Ne.symm hj]
        · simp [hj, hjn, Ne.symm hj, Ne.symm hjn]

@[simp] theorem size_instrs_join (prev next : Option InstrId) :
    (f.join b prev next).instrs.size = f.instrs.size := by
  unfold join
  cases prev <;> cases next <;> simp

@[simp] theorem size_blocks_join (prev next : Option InstrId) :
    (f.join b prev next).blocks.size = f.blocks.size := by
  unfold join
  cases prev <;> cases next <;> simp

theorem Chain.neighbour_lt (h : Chain f b (l₁ ++ i :: l₂)) :
    (∀ a, l₁.getLast? = some a → a.index < f.instrs.size) ∧
      ∀ a, l₂.head? = some a → a.index < f.instrs.size := by
  constructor
  · intro a ha
    exact h.lt a (by simp [List.mem_of_getLast? ha])
  · intro a ha
    exact h.lt a (by simp [List.mem_of_head? ha])

/-- The instructions around a removed one are linked to each other. -/
theorem Chain.instr_unlink (h : Chain f b (l₁ ++ i :: l₂)) {j : InstrId} (hj : j ≠ i) :
    (f.unlink i).instr j =
      { f.instr j with
        prev := if l₂.head? = some j then l₁.getLast? else (f.instr j).prev
        next := if l₁.getLast? = some j then l₂.head? else (f.instr j).next } := by
  obtain ⟨p, hp⟩ := unlink_eq f i
  rw [hp, instr_modifyInstr, if_neg fun e => hj e.1, h.prev_eq l₁ i l₂ rfl, h.next_eq l₁ i l₂ rfl]
  exact instr_join h.neighbour_lt.1 h.neighbour_lt.2 j

theorem Chain.block_unlink (h : Chain f b (l₁ ++ i :: l₂)) (c : BlockId) :
    (f.unlink i).block c =
      if c = b then
        { f.block c with
          head := if l₁.getLast? = none then l₂.head? else (f.block c).head
          tail := if l₂.head? = none then l₁.getLast? else (f.block c).tail }
      else f.block c := by
  obtain ⟨p, hp⟩ := unlink_eq f i
  rw [hp, block_modifyInstr, h.prev_eq l₁ i l₂ rfl, h.next_eq l₁ i l₂ rfl,
    h.block_eq i (by simp)]
  exact block_join h.block_lt c

theorem size_unlink (f : Fragment) (i : InstrId) :
    (f.unlink i).instrs.size = f.instrs.size ∧ (f.unlink i).blocks.size = f.blocks.size := by
  obtain ⟨p, hp⟩ := unlink_eq f i
  rw [hp]
  simp [setPoint]

/-- Taking an instruction out of its block takes it out of the list. -/
theorem Chain.unlink (h : Chain f b (l₁ ++ i :: l₂)) : Chain (f.unlink i) b (l₁ ++ l₂) := by
  have hblock := h.block_unlink b
  rw [if_pos rfl] at hblock
  have hnodup := List.perm_middle.nodup_iff.mp h.nodup
  rw [List.nodup_cons] at hnodup
  have hne : ∀ j ∈ l₁ ++ l₂, j ≠ i := fun j hj e => hnodup.1 (e ▸ hj)
  have hold : ∀ j ∈ l₁ ++ l₂, j ∈ l₁ ++ i :: l₂ := by
    intro j hj
    simp only [List.mem_append, List.mem_cons] at hj ⊢
    tauto
  -- An instruction that stays lies in front of `i` or behind it.
  have hsplit : ∀ a j c, l₁ ++ l₂ = a ++ j :: c →
      (∃ d, l₁ = a ++ j :: d ∧ c = d ++ l₂) ∨ ∃ d, l₂ = d ++ j :: c ∧ a = l₁ ++ d := by
    intro a j c e
    rcases List.append_eq_append_iff.mp e with ⟨d, rfl, hd⟩ | ⟨d, rfl, hd⟩
    · exact .inr ⟨d, hd, rfl⟩
    · cases d with
      | nil => exact .inr ⟨[], hd.symm, by simp⟩
      | cons x d =>
        simp only [List.cons_append, List.cons.injEq] at hd
        obtain ⟨rfl, rfl⟩ := hd
        exact .inl ⟨d, rfl, rfl⟩
  refine ⟨by rw [(size_unlink f i).2]; exact h.block_lt, ?_, ?_, ?_, ?_, hnodup.2, ?_, ?_, ?_⟩
  · rw [hblock]
    cases l₁ with
    | nil => simp
    | cons a l₁ =>
      have := h.head_eq
      simp_all
  · rw [hblock]
    cases l₂ with
    | nil => simp
    | cons n l₂ =>
      have := h.tail_eq
      simp_all
  · intro a j c e
    rw [h.instr_unlink (hne j (by rw [e]; simp))]
    dsimp only
    rcases hsplit a j c e with ⟨d, rfl, rfl⟩ | ⟨d, rfl, rfl⟩
    · have hj : j ∉ l₂ := fun hm =>
        (List.nodup_append.mp hnodup.2).2.2 j (by simp) j hm rfl
      rw [if_neg fun e => hj (List.mem_of_head? e)]
      exact h.prev_eq a j (d ++ i :: l₂) (by simp)
    · cases d with
      | nil => simp
      | cons x d =>
        have hxj : x ≠ j := by
          have := (List.nodup_append.mp hnodup.2).2.1
          simp only [List.cons_append, List.nodup_cons] at this
          rintro rfl
          exact this.1 (by simp)
        rw [if_neg (by simpa using hxj), h.prev_eq (l₁ ++ i :: x :: d) j c (by simp)]
        simp [List.getLast?_append, List.getLast?_cons]
  · intro a j c e
    rw [h.instr_unlink (hne j (by rw [e]; simp))]
    dsimp only
    rcases hsplit a j c e with ⟨d, rfl, rfl⟩ | ⟨d, rfl, rfl⟩
    · rcases List.eq_nil_or_concat d with rfl | ⟨d, x, rfl⟩
      · simp
      · rw [List.concat_eq_append] at *
        have hxj : x ≠ j := by
          have := (List.nodup_append.mp hnodup.2).1
          rw [List.perm_middle.nodup_iff, List.nodup_cons] at this
          rintro rfl
          exact this.1 (by simp)
        have hlast : (a ++ j :: (d ++ [x])).getLast? = some x := by
          rw [← List.cons_append, ← List.append_assoc, List.getLast?_concat]
        rw [hlast, if_neg (by simpa using hxj), h.next_eq a j (d ++ [x] ++ i :: l₂) (by simp)]
        cases d <;> simp
    · have hj : j ∉ l₁ := fun hm =>
        (List.nodup_append.mp hnodup.2).2.2 j hm j (by simp) rfl
      rw [if_neg fun e => hj (List.mem_of_getLast? e)]
      exact h.next_eq (l₁ ++ i :: d) j c (by simp)
  · intro j hj
    rw [(size_unlink f i).1]
    exact h.lt j (hold j hj)
  · intro j hj
    rw [h.instr_unlink (hne j hj)]
    exact h.block_eq j (hold j hj)
  · intro j hj
    rw [h.instr_unlink (hne j hj)]
    exact h.live j (hold j hj)

/-- The other blocks keep their lists. -/
theorem Chain.unlink_other (hc : Chain f c l) (hcb : c ≠ b) (h : Chain f b (l₁ ++ i :: l₂)) :
    Chain (f.unlink i) c l := by
  have hblock := h.block_unlink c
  rw [if_neg hcb] at hblock
  have hout : ∀ j ∈ l, j ∉ l₁ ++ i :: l₂ := by
    intro j hj hm
    exact hcb ((hc.block_eq j hj).symm.trans (h.block_eq j hm))
  refine hc.congr (by rw [(size_unlink f i).2]; exact hc.block_lt) (by rw [hblock])
    (by rw [hblock]) (fun j hj => by rw [(size_unlink f i).1]; exact hc.lt j hj) (fun j hj => ?_)
  have hji : j ≠ i := by
    rintro rfl
    exact hout j hj (by simp)
  have hnext : l₂.head? ≠ some j := fun e => hout j hj (by simp [List.mem_of_head? e])
  have hprev : l₁.getLast? ≠ some j := fun e => hout j hj (by simp [List.mem_of_getLast? e])
  rw [h.instr_unlink hji]
  simp [hnext, hprev]

theorem instr_unlink_same (f : Fragment) (i j : InstrId) :
    ((f.unlink i).instr j).op = (f.instr j).op ∧ ((f.unlink i).instr j).args = (f.instr j).args ∧
      ((f.unlink i).instr j).result = (f.instr j).result := by
  have hjoin : ∀ prev next, ((f.join (f.instr i).block prev next).instr j).op = (f.instr j).op ∧
      ((f.join (f.instr i).block prev next).instr j).args = (f.instr j).args ∧
      ((f.join (f.instr i).block prev next).instr j).result = (f.instr j).result := by
    intro prev next
    unfold join
    cases prev <;> cases next <;>
      simp only [instr_modifyInstr, instr_modifyBlock] <;> repeat' split
    all_goals simp
  obtain ⟨p, hp⟩ := unlink_eq f i
  rw [hp, instr_modifyInstr]
  split
  · exact hjoin _ _
  · exact hjoin _ _

theorem unlink_frame (f : Fragment) (i : InstrId) : (f.unlink i).values = f.values ∧
    (f.unlink i).order = f.order ∧ (f.unlink i).localsSize = f.localsSize ∧
    (f.unlink i).locals = f.locals := by
  obtain ⟨p, hp⟩ := unlink_eq f i
  rw [hp]
  unfold join
  cases (f.instr i).prev <;> cases (f.instr i).next <;> exact ⟨rfl, rfl, rfl, rfl⟩

theorem value_unlink (f : Fragment) (i : InstrId) (v : ValueId) :
    (f.unlink i).value v = f.value v := by
  rw [value, (unlink_frame f i).1, value]

theorem arg_unlink (f : Fragment) (i j : InstrId) (n : Slot) :
    ((f.unlink i).instr j).arg n = (f.instr j).arg n := by
  rw [Instr.arg, (instr_unlink_same f i j).2.1, Instr.arg]

/-- The second fragment is the first one without `i`, which stood between `l₁` and `l₂` in `b`. -/
structure Removes (f f' : Fragment) (b : BlockId) (l₁ : List InstrId) (i : InstrId)
    (l₂ : List InstrId) : Prop where
  values : SameValues f f'
  order_eq : f'.order = f.order
  localsSize_eq : f'.localsSize = f.localsSize
  locals_eq : f'.locals = f.locals
  edges_eq : ∀ c, (f'.block c).edges = (f.block c).edges
  chain : f'.Chain b (l₁ ++ l₂)
  chain_other : ∀ c l, c ≠ b → f.Chain c l → f'.Chain c l
  op_eq : ∀ j, (f'.instr j).op = (f.instr j).op
  result_eq : ∀ j, (f'.instr j).result = (f.instr j).result
  args_eq : ∀ j, j ≠ i → (f'.instr j).args = (f.instr j).args
  uses : UseLists f'

theorem removeInstr_spec (h : UseLists f) (hc : f.Chain b (l₁ ++ i :: l₂))
    (hunused : ∀ v, (f.instr i).result = some v → (f.value v).uses = []) :
    ∃ f', f.removeInstr i = .ok f' ∧ Removes f f' b l₁ i l₂ := by
  have hclear := clears_clearArgs h i
  have hany : ((f.instr i).result.any fun v => !(f.value v).uses.isEmpty) = false := by
    cases hr : (f.instr i).result with
    | none => rfl
    | some v => simp [hunused v hr]
  have hchain : ∀ c l, f.Chain c l → (f.clearArgs i).Chain c l := fun c l hl =>
    hl.sameButArgs hclear.frame.blocks_eq hclear.size_instrs hclear.instr
  obtain ⟨hvalues, horder, hsize, hlocals⟩ := unlink_frame (f.clearArgs i) i
  have hsame := instr_unlink_same (f.clearArgs i) i
  refine ⟨(f.clearArgs i).unlink i, ?_, ?_, ?_, ?_, ?_, ?_, (hchain b _ hc).unlink, ?_, ?_, ?_, ?_,
    ?_⟩
  · rw [removeInstr, hc.live i (by simp), hany]
    rfl
  · refine hclear.values.trans ⟨by rw [hvalues], fun v => ?_, fun v => ?_, fun v => ?_⟩ <;>
      rw [value_unlink]
  · exact horder.trans hclear.frame.order_eq
  · exact hsize.trans hclear.frame.localsSize_eq
  · exact hlocals.trans hclear.frame.locals_eq
  · intro c
    have hblock : (f.clearArgs i).block c = f.block c := by
      unfold block
      rw [hclear.frame.blocks_eq]
    rw [(hchain b _ hc).block_unlink, hblock]
    split <;> rfl
  · intro c l hcb hl
    exact (hchain c l hl).unlink_other hcb (hchain b _ hc)
  · intro j
    exact (hsame j).1.trans (hclear.instr j).op_eq
  · intro j
    exact (hsame j).2.2.trans (hclear.instr j).result_eq
  · intro j hj
    exact (hsame j).2.1.trans (hclear.args_eq j hj)
  · intro v u
    rw [value_unlink, arg_unlink]
    exact hclear.uses v u

end Recompiler.IR.Fragment
