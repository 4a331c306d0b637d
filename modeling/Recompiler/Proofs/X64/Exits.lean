import Recompiler.Proofs.IR.Substitution
import Recompiler.Proofs.X64.Landing

/-!
Numbers of exits in machine code. The code of a branch to a constant address has one way out of the
block, which writes the address to the pc and leaves with its number. A jump to the way out is no
longer than a displacement, so there are too few exits for their numbers to reach the one of
computed targets.
-/
namespace Recompiler.X64

open IR

/-! ### Code of one branch -/

/-- Code without labels and jumps. -/
def Assembly.Straight (a : Assembly) : Prop := ∀ l ∈ a, ∃ i, l = .instr i

theorem straight_loadSource (dst : Gpr) (s : Source) : Assembly.Straight (loadSource dst s) := by
  intro l hl
  unfold loadSource at hl
  split at hl
  · exact ⟨_, List.mem_singleton.mp hl⟩
  · split at hl
    · cases hl
    · exact ⟨_, List.mem_singleton.mp hl⟩
  · exact ⟨_, List.mem_singleton.mp hl⟩

theorem Assembly.Straight.jump_not_mem {a : Assembly} (h : a.Straight) (cond : Option Cond)
    (target : Label) : .jump cond target ∉ a := by
  intro hmem
  obtain ⟨i, hi⟩ := h _ hmem
  cases hi

namespace Lowering

variable {c : Lowering} {i : InstrId} {a : UInt32} {slot : Nat} {lines : Assembly}

theorem straight_argGpr (c : Lowering) (i : InstrId) (n : Slot) (dst : Gpr) :
    Yields Assembly.Straight (c.argGpr i n dst) :=
  yields_bind fun _ => yields_bind fun s => yields_ok (straight_loadSource dst s)

variable (c) in
/-- Leave for a constant address with its number. -/
def exitLines (a : UInt32) (slot : Nat) : Assembly :=
  [.instr (.storeImm ctxReg (offset32 c.offsets.pc) a.toInt32)] ++ leave slot.toUInt64

/-- Code whose only way out of the block leaves for a constant address with its number. -/
def LeavesBy (c : Lowering) (lines : Assembly) (a : UInt32) (slot : Nat) : Prop :=
  ∃ head tail, lines = head ++ c.exitLines a slot ++ tail ∧
    (∀ cond, .jump cond .epilogue ∉ head) ∧ ∀ cond, .jump cond .epilogue ∉ tail

theorem goto_constant {v : ValueId} (op : Opcode)
    (hv : (c.fragment.value v).constant? = some (.i32 a)) (hslot : Exit.slot c.exits a = .ok slot) :
    c.goto op v = .ok (c.exitLines a slot) := by
  unfold goto
  rw [hv]
  dsimp only
  rw [hslot]
  rfl

theorem arg_eq_ok {n : Slot} {v : ValueId} (h : (c.fragment.instr i).arg n = some v) :
    c.arg i n = .ok v := by
  unfold arg
  dsimp only
  rw [h]

theorem operation_of_instr (h : c.instr i = .ok lines) :
    ∃ ty, c.operation i (c.fragment.instr i).op ty = .ok lines := by
  have hany : ∀ ty : Ty, (if ty.isVector then Assembling.unsupported (c.fragment.instr i).op.name ty
      else c.operation i (c.fragment.instr i).op ty) = .ok lines →
        ∃ ty, c.operation i (c.fragment.instr i).op ty = .ok lines := by
    intro ty h
    split at h
    · cases h
    · exact ⟨ty, h⟩
  exact hany _ h

theorem exists_of_address? {f : Fragment} (ha : Exit.address? f i = some a) :
    ∃ v, Exit.target? (f.instr i) = some v ∧ (f.value v).constant? = some (.i32 a) := by
  unfold Exit.address? at ha
  obtain ⟨v, htarget, ha⟩ := Option.bind_eq_some_iff.mp ha
  refine ⟨v, htarget, ?_⟩
  split at ha
  case h_1 hconst =>
    cases ha
    exact hconst
  case h_2 => cases ha

theorem leavesBy_branchIf {op : Opcode} {v : ValueId} (h : c.branchIf i op = .ok lines)
    (harg : (c.fragment.instr i).arg 1 = some v)
    (hv : (c.fragment.value v).constant? = some (.i32 a)) (hslot : Exit.slot c.exits a = .ok slot) :
    c.LeavesBy lines a slot := by
  unfold branchIf at h
  obtain ⟨test, htest, h⟩ := Interp.bind_eq_ok h
  obtain ⟨target, htarget, h⟩ := Interp.bind_eq_ok h
  rw [arg_eq_ok harg] at htarget
  cases htarget
  dsimp only at h
  rw [hv] at h
  dsimp only at h
  rw [goto_constant op hv hslot] at h
  cases h
  refine ⟨test ++ [.instr (.test true tmp0 tmp0)] ++
    [.jump (some (if op == .branchTrue then Cond.ne else Cond.e).invert) (.inside i 0)],
    [.label (.inside i 0)], rfl, ?_, ?_⟩
  · intro cond hmem
    rw [List.append_assoc] at hmem
    obtain hmem | hmem := List.mem_append.mp hmem
    · exact (c.straight_argGpr i 0 tmp0 test htest).jump_not_mem cond _ hmem
    · simp at hmem
  · intro cond hmem
    simp at hmem

/-- A branch to a constant address leaves with the number that the address has. -/
theorem leavesBy_instr (h : c.instr i = .ok lines) (ha : Exit.address? c.fragment i = some a)
    (hslot : Exit.slot c.exits a = .ok slot) : c.LeavesBy lines a slot := by
  obtain ⟨v, htarget, hv⟩ := exists_of_address? ha
  obtain ⟨ty, h⟩ := operation_of_instr h
  unfold Exit.target? at htarget
  cases hop : (c.fragment.instr i).op with
  | branch =>
    rw [hop] at htarget h
    unfold operation at h
    obtain ⟨target, harg, h⟩ := Interp.bind_eq_ok h
    rw [arg_eq_ok htarget] at harg
    cases harg
    rw [goto_constant _ hv hslot] at h
    cases h
    exact ⟨[], [], by simp, by simp, by simp⟩
  | branchTrue | branchFalse =>
    rw [hop] at htarget h
    exact leavesBy_branchIf h htarget hv hslot
  | _ =>
    rw [hop] at htarget
    cases htarget

/-! ### The number of exits -/

theorem length_statics_le (f : Fragment) :
    (Exit.statics f).length ≤ (f.allInstrs.filterMap (Exit.address? f)).length := by
  have hadd : ∀ as exits : List UInt32,
      (as.foldl (fun exits a => if exits.contains a then exits else exits ++ [a]) exits).length ≤
        exits.length + as.length := by
    intro as
    induction as with
    | nil => simp
    | cons a as ih =>
      intro exits
      rw [List.foldl_cons, List.length_cons]
      apply (ih _).trans
      split
      · omega
      · rw [List.length_append, List.length_singleton]
        omega
  have hall := hadd (f.allInstrs.filterMap (Exit.address? f)) []
  rw [List.length_nil, Nat.zero_add] at hall
  exact hall

variable (c) in
/-- The constant address that an item leaves for. -/
def exit? : BlockId ⊕ InstrId → Option UInt32
  | .inl _ => none
  | .inr i => Exit.address? c.fragment i

theorem filterMap_items : c.items.filterMap c.exit? =
    c.fragment.allInstrs.filterMap (Exit.address? c.fragment) := by
  unfold items Fragment.allInstrs
  rw [List.filterMap_flatMap, List.filterMap_flatMap]
  congr 1
  funext b
  change ((c.fragment.blockInstrs b).map Sum.inr).filterMap c.exit? = _
  rw [List.filterMap_map]
  rfl

theorem mem_allInstrs_of_items (h : .inr i ∈ c.items) : i ∈ c.fragment.allInstrs := by
  unfold items at h
  obtain ⟨b, hb, h⟩ := List.mem_flatMap.mp h
  refine List.mem_flatMap.mpr ⟨b, hb, ?_⟩
  simpa using h

theorem mem_items_of_allInstrs (h : i ∈ c.fragment.allInstrs) : .inr i ∈ c.items := by
  obtain ⟨b, hb, h⟩ := List.mem_flatMap.mp h
  refine List.mem_flatMap.mpr ⟨b, hb, ?_⟩
  simpa using h

theorem size_exitLines (c : Lowering) (a : UInt32) (slot : Nat) :
    (c.exitLines a slot).size = Assembly.size [.instr (.storeImm ctxReg (offset32 c.offsets.pc)
      a.toInt32), .instr (.movImm tmp0 slot.toUInt64)] + 5 := by
  have hjump : (Line.jump none .epilogue).size = 5 := by decide
  unfold exitLines leave
  simp only [Assembly.size, List.cons_append, List.nil_append, hjump]
  omega

section
variable (hexits : c.exits = Exit.statics c.fragment)
  (hinstrs : ∀ i ∈ c.fragment.allInstrs, c.instr i = .ok (c.lines i))
include hexits hinstrs

/-- The code of each constant exit. -/
theorem exists_leavesBy (hi : i ∈ c.fragment.allInstrs) (ha : Exit.address? c.fragment i = some a) :
    ∃ slot, (Exit.statics c.fragment)[slot]? = some a ∧ c.LeavesBy (c.lines i) a slot := by
  obtain ⟨slot, hslot, hget⟩ := Meaning.slot_eq_ok (Meaning.mem_statics hi ha)
  rw [← hexits] at hslot
  exact ⟨slot, hget, leavesBy_instr (hinstrs i hi) ha hslot⟩

/-- Each constant exit takes the bytes of its jump. -/
theorem exits_le_size {l : List (BlockId ⊕ InstrId)} (hl : ∀ x ∈ l, x ∈ c.items) :
    5 * (l.filterMap c.exit?).length ≤ Assembly.size (l.flatMap c.itemLines) := by
  induction l with
  | nil => exact Nat.zero_le _
  | cons x l ih =>
    have hrest := ih fun y hy => hl y (List.mem_cons_of_mem x hy)
    rw [List.flatMap_cons, Assembly.size_append, List.filterMap_cons]
    cases hx : c.exit? x with
    | none =>
      dsimp only
      omega
    | some a =>
      cases x with
      | inl b => cases hx
      | inr i =>
        have hi := mem_allInstrs_of_items (hl (.inr i) List.mem_cons_self)
        obtain ⟨slot, -, head, tail, hlines, -⟩ := exists_leavesBy hexits hinstrs hi hx
        have hsize : 5 ≤ Assembly.size (c.lines i) := by
          rw [hlines, Assembly.size_append, Assembly.size_append, size_exitLines]
          omega
        change 5 * (l.filterMap c.exit?).length.succ ≤ Assembly.size (c.lines i) + _
        omega

end

/-- The number of a constant exit stands in the code. -/
theorem layout_of_leavesBy (hi : i ∈ c.fragment.allInstrs) (h : c.LeavesBy (c.lines i) a slot) :
    ∃ pre post, c.layout = pre ++ .instr (.movImm tmp0 slot.toUInt64) :: post := by
  obtain ⟨head, tail, hlines, -⟩ := h
  obtain ⟨earlier, later, hitems⟩ := List.append_of_mem (mem_items_of_allInstrs hi)
  refine ⟨c.prologue ++ earlier.flatMap c.itemLines ++ head ++
    [.instr (.storeImm ctxReg (offset32 c.offsets.pc) a.toInt32)],
    .jump none .epilogue :: (tail ++ later.flatMap c.itemLines ++ c.ending), ?_⟩
  unfold layout
  rw [hitems, List.flatMap_append, List.flatMap_cons]
  change _ ++ (_ ++ (c.lines i ++ _)) ++ _ = _
  rw [hlines]
  simp [exitLines, leave]

/-- The way out stands behind all operations. -/
theorem size_of_epilogue {before after : Assembly}
    (h : c.layout = before ++ .label .epilogue :: after) :
    Assembly.size (c.prologue ++ c.items.flatMap c.itemLines) ≤ before.size := by
  cases place_of_split h with
  | exit hbefore =>
    rw [hbefore, Assembly.size_append _ [_]]
    exact Nat.le_add_right ..
  | @operation _ _ i x _ _ _ _ hlines _ =>
    have howner : ∃ n, Label.epilogue = .inside i n :=
      (forward_lines i).label (hlines ▸ List.mem_append_right x List.mem_cons_self)
    obtain ⟨n, hn⟩ := howner
    cases hn

/-- Code whose jumps reach the way out has few exits. -/
theorem length_statics_lt {code : CodeBuffer} {start : Nat}
    (hexits : c.exits = Exit.statics c.fragment)
    (hinstrs : ∀ i ∈ c.fragment.allInstrs, c.instr i = .ok (c.lines i))
    (hstands : Stands code start c.layout) :
    (Exit.statics c.fragment).length < dynamicExit.toNat := by
  have hcount := length_statics_le c.fragment
  rw [← filterMap_items] at hcount
  have hdynamic : dynamicExit.toNat = 2 ^ 32 - 1 := rfl
  cases hall : c.items.filterMap c.exit? with
  | nil =>
    rw [hall] at hcount
    rw [hdynamic]
    exact Nat.lt_of_le_of_lt hcount (by decide)
  | cons a rest =>
    obtain ⟨earlier, item, later, hitems, -, hitem, hrest⟩ := List.filterMap_eq_cons_iff.mp hall
    cases item with
    | inl b => cases hitem
    | inr i =>
      have hmem : ∀ x ∈ earlier ++ .inr i :: later, x ∈ c.items := fun x hx => hitems ▸ hx
      have hi := mem_allInstrs_of_items (hmem (.inr i) (by simp))
      obtain ⟨slot, -, head, tail, hlines, -⟩ := exists_leavesBy hexits hinstrs hi hitem
      -- the jump of the first exit goes over the code of all others
      obtain ⟨pre, hpre⟩ : ∃ pre : Assembly,
          pre = c.prologue ++ earlier.flatMap c.itemLines ++ head ++
        [.instr (.storeImm ctxReg (offset32 c.offsets.pc) a.toInt32),
          .instr (.movImm tmp0 slot.toUInt64)] := ⟨_, rfl⟩
      have hbody : c.prologue ++ c.items.flatMap c.itemLines =
          pre ++ .jump none .epilogue :: (tail ++ later.flatMap c.itemLines) := by
        rw [hitems, List.flatMap_append, List.flatMap_cons]
        change _ ++ (_ ++ (c.lines i ++ _)) = _
        rw [hlines]
        simp [hpre, exitLines, leave]
      have hlayout : c.layout = pre ++ .jump none .epilogue ::
          (tail ++ later.flatMap c.itemLines ++ c.ending) := by
        unfold layout
        rw [hbody]
        simp
      obtain ⟨disp, before, after, -, hlabel, -, hdisp⟩ := hstands.jump _ _ _ _ hlayout
      have hbefore := size_of_epilogue hlabel
      have hjump : (Line.jump none .epilogue).size = 5 := by decide
      have hlater := exits_le_size hexits hinstrs (l := later)
        fun x hx => hmem x (List.mem_append_right _ (List.mem_cons_of_mem _ hx))
      have hdisp' := disp.toInt_lt
      rw [hbody, Assembly.size_append, Assembly.size, Assembly.size_append, hjump] at hbefore
      rw [hjump] at hdisp
      rw [hrest] at hlater
      rw [hall, List.length_cons] at hcount
      omega

end Lowering

namespace Backend

variable {b b' : Backend} {addr a : UInt32} {f : Fragment} {handle : Nat} {i : InstrId}

/-- The machine code of a branch to a constant address leaves with the number of the address, and
that is not the number of computed targets. The number stands in the bytes of the block. -/
theorem emits_exit (h : b.assemble addr f = (b', .ok handle)) (hi : i ∈ f.allInstrs)
    (ha : Exit.address? f i = some a) : ∃ c slot lines pos,
      Lowering.ofFragment b.offsets f = .ok c ∧
      (Exit.statics f)[slot]? = some a ∧ slot < dynamicExit.toNat ∧
      c.instr i = .ok lines ∧ c.LeavesBy lines a slot ∧
      b.used ≤ pos ∧ pos + (Instruction.movImm tmp0 slot.toUInt64).bytes.length ≤ b'.used ∧
      b'.buffer.view pos (pos + (Instruction.movImm tmp0 slot.toUInt64).bytes.length) =
        (Instruction.movImm tmp0 slot.toUInt64).bytes := by
  obtain ⟨c, _, hc, hcode, hstands, hused, -⟩ := stands_assemble h
  obtain ⟨rfl, hinstrs⟩ := Lowering.code_eq_layout hcode
  obtain rfl := Lowering.fragment_ofFragment hc
  have hexits := Lowering.exits_ofFragment hc
  obtain ⟨slot, hget, hleaves⟩ := Lowering.exists_leavesBy hexits hinstrs hi ha
  have hlt : slot < dynamicExit.toNat := Nat.lt_trans (List.getElem?_eq_some_iff.mp hget).1
    (Lowering.length_statics_lt hexits hinstrs hstands)
  obtain ⟨pre, post, hlayout⟩ := Lowering.layout_of_leavesBy hi hleaves
  refine ⟨c, slot, _, b.used + Assembly.size pre, hc, hget, hlt, hinstrs i hi, hleaves,
    Nat.le_add_right .., ?_, ?_⟩
  · rw [hused, hlayout, Assembly.size_append, Nat.add_assoc]
    apply Nat.add_le_add_left
    apply Nat.add_le_add_left
    exact Nat.le_add_right ..
  · exact hstands.instr _ _ _ hlayout

end Backend
end Recompiler.X64
