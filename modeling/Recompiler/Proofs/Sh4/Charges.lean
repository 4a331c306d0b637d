import Recompiler.Proofs.IR.Metering
import Recompiler.Proofs.Sh4.Slots

/-!
What blocks charge. The three walks over guest memory take the same steps, so every instruction of a
block is charged once, those in slots too; and as slots are inserted before the code that leaves,
all of them are charged before the first branch.
-/
namespace Recompiler.Sh4

open IR Meaning State Fragment

/-! ### Code without charges -/

variable {s t : State} {mem : Option FastMem} {op : Op} {scale addr raw begin : UInt32}
  {f f' : Fragment}
  {b : BlockId} {l l₁ l₂ : List InstrId}

theorem idles_load (r : Field) : Idles offsets (Lift.load r) := idles_loadContext _ _

/-- A register apart from the counters. -/
theorem idles_store {r : Field} (hr : r.index ≤ 70) (v : ValueId) :
    Idles offsets (Lift.store r v) := by
  have hoffset : (Int32.ofInt (r.offset : Nat)).toInt = (4 * r.index : Nat) :=
    Int32.toInt_ofInt_of_le (by unfold Field.offset; omega) (by unfold Field.offset; omega)
  apply idles_storeContext v
  · rw [hoffset]
    refine .inl ?_
    change ((4 * r.index : Nat) : Int) + 8 ≤ (4 * 72 : Nat)
    omega
  · rw [hoffset]
    refine .inl ?_
    change ((4 * r.index : Nat) : Int) + 8 ≤ (4 * 73 : Nat)
    omega

theorem index_r (n : Fin 16) : (Field.r n).index ≤ 70 := by
  change n.val ≤ 70
  omega

theorem idles_storeConst {r : Field} (hr : r.index ≤ 70) (x : UInt32) :
    Idles offsets (Lift.storeConst r x) :=
  (idles_i32 x).bind fun v => idles_store hr v

theorem idles_move {dst : Field} (hdst : dst.index ≤ 70) (src : Field) :
    Idles offsets (Lift.move dst src) :=
  (idles_load src).bind fun v => idles_store hdst v

theorem idles_loadT : Idles offsets Lift.loadT :=
  (idles_load .sr).bind fun sr => (idles_i32 srT).bind fun c => idles_intBinary (by decide) sr c

theorem idles_storeT (v : ValueId) : Idles offsets (Lift.storeT v) := by
  refine (idles_tyOf v).bind fun ty => ?_
  have hrest : ∀ t, Idles offsets (do
      let sr ← Lift.load .sr
      let cleared ← Build.and sr (← Build.i32 (~~~srT))
      Lift.store .sr (← Build.or cleared t)) := fun t =>
    (idles_load .sr).bind fun sr => (idles_i32 _).bind fun c =>
      (idles_intBinary (by decide) sr c).bind fun d =>
      (idles_intBinary (by decide) d t).bind fun e =>
        idles_store (by decide) e
  split
  · exact (idles_pure v).bind hrest
  · exact (idles_convert (by decide) v .i32).bind hrest

theorem idles_notify (r : Recompiler.Lift.Routine) (old : ValueId) :
    Idles offsets (Lift.notify r old) := by
  intro f
  refine (adds_convert (o := offsets) (by decide) old .i64).bind fun v f₁ _ _
    ⟨hidle, hlt, hty⟩ => ?_
  refine (adds_call (o := offsets) r.address hlt hty).mono fun _ _ _ hgrows hidle' => ?_
  exact idle_append hidle hgrows hidle'

theorem idles_storeSr (v : ValueId) : Idles offsets (Lift.storeSr v) :=
  (idles_load .sr).bind fun old => (idles_store (by decide) v).bind fun _ => idles_notify _ old

theorem idles_storeFpscr (v : ValueId) : Idles offsets (Lift.storeFpscr v) :=
  (idles_load .fpscr).bind fun old => (idles_i32 fpscrMask).bind fun c =>
    (idles_intBinary (by decide) v c).bind fun d => (idles_store (by decide) d).bind fun _ =>
      idles_notify _ old

theorem idles_hostAddress (map : FastMem) (v : ValueId) (ty : Ty) :
    Idles offsets (Recompiler.Lift.hostAddress map v ty) :=
  (idles_i32 _).bind fun c => (idles_intBinary (by decide) v c).bind fun d =>
    (idles_convert (by decide) d .i64).bind fun e => (idles_i64 _).bind fun b =>
      idles_intBinary (by decide) b e

theorem idles_loadMem (mem : Option FastMem) (v : ValueId) (ty : Ty) :
    Idles offsets (Recompiler.Lift.loadMem mem v ty) := by
  cases mem with
  | none => exact idles_loadGuest v ty
  | some map => exact (idles_hostAddress map v ty).bind fun a => idles_loadHost a ty

theorem idles_storeMem (mem : Option FastMem) (a v : ValueId) :
    Idles offsets (Recompiler.Lift.storeMem mem a v) := by
  cases mem with
  | none => exact idles_storeGuest a v
  | some map =>
    exact (idles_tyOf v).bind fun ty => (idles_hostAddress map a ty).bind fun p =>
      idles_storeHost p v

theorem idles_arith (raw : UInt32) {fn : ValueId → ValueId → Build ValueId}
    (h : ∀ a b, Idles offsets (fn a b)) : Idles offsets (Lift.arith raw fn) :=
  (idles_load _).bind fun a => (idles_load _).bind fun b => (h a b).bind fun c =>
    idles_store (index_r _) c

theorem idles_test (raw : UInt32) {op : Opcode} (hop : Plain op) :
    Idles offsets (Lift.test raw op) :=
  (idles_load _).bind fun a => (idles_load _).bind fun b => (idles_compare hop a b).bind fun c =>
    idles_storeT c

theorem idles_extend (raw : UInt32) (ty : Ty) {op : Opcode} (hop : Plain op) :
    Idles offsets (Lift.extend raw ty op) :=
  (idles_load _).bind fun a => (idles_convert (by decide) a ty).bind fun b =>
    (idles_convert hop b .i32).bind fun c => idles_store (index_r _) c

theorem idles_loadReg (mem : Option FastMem) (raw : UInt32) (ty : Ty) :
    Idles offsets (Lift.loadReg mem raw ty) := by
  refine (idles_load _).bind fun a => (idles_loadMem mem a ty).bind fun v => ?_
  split
  · exact (idles_pure v).bind fun v => idles_store (index_r _) v
  · exact (idles_convert (by decide) v .i32).bind fun v => idles_store (index_r _) v

theorem idles_storeReg (mem : Option FastMem) (raw : UInt32) (ty : Ty) :
    Idles offsets (Lift.storeReg mem raw ty) := by
  refine (idles_load _).bind fun a => (idles_load _).bind fun v => ?_
  split
  · exact (idles_pure v).bind fun v => idles_storeMem mem a v
  · exact (idles_convert (by decide) v ty).bind fun v => idles_storeMem mem a v

theorem idles_simple (mem : Option FastMem) (op : Op) (addr raw : UInt32) :
    Idles offsets (Lift.simple mem op addr raw) := by
  cases op with
  | movImm => exact idles_storeConst (index_r _) _
  | mov => exact idles_move (index_r _) _
  | loadByte | loadWord | loadLong => exact idles_loadReg mem raw _
  | storeByte | storeWord | storeLong => exact idles_storeReg mem raw _
  | loadPcRel =>
    exact (idles_i32 _).bind fun a => (idles_loadMem mem a .i32).bind fun v =>
      idles_store (index_r _) v
  | mova => exact idles_storeConst (by decide) _
  | movt => exact idles_loadT.bind fun v => idles_store (index_r _) v
  | extSByte | extSWord | extUByte | extUWord => exact idles_extend raw _ (by decide)
  | add | sub | and | or | xor => exact idles_arith raw fun a b => idles_intBinary (by decide) a b
  | addImm =>
    exact (idles_load _).bind fun a => (idles_i32 _).bind fun b =>
      (idles_intBinary (by decide) a b).bind fun v => idles_store (index_r _) v
  | not =>
    exact (idles_load _).bind fun a => (idles_not a).bind fun v => idles_store (index_r _) v
  | dt =>
    exact (idles_load _).bind fun a => (idles_i32 1).bind fun b =>
      (idles_intBinary (by decide) a b).bind fun v => (idles_store (index_r _) v).bind fun _ =>
        (idles_i32 0).bind fun z => (idles_compare (by decide) v z).bind fun t => idles_storeT t
  | shll =>
    exact (idles_load _).bind fun a => (idles_shiftBy (by decide) a 31).bind fun t =>
      (idles_storeT t).bind fun _ => (idles_shiftBy (by decide) a 1).bind fun v =>
        idles_store (index_r _) v
  | shlr =>
    exact (idles_load _).bind fun a => (idles_i32 1).bind fun c =>
      (idles_intBinary (by decide) a c).bind fun t => (idles_storeT t).bind fun _ =>
        (idles_shiftBy (by decide) a 1).bind fun v => idles_store (index_r _) v
  | shad | shld => exact idles_arith raw fun a b => idles_shiftSigned (by decide) a b
  | cmpEq | cmpHs | cmpGe | cmpHi | cmpGt => exact idles_test raw (by decide)
  | cmpEqImm =>
    exact (idles_load _).bind fun a => (idles_i32 _).bind fun b =>
      (idles_compare (by decide) a b).bind fun t => idles_storeT t
  | tst =>
    exact (idles_load _).bind fun a => (idles_load _).bind fun b =>
      (idles_intBinary (by decide) a b).bind fun v => (idles_i32 0).bind fun z =>
        (idles_compare (by decide) v z).bind fun t => idles_storeT t
  | clrt | sett => exact (idles_i32 _).bind fun t => idles_storeT t
  | ldcSr => exact (idles_load _).bind fun v => idles_storeSr v
  | stcSr => exact idles_move (index_r _) _
  | ldsFpscr => exact (idles_load _).bind fun v => idles_storeFpscr v
  | stsFpscr => exact idles_move (index_r _) _
  | ldsPr => exact idles_move (by decide) _
  | stsPr => exact idles_move (index_r _) _
  | _ => exact idles_pure ()

/-! ### Instructions -/

/-- What an instruction costs at an address, as charges have it. -/
abbrev costOf (op : Op) (addr scale : UInt32) : UInt32 × UInt32 := (addr, op.info.cycles * scale)

theorem adds_charge (op : Op) (addr scale : UInt32) :
    Adds (Lift.charge op addr scale) f fun _ f' l => Metered offsets f' l [costOf op addr scale] :=
  adds_sourceInfo addr _

/-- The code of an instruction behind its charge. -/
def work (mem : Option FastMem) (op : Op) (addr raw : UInt32) : Build (Option InsertPoint) := do
  if op.has .loadPc then Lift.storeConst .pc addr
  if op.isLifted then Lift.lifted mem op addr raw
  else
    Build.fallback Recompiler.Lift.Routine.interpret.address addr raw
    return none

theorem instr_eq_work (mem : Option FastMem) (scale : UInt32) (op : Op) (addr raw : UInt32) :
    Lift.instr mem scale op addr raw = (do
      Lift.charge op addr scale
      work mem op addr raw) := rfl

theorem idles_work (mem : Option FastMem) (addr raw : UInt32)
    (hop : op.isLifted = true → op.has .storePc = false) :
    Idles offsets (work mem op addr raw) := by
  have hrest : Idles offsets (if op.isLifted then Lift.lifted mem op addr raw else do
      Build.fallback Recompiler.Lift.Routine.interpret.address addr raw
      return none) := by
    split
    case isTrue hlift =>
      rw [lifted_of_storePc (hop hlift)]
      exact (idles_simple mem op addr raw).bind fun _ => idles_pure none
    case isFalse =>
      exact (idles_fallback _ _ _).bind fun _ => idles_pure none
  unfold work
  dsimp only
  split
  · exact (idles_storeConst (by decide) addr).bind fun _ => hrest
  · exact hrest

/-- The code of an instruction that does not branch charges it once. -/
theorem adds_instr_straight (mem : Option FastMem) (scale addr raw : UInt32)
    (hop : op.isLifted = true → op.has .storePc = false) :
    Adds (Lift.instr mem scale op addr raw) f fun _ f' l =>
      Metered offsets f' l [costOf op addr scale] := by
  rw [instr_eq_work]
  refine (adds_charge op addr scale).bind fun _ f₁ l _ hl => ?_
  refine (idles_work mem addr raw hop f₁).mono fun _ f₂ l' hgrows hidle => ?_
  exact (hl.grows hgrows).append (metered_of_idle hidle)

/-! ### Branches -/

/-- What a lifted branch reads before the place of its slot. -/
def headCode (op : Op) (addr raw : UInt32) : Build ValueId :=
  if op.has .conditional then Lift.loadT else targetCode op addr raw

/-- What a lifted branch does behind the place of its slot. -/
def tailCode (op : Op) (addr raw : UInt32) (v : ValueId) : Build Unit :=
  if op.has .conditional then do
    let dst ← Build.i32 (condTarget addr raw)
    Build.branchIf (if op = .bt ∨ op = .btS then .branchTrue else .branchFalse) v dst
  else do
    linkCode addr (links op)
    Build.branch v

theorem lifted_branch (hop : op.has .storePc = true) (hlift : op.isLifted = true)
    (mem : Option FastMem) (addr raw : UInt32) : Lift.lifted mem op addr raw = (do
      let v ← headCode op addr raw
      let mark ← Lift.here
      tailCode op addr raw v
      return some mark) := by
  cases hcond : op.has .conditional with
  | true =>
    unfold headCode tailCode
    rw [hcond]
    cases op
    case bt | bf | btS | bfS =>
      simp only [Lift.lifted, Lift.branchIf, if_true, map_eq_pure_bind, bind_assoc, pure_bind]
      rfl
    case bra | bsr | braf | bsrf | jmp | jsr | rts | rte | trapa | invalid => cases hcond
    all_goals cases hop
  | false =>
    have hdelayed : op.has .delayed = true := by
      cases op
      case bra | bsr | braf | bsrf | jmp | jsr | rts => rfl
      case bt | bf | btS | bfS => cases hcond
      case rte | trapa | invalid => cases hlift
      all_goals cases hop
    unfold headCode tailCode
    rw [hcond, lifted_jump ⟨hdelayed, hcond, hlift⟩]
    simp only [jump_eq, Bool.false_eq_true, if_false, map_eq_pure_bind, bind_assoc, pure_bind]

theorem idles_head (op : Op) (addr raw : UInt32) : Idles offsets (headCode op addr raw) := by
  unfold headCode
  split
  · exact idles_loadT
  · unfold targetCode
    split
    · exact idles_i32 _
    · exact idles_i32 _
    · exact (idles_load _).bind fun r => (idles_i32 _).bind fun c => idles_intBinary (by decide) r c
    · exact (idles_load _).bind fun r => (idles_i32 _).bind fun c => idles_intBinary (by decide) r c
    · exact idles_load _
    · exact idles_load _
    · exact idles_load _

theorem adds_head (op : Op) (addr raw : UInt32) (w : State) :
    Adds (headCode op addr raw) f fun v f' l => (∀ i ∈ l, Idle offsets f' i) ∧ IsWord f' v := by
  have hword : Emits guest offsets (headCode op addr raw) f (fun _ => 0) ⟨#[], w⟩
      fun v f' s' _ => ∃ x, Holds32 f' s' v x := by
    unfold headCode
    split
    · exact emits_loadT.mono fun v f' s' m' _ h => ⟨_, h.2⟩
    · exact (emits_target op addr raw).mono fun v f' s' m' _ h => ⟨_, h.2⟩
  apply ((idles_head op addr raw f).and hword).mono
  intro v f' l _ ⟨hidle, s', _, x, hx⟩
  exact ⟨hidle, s', x, hx⟩

theorem idles_link (addr : UInt32) (link : Bool) : Idles offsets (linkCode addr link) := by
  cases link with
  | true => exact idles_storeConst (by decide) _
  | false => exact idles_pure ()

/-- The end of a lifted branch leaves, and only a jump does so in any case. -/
theorem adds_tail (op : Op) (addr raw : UInt32) {v : ValueId} (hv : IsWord f v) :
    Adds (tailCode op addr raw v) f fun _ f' l =>
      ∃ o, Closes offsets f' l o ∧ (op.has .conditional = false → o = .branch) := by
  unfold tailCode
  cases hcond : op.has .conditional with
  | true =>
    have hcondition : IsCondition (if op = .bt ∨ op = .btS then .branchTrue else .branchFalse) := by
      split <;> simp [IsCondition]
    exact (adds_branchIf hcondition hv _).mono fun _ f' l _ h => ⟨_, h, by simp⟩
  | false =>
    refine (idles_link addr (links op) f).bind fun _ f₁ l hgrows hidle => ?_
    obtain ⟨cells, x, hx⟩ := hv
    have hx₁ : Holds32 f₁ cells v x := hx.grows hgrows fun _ _ => rfl
    apply (adds_branch ⟨cells, x, hx₁⟩).mono
    intro _ f₂ l' hgrows' hcloses
    exact ⟨.branch, hcloses.behind hidle hgrows', fun _ => rfl⟩

/-- The code of a lifted branch: charge and head, the place of the slot, and the end. -/
theorem instr_marked (hop : op.has .storePc = true) (hlift : op.isLifted = true) (w : State)
    (hopen : Open f b l₁ l₂) {a : Option InsertPoint}
    (hact : Lift.instr mem scale op addr raw f = .ok (a, f')) : ∃ l l' o,
      a = some ⟨some b, (l₁ ++ l).getLast?⟩ ∧ Extends f f' b l₁ (l ++ l') l₂ ∧
        Metered offsets f' l [costOf op addr scale] ∧ Closes offsets f' l' o ∧
        (op.has .conditional = false → o = .branch) := by
  rw [instr_lifted hlift, lifted_branch hop hlift] at hact
  obtain ⟨_, f₁, hact₁, hact⟩ := ok_of_bind_ok hact
  obtain ⟨v, f₂, hact₂, hact⟩ := ok_of_bind_ok hact
  obtain ⟨mark, f₃, hact₃, hact⟩ := ok_of_bind_ok hact
  obtain ⟨_, f₄, hact₄, hact⟩ := ok_of_bind_ok hact
  obtain ⟨l, hext₁, hl⟩ := adds_charge op addr scale b l₁ l₂ hopen _ f₁ hact₁
  obtain ⟨l', hext₂, hidle, hv⟩ := adds_head op addr raw w b _ l₂ hext₁.opened v f₂ hact₂
  obtain ⟨rfl, rfl⟩ : mark = f₂.point ∧ f₃ = f₂ := by
    cases hact₃
    exact ⟨rfl, rfl⟩
  obtain ⟨rfl, rfl⟩ : some f₃.point = a ∧ f₄ = f' := by
    cases hact
    exact ⟨rfl, rfl⟩
  obtain ⟨l'', hext₄, o, hcloses, ho⟩ :=
    adds_tail op addr raw hv b _ l₂ hext₂.opened _ f₄ hact₄
  have hhead := (hl.grows hext₂.grows).append (metered_of_idle hidle)
  refine ⟨l ++ l', l'', o, ?_, ?_, hhead.grows hext₄.grows, hcloses, ho⟩
  · rw [hext₂.opened.point, List.append_assoc]
  · exact (hext₁.trans hext₂).trans (by rwa [← List.append_assoc])

/-- The code of any instruction charges it once, before it branches. -/
theorem adds_instr (mem : Option FastMem) (op : Op) (scale addr raw : UInt32) (w : State) :
    Adds (Lift.instr mem scale op addr raw) f fun _ f' l => ∃ l₁ l₂, l = l₁ ++ l₂ ∧
      Metered offsets f' l₁ [costOf op addr scale] ∧ Exits offsets f' l₂ := by
  by_cases hop : op.isLifted = true → op.has .storePc = false
  · apply (adds_instr_straight mem scale addr raw hop).mono
    intro _ f' l _ hl
    exact ⟨l, [], (List.append_nil l).symm, hl, by simp [Exits]⟩
  · obtain ⟨hlift, hpc⟩ := Classical.not_imp.mp hop
    intro b l₁ l₂ hopen a f' hact
    obtain ⟨l, l', o, -, hext, hl, hcloses, -⟩ :=
      instr_marked (Bool.eq_true_of_not_eq_false hpc) hlift w hopen hact
    exact ⟨l ++ l', hext, l, l', rfl, hl, hcloses.exits⟩

/-! ### Blocks -/

variable {cs cs' : List (UInt32 × UInt32)} {a : Option InsertPoint}

/-- A block whose last way out is still missing: what stands before its branches charges `cs`. -/
structure Pending (f : Fragment) (b : BlockId) (l₁ l₂ : List InstrId)
    (cs : List (UInt32 × UInt32)) :
    Prop where
  single : Single f b (l₁ ++ l₂)
  opened : Open f b (l₁ ++ l₂) []
  metered : Metered offsets f l₁ cs
  exits : Exits offsets f l₂

/-- A block that charges `cs` before its branches and ends with an unconditional one. -/
def Charged (f : Fragment) (cs : List (UInt32 × UInt32)) : Prop :=
  ∃ b l₁ l₂ i, Single f b (l₁ ++ (l₂ ++ [i])) ∧ Metered offsets f l₁ cs ∧ Exits offsets f l₂ ∧
    Leaves f i ∧ (f.instr i).op = .branch

/-- A block whose code ends with the way out. -/
theorem Pending.closed (h : Pending f b l₁ (l₂ ++ l) cs) (hcloses : Closes offsets f l .branch) :
    Charged f cs := by
  obtain ⟨l', i, rfl, -, hleaves, hop⟩ := hcloses
  refine ⟨b, l₁, l₂ ++ l', i, ?_, h.metered, fun j hj => h.exits j ?_, hleaves, hop⟩
  · rw [List.append_assoc]
    exact h.single
  · rw [← List.append_assoc]
    exact List.mem_append_left _ hj

/-- Code at the end of a block that closes it. -/
theorem Pending.charged (h : Pending f b l₁ l₂ cs) (hext : Extends f f' b (l₁ ++ l₂) l [])
    (hcloses : Closes offsets f' l .branch) : Charged f' cs := by
  have hpending : Pending f' b l₁ (l₂ ++ l) cs := by
    refine ⟨?_, ?_, h.metered.grows hext.grows, (h.exits.grows hext.grows).append hcloses.exits⟩
    · rw [← List.append_assoc]
      exact h.single.append hext
    · rw [← List.append_assoc]
      exact hext.opened
  exact hpending.closed hcloses

/-- A branch to a constant behind the last instruction. -/
theorem Pending.falls (h : Pending f b l₁ l₂ cs) {next : UInt32}
    (hop : (op.has .storePc && !op.has .conditional) = false)
    (hact : Lift.finish op next f = .ok ((), f')) : Charged f' cs := by
  rw [finish_falls hop h.single h.opened] at hact
  obtain ⟨v, i, f₁, hbranch, hext, hcarries, hv⟩ := branchTo_ok h.opened next
  have hsame : (Except.ok ((), f₁) : Except Fault (Unit × Fragment)) = .ok ((), f') :=
    hbranch.symm.trans hact
  cases hsame
  exact h.charged hext ⟨[], i, rfl, by simp, leaves_of_branch hcarries (hv fun _ => 0),
    hcarries.op_eq⟩

/-- A branch to where the interpreter has gone. -/
theorem Pending.follows (h : Pending f b l₁ l₂ cs) {next : UInt32} (w : State)
    (hop : op.isLifted = false) (hact : Lift.finish op next f = .ok ((), f')) : Charged f' cs := by
  have hleave : (op.has .storePc && !op.has .conditional) = true := by
    cases op <;> first | rfl | cases hop
  unfold Lift.finish at hact
  rw [if_pos hleave, hop] at hact
  have hload : Emits guest offsets (Lift.load .pc) f (fun _ => 0) ⟨#[], w⟩ _ := emits_load .pc
  have hcode : Adds (Lift.load .pc >>= Build.branch) f fun _ f' l =>
    Closes offsets f' l .branch := by
    refine (((idles_load .pc f).and hload).mono ?_).branch
    intro v f₁ l _ ⟨hidle, s', _, _, hv⟩
    exact ⟨hidle, s', _, hv⟩
  obtain ⟨l, hext, hcloses⟩ := hcode b _ [] h.opened _ f' hact
  exact h.charged hext hcloses

/-- Code that charges and then leaves, behind code that only charges. -/
theorem Pending.append (h : Pending f b l [] cs) (hext : Extends f f' b l (l₁ ++ l₂) [])
    (hl₁ : Metered offsets f' l₁ cs') (hl₂ : Exits offsets f' l₂) :
    Pending f' b (l ++ l₁) l₂ (cs ++ cs') := by
  have hsingle : Single f b l := by simpa using h.single
  refine ⟨?_, ?_, (h.metered.grows hext.grows).append hl₁, hl₂⟩
  · rw [List.append_assoc]
    exact hsingle.append hext
  · rw [List.append_assoc]
    exact hext.opened

/-- The last instruction of a block, without a slot. -/
theorem Pending.last (h : Pending f b l [] cs) (w : State) {next : UInt32}
    (hslot : op.has .delayed = false) (hact : (do
      let _ ← Lift.instr mem scale op addr raw
      Lift.finish op next) f = .ok ((), f')) : Charged f' (cs ++ [costOf op addr scale]) := by
  obtain ⟨a, f₁, hinstr, hfinish⟩ := ok_of_bind_ok hact
  have hopen : Open f b l [] := by simpa using h.opened
  obtain ⟨_, hext, l₁, l₂, rfl, hl₁, hl₂⟩ :=
    adds_instr mem op scale addr raw w b l [] hopen a f₁ hinstr
  have hpending := h.append hext hl₁ hl₂
  cases hlift : op.isLifted with
  | false => exact hpending.follows w hlift hfinish
  | true =>
    have hfalls : (op.has .storePc && !op.has .conditional) = false := by
      cases op
      case bra | bsr | braf | bsrf | jmp | jsr | rts | rte => cases hslot
      case trapa | invalid => cases hlift
      all_goals rfl
    exact hpending.falls hfalls hfinish

/-- Code that is inserted at a mark succeeds there. -/
theorem ok_of_insertAt {mark : InsertPoint} {slot : Build (Option InsertPoint)}
    (h : Lift.insertAt mark slot f = .ok ((), f')) :
    ∃ a f₁, slot (f.setPoint mark) = .ok (a, f₁) := by
  unfold Lift.insertAt at h
  obtain ⟨_, f₁, hhere, h⟩ := ok_of_bind_ok h
  cases hhere
  obtain ⟨_, f₂, hupdate, h⟩ := ok_of_bind_ok h
  cases hupdate
  obtain ⟨a, f₃, hslot, -⟩ := ok_of_bind_ok h
  exact ⟨a, f₃, hslot⟩

/-- The code of a slot goes to its mark, where it charges before what stands behind the mark. -/
theorem Pending.insertAt (h : Pending f b l₁ l₂ cs) (hl₂ : l₂ ≠ []) (w : State)
    (hact : Lift.insertAt ⟨some b, l₁.getLast?⟩ (Lift.instr mem scale op addr raw) f =
      .ok ((), f')) :
    ∃ l l', Pending f' b (l₁ ++ l) (l' ++ l₂) (cs ++ [costOf op addr scale]) ∧ Grows f f' := by
  have hmark : Open (f.setPoint ⟨some b, l₁.getLast?⟩) b l₁ l₂ := ⟨h.single.chain.setPoint _, rfl⟩
  obtain ⟨a, f₁, hslot⟩ := ok_of_insertAt hact
  obtain ⟨_, hext, l, l', rfl, hl, hl'⟩ :=
    adds_instr mem op scale addr raw w b l₁ l₂ hmark a f₁ hslot
  obtain ⟨f₂, hinsert, hsingle, hopen, hgrows⟩ := insertAt_code h.single h.opened hl₂ hslot hext
  have hsame : (Except.ok ((), f₂) : Except Fault (Unit × Fragment)) = .ok ((), f') :=
    hinsert.symm.trans hact
  cases hsame
  have hgrows' : Grows f f' := ((grows_setPoint f _).trans hext.grows).trans hgrows
  have hsplit : l₁ ++ (l ++ l') ++ l₂ = (l₁ ++ l) ++ (l' ++ l₂) := by simp
  rw [hsplit] at hsingle hopen
  exact ⟨l, l', ⟨hsingle, hopen, (h.metered.grows hgrows').append (hl.grows hgrows),
    (hl'.grows hgrows).append (h.exits.grows hgrows')⟩, hgrows'⟩

/-! ### Delayed branches -/

section
variable {slotAddr next : UInt32} {mark : Option InsertPoint}

/-- The instruction in a slot is not delayed itself. -/
theorem plain_of_slot (h : Lift.slot s mem scale op mark slotAddr f = .ok ((), f')) :
    (decode (s.fetch slotAddr)).has .delayed = false := by
  unfold Lift.slot at h
  obtain ⟨_, f₁, hcheck, -⟩ := ok_of_bind_ok h
  unfold Build.check at hcheck
  split at hcheck
  case isTrue hplain => simpa using hplain
  case isFalse => cases hcheck

/-- A delayed branch that is lifted, with its slot. -/
theorem Pending.delayed_lifted (h : Pending f b l [] cs) (w : State)
    (hdelayed : op.has .delayed = true) (hlift : op.isLifted = true) (hact : (do
      let mark ← Lift.instr mem scale op addr raw
      Lift.slot s mem scale op mark slotAddr
      Lift.finish op next) f = .ok ((), f')) :
    Charged f' (cs ++ [costOf op addr scale] ++
      [costOf (decode (s.fetch slotAddr)) slotAddr scale]) := by
  obtain ⟨mark, f₁, hinstr, hact⟩ := ok_of_bind_ok hact
  obtain ⟨_, f₂, hslot, hfinish⟩ := ok_of_bind_ok hact
  have hopen : Open f b l [] := by simpa using h.opened
  obtain ⟨l₁, l₂, o, rfl, hext, hl₁, hcloses, ho⟩ :=
    instr_marked (storePc_of_delayed hdelayed) hlift w hopen hinstr
  have hpending := h.append hext hl₁ hcloses.exits
  have hl₂ : l₂ ≠ [] := by
    obtain ⟨l', i, rfl, -⟩ := hcloses
    simp
  rw [slot_lifted rfl (plain_of_slot hslot) hlift] at hslot
  obtain ⟨l₃, l₄, hboth, hgrows⟩ := hpending.insertAt hl₂ w hslot
  cases hcond : op.has .conditional with
  | true => exact hboth.falls (by rw [hcond, Bool.not_true, Bool.and_false]) hfinish
  | false =>
    -- a jump has left already
    have hnothing : Lift.finish op next = return () := by
      unfold Lift.finish
      rw [storePc_of_delayed hdelayed, hcond, hlift]
      rfl
    rw [hnothing] at hfinish
    cases hfinish
    rw [ho hcond] at hcloses
    exact hboth.closed (hcloses.grows hgrows)

/-- A delayed branch that is left to the interpreter, with its slot. -/
theorem Pending.delayed_interpreted (h : Pending f b l [] cs) (w : State)
    (hlift : op.isLifted = false) (hact : (do
      let mark ← Lift.instr mem scale op addr raw
      Lift.slot s mem scale op mark slotAddr
      Lift.finish op next) f = .ok ((), f')) :
    Charged f' (cs ++ [costOf op addr scale] ++
      [costOf (decode (s.fetch slotAddr)) slotAddr scale]) := by
  obtain ⟨mark, f₁, hinstr, hact⟩ := ok_of_bind_ok hact
  obtain ⟨_, f₂, hslot, hfinish⟩ := ok_of_bind_ok hact
  have hopen : Open f b l [] := by simpa using h.opened
  have hstraight : op.isLifted = true → op.has .storePc = false := by
    rw [hlift]
    simp
  obtain ⟨l₁, hext₁, hl₁⟩ :=
    adds_instr_straight mem scale addr raw hstraight b l [] hopen mark f₁ hinstr
  have hcharge : Lift.charge (decode (s.fetch slotAddr)) slotAddr scale f₁ = .ok ((), f₂) := by
    rw [← hslot, slot_interpreted rfl (plain_of_slot hslot) hlift]
  obtain ⟨l₂, hext₂, hl₂⟩ := adds_charge _ slotAddr scale b _ [] hext₁.opened _ f₂ hcharge
  have hpending := h.append (by simpa using hext₁) hl₁ (show Exits _ _ [] by simp [Exits])
  have hboth := hpending.append (by simpa using hext₂) hl₂ (show Exits _ _ [] by simp [Exits])
  exact hboth.follows w hlift hfinish

end

/-! ### Instructions of a block -/

/-- What the instruction `n` of the block at `begin` costs: ten times as much in a loop that
waits. -/
def costAt (s : State) (begin : UInt32) (n : Nat) : UInt32 :=
  (opAt s begin n).info.cycles * if isIdleLoop s begin then 10 else 1

/-- The charge of the instruction `n`. -/
def chargeAt (s : State) (begin : UInt32) (n : Nat) : UInt32 × UInt32 :=
  (place begin n, costAt s begin n)

theorem costOf_place (s : State) (begin : UInt32) (n : Nat) :
    costOf (opAt s begin n) (place begin n) (scaleOf s begin) = chargeAt s begin n := rfl

/-- The instructions before the last one. -/
theorem adds_instrs (s : State) (mem : Option FastMem) (begin : UInt32) (n k : Nat)
    (hplain : ∀ i < n, (opAt s begin (k + i)).has .storePc = false) :
    Adds ((List.range' k n).forM fun i => do let _ ← instrAt s mem (scaleOf s begin) begin i) f
      fun _ f' l => Metered offsets f' l ((List.range' k n).map (chargeAt s begin)) := by
  induction n generalizing k f with
  | zero =>
    rw [List.range'_zero, List.forM_eq_forM, List.forM_nil]
    exact adds_pure .nil
  | succ n ih =>
    have hrest : ∀ i < n, (opAt s begin (k + 1 + i)).has .storePc = false := by
      intro i hi
      have hi' := hplain (i + 1) (by omega)
      rwa [show k + (i + 1) = k + 1 + i by omega] at hi'
    rw [List.range'_succ, List.forM_eq_forM, List.forM_cons, bind_assoc]
    refine (adds_instr_straight mem (scaleOf s begin) (place begin k) (s.fetch (place begin k))
      fun _ => hplain 0 (by omega)).bind fun _ f₁ l _ hl => ?_
    rw [pure_bind]
    refine (ih (k + 1) hrest).mono fun _ f₂ l' hgrows hl' => ?_
    exact (hl.grows hgrows).append hl'

/-- So many instructions without a slot are walked one by one. -/
theorem instrs_plain (s : State) (mem : Option FastMem) (scale begin : UInt32)
    (size n k fuel : Nat) (last : Option Op) (hk : 2 * (k + n) ≤ size)
    (hplain : ∀ i < n, (opAt s begin (k + i)).has .delayed = false) : ∃ last',
      Lift.instrs s mem scale begin size (n + fuel) (2 * k) last = (do
        (List.range' k n).forM fun i => do let _ ← instrAt s mem scale begin i
        Lift.instrs s mem scale begin size fuel (2 * (k + n)) last') := by
  induction n generalizing k last with
  | zero =>
    refine ⟨last, ?_⟩
    rw [List.range'_zero, List.forM_eq_forM, List.forM_nil, pure_bind, Nat.zero_add, Nat.add_zero]
  | succ n ih =>
    have hrest : ∀ i < n, (opAt s begin (k + 1 + i)).has .delayed = false := by
      intro i hi
      have hi' := hplain (i + 1) (by omega)
      rwa [show k + (i + 1) = k + 1 + i by omega] at hi'
    have hfirst : (opAt s begin k).has .delayed = false := hplain 0 (by omega)
    obtain ⟨last', hnext⟩ := ih (k + 1) (some (opAt s begin k)) (by omega) hrest
    refine ⟨last', ?_⟩
    rw [show n + 1 + fuel = n + fuel + 1 by omega, instrs_step last (by omega) hfirst,
      hnext, List.range'_succ, List.forM_eq_forM, List.forM_cons, bind_assoc, bind_assoc,
      show k + 1 + n = k + (n + 1) by omega]
    rfl

/-- The code of a block that ends with a delayed branch. -/
theorem lift_delayed (mem : Option FastMem) (n : Nat)
    (hplain : ∀ i < n, (opAt s begin i).has .delayed = false)
    (hdelayed : (opAt s begin n).has .delayed = true) : lift mem s begin (2 * (n + 2)) = (do
      (List.range' 0 n).forM fun i => do let _ ← instrAt s mem (scaleOf s begin) begin i
      let mark ← instrAt s mem (scaleOf s begin) begin n
      Lift.slot s mem (scaleOf s begin) (opAt s begin n) mark (place begin (n + 1))
      Lift.finish (opAt s begin n) (place begin (n + 2))) := by
  obtain ⟨last, hinstrs⟩ := instrs_plain s mem (scaleOf s begin) begin (2 * (n + 2)) n 0
    (n + 4) none (by omega) (by simpa using hplain)
  have hlast : Lift.instrs s mem (scaleOf s begin) begin (2 * (n + 2)) (n + 4) (2 * n) last = (do
      let mark ← instrAt s mem (scaleOf s begin) begin n
      Lift.slot s mem (scaleOf s begin) (opAt s begin n) mark (place begin (n + 1))
      return some (opAt s begin n)) := by
    have hop : decode (s.fetch (begin + UInt32.ofNat (2 * n))) = opAt s begin n := rfl
    have hslot : begin + UInt32.ofNat (2 * n) + 2 = place begin (n + 1) :=
      (place_add begin n 1).symm
    rw [Lift.instrs, if_pos (by omega)]
    simp only [hop, hdelayed, if_true, hslot, show 2 * n + 4 = 2 * (n + 2) by omega,
      instrs_end _ _ (Nat.le_refl _)]
    rfl
  rw [Nat.zero_add, Nat.mul_zero, show n + (n + 4) = 2 * (n + 2) by omega, hlast] at hinstrs
  unfold lift
  dsimp only
  rw [show (if isIdleLoop s begin then Lift.idleScale else 1) = scaleOf s begin from rfl, hinstrs]
  simp only [bind_assoc, pure_bind]
  rfl

/-! ### Charges of a block -/

theorem pending_of_opened (hext : Extends opened f ⟨0⟩ [] l []) (hl : Metered offsets f l cs) :
    Pending f ⟨0⟩ l [] cs := by
  refine ⟨?_, ?_, hl, by simp [Exits]⟩
  · rw [List.append_nil]
    exact single_opened.append hext
  · rw [List.append_nil]
    exact hext.opened

/-- The code of a block charges each of its instructions once. -/
theorem lift_charged {size : Nat} (hsize : blockSize s begin = .ok size)
    (hlift : lift mem s begin size Fragment.empty = .ok ((), f)) :
    size % 2 = 0 ∧ Charged f ((List.range (size / 2)).map (chargeAt s begin)) := by
  obtain ⟨n, hn, hextent⟩ :=
    blockSizeFrom_spec maxBlockInstrs 0 size (Nat.le_add_left _ _) (by decide) hsize
  simp only [Nat.zero_add] at hn hextent
  have hplain : ∀ i < n, (opAt s begin i).has .delayed = false := by
    intro i hi
    have hpc := hn i hi
    cases hdelayed : (opAt s begin i).has .delayed with
    | false => rfl
    | true => rw [storePc_of_delayed hdelayed] at hpc; cases hpc
  rw [lift_opened (by omega)] at hlift
  have hprefix := adds_instrs (f := opened) s mem begin n 0 (by simpa using hn)
  cases hdelayed : (opAt s begin n).has .delayed with
  | false =>
    rw [hdelayed, if_neg (by decide), Nat.add_zero] at hextent
    subst hextent
    rw [lift_eq n fun i hi => (Nat.lt_or_eq_of_le hi).elim (hplain i)
      (fun h => h ▸ hdelayed)] at hlift
    obtain ⟨_, f₁, hinstrs, hlast⟩ := ok_of_bind_ok hlift
    obtain ⟨l, hext, hl⟩ := hprefix ⟨0⟩ [] [] open_opened _ f₁ hinstrs
    have hcharged := (pending_of_opened hext hl).last s hdelayed hlast
    have hhalf : 2 * (n + 1) / 2 = n + 1 := by omega
    rw [costOf_place] at hcharged
    rw [hhalf, List.range_succ, List.map_append, List.range_eq_range']
    exact ⟨by omega, hcharged⟩
  | true =>
    rw [hdelayed, if_pos rfl, show 2 * (n + 1) + 2 = 2 * (n + 2) by omega] at hextent
    subst hextent
    rw [lift_delayed mem n hplain hdelayed] at hlift
    obtain ⟨_, f₁, hinstrs, hlast⟩ := ok_of_bind_ok hlift
    obtain ⟨l, hext, hl⟩ := hprefix ⟨0⟩ [] [] open_opened _ f₁ hinstrs
    have hpending := pending_of_opened hext hl
    have hcharged : Charged f ((List.range' 0 n).map (chargeAt s begin) ++ [chargeAt s begin n] ++
        [chargeAt s begin (n + 1)]) := by
      cases hop : (opAt s begin n).isLifted with
      | true => exact hpending.delayed_lifted s hdelayed hop hlast
      | false => exact hpending.delayed_interpreted s hop hlast
    have hhalf : 2 * (n + 2) / 2 = n + 1 + 1 := by omega
    rw [hhalf, List.range_succ, List.range_succ, List.map_append, List.map_append,
      List.range_eq_range']
    exact ⟨by omega, hcharged⟩

/-- A block charges each instruction between `begin` and its end once, those in slots too, before
its first branch, and ends with an unconditional branch. Whatever way it leaves, the cycles are
counted down by what its instructions cost in all, and the instructions are counted. -/
theorem lift_charges {size : Nat} (hsize : blockSize s begin = .ok size)
    (hlift : lift mem s begin size Fragment.empty = .ok ((), f)) :
    size % 2 = 0 ∧
    (∃ charged rest last, f.allInstrs = charged ++ rest ++ [last] ∧
      (charged.filter fun i => (f.instr i).op = .sourceInfo).map (charge? f) =
        ((List.range (size / 2)).map fun n => some (place begin n, costAt s begin n)) ∧
      (∀ i ∈ charged, (f.instr i).op.isBranch = false) ∧
      (∀ i ∈ rest, (f.instr i).op ≠ .sourceInfo) ∧
      (f.instr last).op = .branch) ∧
    ∀ (w w' : State) (exit : Exit), w.Sized → Evaluates guest offsets f w (.ok (exit, w')) →
      State.get w' .cycles = w.get .cycles - ((List.range (size / 2)).map (costAt s begin)).sum ∧
      State.get w' .instrs = w.get .instrs + UInt32.ofNat (size / 2) := by
  obtain ⟨heven, b, l₁, l₂, i, hsingle, hl₁, hl₂, hleaves, hop⟩ := lift_charged hsize hlift
  refine ⟨heven, ⟨l₁, l₂, i, ?_, ?_, hl₁.straight, hl₂.op_ne, hop⟩, ?_⟩
  · unfold allInstrs
    rw [hsingle.order_eq, List.flatMap_singleton, hsingle.chain.blockInstrs_eq, List.append_assoc]
  · rw [hl₁.charges_eq, List.map_map]
    rfl
  · intro w w' exit hw heval
    have hexits : Exits offsets f (l₂ ++ [i]) := by
      apply hl₂.append
      intro j hj
      cases List.mem_singleton.mp hj
      exact .inr hleaves
    have hspends := hl₁.evaluates hexits hsingle unmetered_guest placed_offsets hw heval
    rw [List.map_map, List.length_map, List.length_range] at hspends
    exact ⟨hspends.cycles_eq, hspends.instrs_eq⟩

/-- `bsr` with `lds r0,pr` in its slot. -/
theorem lift_charges_link : blockSize (twoWords 0xb00e 0x402a 0) 0 = .ok 4 ∧
    ∃ f, lift none (twoWords 0xb00e 0x402a 0) 0 4 Fragment.empty = .ok ((), f) ∧
      (∃ charged rest last, f.allInstrs = charged ++ rest ++ [last] ∧
        (charged.filter fun i => (f.instr i).op = .sourceInfo).map (charge? f) =
          [some (0, 1), some (2, 2)]) ∧
      ∃ exit w', Evaluates guest offsets f (twoWords 0xb00e 0x402a 0) (.ok (exit, w')) ∧
        State.get w' .cycles = 0 - 3 ∧ State.get w' .instrs = 2 := by
  -- all at once: the table of patterns is then computed only once
  have hwords : decode ((twoWords 0xb00e 0x402a 0).fetch 0) = .bsr ∧
      decode ((twoWords 0xb00e 0x402a 0).fetch (0 + 2)) = .ldsPr ∧
      (List.range (4 / 2)).map (fun n => some (place 0 n, costAt (twoWords 0xb00e 0x402a 0) 0 n)) =
        [some (0, 1), some (2, 2)] ∧
      (twoWords 0xb00e 0x402a 0).get .cycles -
        ((List.range (4 / 2)).map (costAt (twoWords 0xb00e 0x402a 0) 0)).sum = 0 - 3 := by
    decide +kernel
  obtain ⟨hop, hraw, hlist, hcycles'⟩ := hwords
  have hsize : blockSize (twoWords 0xb00e 0x402a 0) 0 = .ok 4 := blockSize_delayed hop rfl hraw rfl
  have hsized : (twoWords 0xb00e 0x402a 0).Sized := by
    unfold Sized twoWords
    rw [Context.size_set, Array.size_replicate]
  obtain ⟨t, -, f, hlift, exit, x, y, heval⟩ :=
    pair_jump hop ⟨rfl, rfl, rfl⟩ hraw rfl (by simp [Quiet])
  obtain ⟨-, ⟨charged, rest, last, hall, hcharges, -⟩, hspends⟩ := lift_charges hsize hlift
  obtain ⟨hcycles, hinstrs⟩ := hspends _ _ exit hsized heval
  have hinstrs' : (twoWords 0xb00e 0x402a 0).get .instrs + UInt32.ofNat (4 / 2) = 2 := by
    decide +kernel
  exact ⟨hsize, f, hlift, ⟨charged, rest, last, hall, hcharges.trans hlist⟩, exit, _, heval,
    hcycles.trans hcycles', hinstrs.trans hinstrs'⟩

end Recompiler.Sh4
