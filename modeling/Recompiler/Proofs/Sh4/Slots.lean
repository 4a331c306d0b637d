import Recompiler.Proofs.Sh4.Blocks

/-!
Delayed branches. The code of the branch and of its slot does what one step of the interpreter does,
unless the instruction in the slot is itself a conditional branch that is taken: the interpreter
then overwrites its target, while the lifted code leaves for it.
-/
namespace Recompiler.Sh4

open IR Meaning State Fragment

variable {f : Fragment} {b : BlockId} {l : List InstrId} {cells : Cells} {m : Interp.Memory Board}
  {s t w : State} {op : Op} {scale addr raw begin : UInt32} {mem : Option FastMem}

/-! ### The slot -/

/-- The instruction is not a branch without slot whose condition holds. -/
def Quiet (op : Op) (s : State) : Prop :=
  (op = .bt → Context.t s.ctx = false) ∧ (op = .bf → Context.t s.ctx = true)

theorem emits_here : Emits guest offsets Lift.here f cells m fun _ f' s' m' =>
    f' = f ∧ s' = cells ∧ m' = m :=
  fun _ _ _ hopen =>
    ⟨f.point, f, [], cells, m, rfl, .refl hopen, .nil _ _, fun _ _ => rfl, rfl, rfl, rfl⟩

/-- A conditional branch without slot whose condition does not hold does nothing. -/
theorem emits_branchIf_untaken {wanted : Bool} (h : Context.t m.world.ctx ≠ wanted) :
    Emits guest offsets
      (Lift.branchIf addr raw (if wanted then .branchTrue else .branchFalse)) f cells m
      fun _ _ _ m' => m' = m := by
  refine emits_loadT.bind ?_
  rintro c f₁ s₁ m₁ - ⟨rfl, hc⟩
  refine emits_here.bind ?_
  rintro mark f₂ s₂ m₂ - ⟨rfl, rfl, rfl⟩
  refine (emits_i32 (condTarget addr raw)).bind ?_
  rintro d f₃ s₃ m₃ hkeep ⟨rfl, hd⟩
  have huntaken := isTaken_t m₃.world wanted
  rw [beq_eq_false_iff_ne.mpr h] at huntaken
  refine (emits_untaken (by cases wanted <;> simp [IsCondition]) rfl (hkeep hc) hd huntaken).bind ?_
  rintro _ f₄ s₄ m₄ - rfl
  exact .pure rfl

/-- The code of an instruction in a slot. -/
theorem emits_slot (hslot : op.has .delayed = false) (hraw : decode raw = op) (ht : Alike m.world t)
    (hquiet : Quiet op t) : Emits guest offsets (Lift.instr none scale op addr raw) f cells m
      fun _ _ _ m' => Alike m'.world (perform op addr raw t) := by
  cases hpc : op.has .storePc with
  | false => exact emits_plain hpc ht
  | true =>
    cases hlift : op.isLifted with
    | false =>
      refine (emits_interpreted hlift hslot hraw ht).mono ?_
      rintro _ f₁ s₁ m₁ - ⟨x, y, heq⟩
      rw [heq]
      exact (Alike.refl _).counted x y
    | true =>
      obtain ⟨wanted, hop⟩ := conditional_of hpc hlift hslot
      rw [instr_lifted hlift, lifted_conditional hop, map_eq_pure_bind, perform_conditional hop]
      refine (emits_sourceInfo addr _).bind ?_
      rintro _ f₁ s₁ m₁ - rfl
      have ht₁ : Alike (m.world.charge offsets (op.info.cycles * scale)) t := ht.charge _
      have huntaken : Context.t (m.world.charge offsets (op.info.cycles * scale)).ctx ≠ wanted := by
        rw [ht₁.t_eq]
        cases wanted with
        | true => simp [hquiet.1 hop]
        | false => simp [hquiet.2 hop]
      have hbranch : Emits guest offsets (Lift.branchIf addr raw _) f₁ s₁
        (withWorld m (m.world.charge offsets (op.info.cycles * scale))) _ :=
        emits_branchIf_untaken huntaken
      refine hbranch.bind ?_
      rintro mark f₂ s₂ m₂ - rfl
      exact .pure (ht₁.trans ((Alike.refl t).moved _).symm)

/-! ### The pair -/

/-- The code of a branch and its slot, and the way out. -/
theorem lift_pair (hop : decode (s.fetch begin) = op) (hdelayed : op.has .delayed = true) :
    lift mem s begin 4 = (do
      let mark ← Lift.instr mem (scaleOf s begin) op begin (s.fetch begin)
      Lift.slot s mem (scaleOf s begin) op mark (begin + 2)
      Lift.finish op (begin + 4)) := by
  have hbegin : begin + UInt32.ofNat 0 = begin := by simp
  unfold lift Lift.instrs
  dsimp only
  rw [if_pos (by decide), hbegin, hop, hdelayed]
  simp only [if_true, bind_assoc]
  unfold Lift.instrs
  rfl

/-- The slot of a lifted branch is inserted at its mark. -/
theorem slot_lifted {slotOp : Op} (hraw : decode (s.fetch addr) = slotOp)
    (hslot : slotOp.has .delayed = false) (hlift : op.isLifted = true) (mark : InsertPoint) :
    Lift.slot s mem scale op (some mark) addr =
      Lift.insertAt mark (Lift.instr mem scale slotOp addr (s.fetch addr)) := by
  unfold Lift.slot
  dsimp only
  rw [hraw, hslot, hlift]
  rfl

/-- The slot of an interpreted branch is charged. -/
theorem slot_interpreted {slotOp : Op} (hraw : decode (s.fetch addr) = slotOp)
    (hslot : slotOp.has .delayed = false) (hlift : op.isLifted = false)
    (mark : Option InsertPoint) :
    Lift.slot s mem scale op mark addr = Lift.charge slotOp addr scale := by
  unfold Lift.slot
  dsimp only
  rw [hraw, hslot, hlift]
  rfl

theorem runSlot_eq {slotOp : Op} (hraw : decode (s.fetch addr) = slotOp)
    (hslot : slotOp.has .delayed = false) :
    runSlot addr s = .ok (perform slotOp addr (s.fetch addr) s) := by
  unfold runSlot
  dsimp only
  rw [hraw, hslot]
  rfl

theorem storePc_of_delayed (h : op.has .delayed = true) : op.has .storePc = true := by
  cases op <;> first | rfl | cases h

theorem endsBlock_of_delayed (h : op.has .delayed = true) : op.endsBlock = true := by
  cases op <;> first | rfl | cases h

theorem step_delayed (hs : s.Sized) (hpc : s.get .pc = begin) (hop : decode (s.fetch begin) = op)
    (hdelayed : op.has .delayed = true) (hroom : s.HasRoom offsets op.info.cycles)
    (h : interpret op begin (s.fetch begin) s = .ok t) :
    step s = .ok (t.charge offsets op.info.cycles) := by
  have hcharge := World.chargeChecked_eq ((interpret_spends hs h).hasRoom_iff.mpr hroom)
  unfold step
  dsimp only
  rw [hpc, hop, h, storePc_of_delayed hdelayed]
  exact hcharge

/-- A branch and its slot are a block. -/
theorem blockSize_delayed {slotOp : Op} (hop : decode (s.fetch begin) = op)
    (hdelayed : op.has .delayed = true) (hraw : decode (s.fetch (begin + 2)) = slotOp)
    (hslot : slotOp.has .delayed = false) : blockSize s begin = .ok 4 := by
  have hbegin : begin + UInt32.ofNat 0 = begin := by simp
  have hnext : begin + UInt32.ofNat (0 + 2) = begin + 2 := rfl
  unfold blockSize
  rw [show maxBlockInstrs = 1023 + 1 from rfl, blockSizeFrom, hbegin, hnext, hop]
  dsimp only
  rw [hraw, hdelayed, hslot, endsBlock_of_delayed hdelayed]
  rfl

/-! ### Jumps -/

/-- The code that computes the target of a jump. -/
def targetCode (op : Op) (addr raw : UInt32) : Build ValueId :=
  match op with
  | .bra | .bsr => Build.i32 (farTarget addr raw)
  | .braf | .bsrf => Lift.relativeTarget addr raw
  | .jmp | .jsr => Lift.load (.r (rn raw))
  | _ => Lift.load .pr

/-- The target of a jump. -/
def targetOf (op : Op) (addr raw : UInt32) (s : State) : UInt32 :=
  match op with
  | .bra | .bsr => farTarget addr raw
  | .braf | .bsrf => s.get (.r (rn raw)) + (addr + 4)
  | .jmp | .jsr => s.get (.r (rn raw))
  | _ => s.get .pr

/-- Whether a jump writes the link register. -/
def links : Op → Bool
  | .bsr | .bsrf | .jsr => true
  | _ => false

/-- The lifted delayed branches without a condition. -/
def IsJump (op : Op) : Prop := op.has .delayed = true ∧ op.has .conditional = false ∧
    op.isLifted = true

theorem lifted_jump (h : IsJump op) (mem : Option FastMem) (addr raw : UInt32) :
    Lift.lifted mem op addr raw =
      (do some <$> Lift.jump addr (← targetCode op addr raw) (links op)) := by
  obtain ⟨hdelayed, hplain, hlift⟩ := h
  cases op
  case bra | bsr | braf | bsrf | jmp | jsr | rts =>
    simp only [Lift.lifted, Lift.jumpTo, targetCode, links, map_eq_pure_bind, bind_assoc]
  case btS | bfS => cases hplain
  case rte => cases hlift
  all_goals cases hdelayed

theorem interpret_jump (h : IsJump op) (addr raw : UInt32) (s : State) :
    interpret op addr raw s = jump addr (targetOf op addr raw s) (links op) s := by
  obtain ⟨hdelayed, hplain, hlift⟩ := h
  cases op
  case bra | bsr | braf | bsrf | jmp | jsr | rts => rfl
  case btS | bfS => cases hplain
  case rte => cases hlift
  all_goals cases hdelayed

theorem emits_target (op : Op) (addr raw : UInt32) :
    Emits guest offsets (targetCode op addr raw) f cells m fun v f' s' m' =>
      m' = m ∧ Holds32 f' s' v (targetOf op addr raw m.world) := by
  have hrelative : Emits guest offsets (Lift.relativeTarget addr raw) f cells m fun v f' s' m' =>
      m' = m ∧ Holds32 f' s' v (State.get m.world (.r (rn raw)) + (addr + 4)) := by
    refine (emits_load (.r (rn raw))).bind ?_
    rintro a f₁ s₁ m₁ - ⟨rfl, ha⟩
    refine (emits_i32 (addr + 4)).bind ?_
    rintro c f₂ s₂ m₂ hkeep ⟨rfl, hc⟩
    exact emits_add (hkeep ha) hc
  cases op
  case bra | bsr => exact emits_i32 _
  case braf | bsrf => exact hrelative
  case jmp | jsr => exact emits_load (.r (rn raw))
  all_goals exact emits_load .pr

theorem targetOf_alike (ht : Alike s t) (op : Op) (addr raw : UInt32) :
    targetOf op addr raw s = targetOf op addr raw t := by
  have hreg : ∀ n, s.get (.r n) = t.get (.r n) := fun n => ht.get (by simp) (by simp) (by simp)
  have hpr : s.get .pr = t.get .pr := ht.get (by simp) (by simp) (by simp)
  cases op <;> simp only [targetOf, hreg, hpr]

theorem linked_alike (ht : Alike s t) (addr : UInt32) (link : Bool) :
    Alike (linked addr link s) (linked addr link t) := by
  cases link with
  | true => exact ht.set (by simp) (by simp) (by simp) (addr + 4)
  | false => exact ht

/-! ### Conditional branches -/

theorem delayedConditional_of (hdelayed : op.has .delayed = true)
    (hcond : op.has .conditional = true) :
    ∃ wanted : Bool, op = if wanted then .btS else .bfS := by
  cases op
  case btS => exact ⟨true, rfl⟩
  case bfS => exact ⟨false, rfl⟩
  case bra | bsr | braf | bsrf | jmp | jsr | rts | rte => cases hcond
  all_goals cases hdelayed

theorem lifted_delayedConditional {wanted : Bool} (hop : op = if wanted then .btS else .bfS)
    (mem : Option FastMem) (addr raw : UInt32) : Lift.lifted mem op addr raw =
      some <$> Lift.branchIf addr raw (if wanted then .branchTrue else .branchFalse) := by
  rw [hop]
  cases wanted <;> rfl

/-! ### Pairs and steps -/

section
variable {slotOp : Op}

/-- What the code of the branch and its slot leads to. -/
def PairDoes (s : State) (begin : UInt32) (t : State) : Prop :=
  ∃ f, lift none s begin 4 Fragment.empty = .ok ((), f) ∧
    ∃ exit x y, Evaluates guest offsets f s (.ok (exit, t.counted x y))

/-- The branch is charged first. -/
theorem charge_first (op : Op) (s : State) (begin scale : UInt32) : ∃ f l cells m,
    Lift.charge op begin scale opened = .ok ((), f) ∧ Single f ⟨0⟩ l ∧ Open f ⟨0⟩ l [] ∧
      RunsTo guest offsets f l s cells m ∧ Alike m.world s := by
  have hcharge : Emits guest offsets (Lift.charge op begin scale) opened (fun _ => 0) ⟨#[], s⟩ _ :=
    emits_sourceInfo begin _
  obtain ⟨_, f, l, cells, m, hact, hext, hrun, -, rfl⟩ := hcharge ⟨0⟩ [] [] open_opened
  exact ⟨f, l, cells, _, hact, single_opened.append hext, hext.opened, hrun,
    (Alike.refl s).charge _⟩

theorem pair_jump (hop : decode (s.fetch begin) = op) (hjump : IsJump op)
    (hraw : decode (s.fetch (begin + 2)) = slotOp) (hslot : slotOp.has .delayed = false)
    (hquiet : Quiet slotOp s) :
    ∃ t, interpret op begin (s.fetch begin) s = .ok t ∧ PairDoes s begin t := by
  obtain ⟨u, hu⟩ : ∃ u : State, u = perform slotOp (begin + 2) (s.fetch (begin + 2)) s := ⟨_, rfl⟩
  obtain ⟨x, hx⟩ : ∃ x, x = targetOf op begin (s.fetch begin) s := ⟨_, rfl⟩
  refine ⟨(linked begin (links op) u).set .pc x, ?_, ?_⟩
  · rw [interpret_jump hjump, ← hx]
    unfold jump
    rw [runSlot_eq hraw hslot, ← hu]
    rfl
  obtain ⟨f₁, l₁, s₁, m₁, hact, hsingle, hopen, hrun, ht⟩ :=
    charge_first op s begin (scaleOf s begin)
  have htarget : Emits guest offsets (targetCode op begin (s.fetch begin)) f₁ s₁ m₁ _ :=
    emits_target op begin (s.fetch begin)
  rw [targetOf_alike ht, ← hx] at htarget
  have hslotCode :
    ∀ f' s', Emits guest offsets (Lift.instr none (scaleOf s begin) slotOp (begin + 2)
      (s.fetch (begin + 2))) f' s' m₁ fun _ _ _ m' => Alike m'.world u := by
    intro f' s'
    rw [hu]
    exact emits_slot hslot hraw ht hquiet
  obtain ⟨f₂, hbranch, m₂, exit, hm₂, heval⟩ :=
    evaluates_jump begin hsingle hopen hrun (links op) htarget hslotCode
  obtain ⟨x', y', heq⟩ := (linked_alike hm₂ begin (links op)).set_pc x
  refine ⟨f₂, ?_, exit, x', y', ?_⟩
  · have hlift := hjump.2.2
    have hfinish : Lift.finish op (begin + 4) = return () := by
      unfold Lift.finish
      rw [storePc_of_delayed hjump.1, hjump.2.1, hlift]
      rfl
    have hend : ∀ act : Build Unit, (act >>= fun _ => return ()) = act := bind_pure
    rw [lift_opened (by decide), lift_pair hop hjump.1, instr_lifted hlift,
      lifted_jump hjump, hfinish]
    simp only [map_eq_pure_bind, bind_assoc, pure_bind, slot_lifted hraw hslot hlift]
    rw [bind_ok hact]
    simpa only [hend] using hbranch
  · rw [← heq]
    exact heval

theorem pair_conditional {wanted : Bool} (hop : decode (s.fetch begin) = op)
    (hbranch : op = if wanted then .btS else .bfS)
    (hraw : decode (s.fetch (begin + 2)) = slotOp) (hslot : slotOp.has .delayed = false)
    (hquiet : Quiet slotOp s) :
    ∃ t, interpret op begin (s.fetch begin) s = .ok t ∧ PairDoes s begin t := by
  obtain ⟨u, hu⟩ : ∃ u : State, u = perform slotOp (begin + 2) (s.fetch (begin + 2)) s := ⟨_, rfl⟩
  obtain ⟨x, hx⟩ : ∃ x, x = if Context.t s.ctx == wanted then condTarget begin (s.fetch begin)
    else begin + 4 := ⟨_, rfl⟩
  refine ⟨u.set .pc x, ?_, ?_⟩
  · have hinterpret : interpret op begin (s.fetch begin) s =
        delayedBranchIf begin (s.fetch begin) wanted s := by
      rw [hbranch]
      cases wanted <;> rfl
    rw [hinterpret]
    unfold delayedBranchIf
    rw [runSlot_eq hraw hslot, ← hu, hx]
    rfl
  obtain ⟨f₁, l₁, s₁, m₁, hact, hsingle, hopen, hrun, ht⟩ :=
    charge_first op s begin (scaleOf s begin)
  have hslotCode :
    ∀ f' s', Emits guest offsets (Lift.instr none (scaleOf s begin) slotOp (begin + 2)
      (s.fetch (begin + 2))) f' s' m₁ fun _ _ _ m' => Alike m'.world u := by
    intro f' s'
    rw [hu]
    exact emits_slot hslot hraw ht hquiet
  have hfalls : (op.has .storePc && !op.has .conditional) = false := by
    rw [hbranch]
    cases wanted <;> rfl
  have hcondition : IsCondition (if wanted then .branchTrue else .branchFalse) := by
    cases wanted <;> simp [IsCondition]
  obtain ⟨f₂, hcode, m₂, exit, hm₂, heval⟩ := evaluates_conditional begin
    (s.fetch begin) (begin + 4) hfalls hsingle hopen hrun hcondition hslotCode
  rw [isTaken_t, ht.t_eq, ← hx] at heval
  obtain ⟨x', y', heq⟩ := hm₂.set_pc x
  refine ⟨f₂, ?_, exit, x', y', ?_⟩
  · have hdelayed : op.has .delayed = true := by
      rw [hbranch]
      cases wanted <;> rfl
    have hlift : op.isLifted = true := by
      rw [hbranch]
      cases wanted <;> rfl
    rw [lift_opened (by decide), lift_pair hop hdelayed, instr_lifted hlift,
      lifted_delayedConditional hbranch]
    simp only [map_eq_pure_bind, bind_assoc, pure_bind, slot_lifted hraw hslot hlift]
    rw [bind_ok hact]
    exact hcode
  · rw [← heq]
    exact heval

theorem instr_rte (mem : Option FastMem) (scale addr raw : UInt32) :
    Lift.instr mem scale .rte addr raw = (do
      Lift.charge .rte addr scale
      Build.fallback Recompiler.Lift.Routine.interpret.address addr raw
      return none) := rfl

theorem pair_rte (hop : decode (s.fetch begin) = .rte)
    (hraw : decode (s.fetch (begin + 2)) = slotOp) (hslot : slotOp.has .delayed = false) :
    ∃ t, interpret .rte begin (s.fetch begin) s = .ok t ∧ PairDoes s begin t := by
  obtain ⟨t, ht⟩ : ∃ t, interpret .rte begin (s.fetch begin) s = .ok t := by
    unfold interpret
    dsimp only
    rw [runSlot_eq hraw hslot]
    exact ⟨_, rfl⟩
  refine ⟨t, ht, ?_⟩
  -- the interpreter runs the slot as well, so the slot is only charged
  have hcode : Emits guest offsets (do
      Lift.charge .rte begin (scaleOf s begin)
      Build.fallback Recompiler.Lift.Routine.interpret.address begin (s.fetch begin)
      Lift.charge slotOp (begin + 2) (scaleOf s begin)) opened (fun _ => 0) ⟨#[], s⟩
        fun _ _ _ m' => ∃ x y, m'.world = State.counted t x y := by
    have hcall :
      ∀ x y, guest.fallback Recompiler.Lift.Routine.interpret.address begin (s.fetch begin)
        (s.counted x y) = .ok (t.counted x y) := by
      intro x y
      change interpret (decode (s.fetch begin)) begin (s.fetch begin) (s.counted x y) = _
      rw [hop, interpret_counted, ht]
      rfl
    refine (emits_sourceInfo begin _).bind ?_
    rintro _ f₁ s₁ m₁ - hm₁
    obtain ⟨x, y, hworld⟩ : ∃ x y, m₁.world = State.counted s x y := by
      rw [hm₁, world_withWorld, charge_eq]
      exact ⟨_, _, rfl⟩
    have hword := hcall x y
    rw [← hworld] at hword
    refine (emits_fallback _ begin (s.fetch begin) hword).bind ?_
    rintro _ f₂ s₂ m₂ - hm₂
    refine (emits_sourceInfo (begin + 2) _).mono ?_
    rintro _ f₃ s₃ m₃ - hm₃
    rw [hm₃, hm₂, world_withWorld, world_withWorld, charge_eq, counted_counted]
    exact ⟨_, _, rfl⟩
  obtain ⟨_, f₁, l₁, s₁, m₁, hact, hext, hrun, -, x, y, hworld⟩ := hcode ⟨0⟩ [] [] open_opened
  obtain ⟨f₂, hbranch, exit, heval⟩ := evaluates_pc (single_opened.append hext) hext.opened hrun
  refine ⟨f₂, ?_, exit, x, y, ?_⟩
  · have hlift : Op.rte.isLifted = false := rfl
    have hfinish : Lift.finish .rte (begin + 4) = Lift.load .pc >>= Build.branch := rfl
    have hall : lift none s begin 4 = (do
        Lift.charge .rte begin (scaleOf s begin)
        Build.fallback Recompiler.Lift.Routine.interpret.address begin (s.fetch begin)
        Lift.charge slotOp (begin + 2) (scaleOf s begin)) >>= fun _ =>
          Lift.load .pc >>= Build.branch := by
      rw [lift_pair hop rfl, instr_rte, hfinish]
      simp only [slot_interpreted hraw hslot hlift, bind_assoc, pure_bind]
    rw [lift_opened (by decide), hall, bind_ok hact]
    exact hbranch
  · rw [← hworld]
    exact heval

end

/-- A delayed branch and the instruction in its slot are a block, and its code does what one step
does, apart from the counters, which have to have room for the step. An instruction in the slot of a
lifted branch must not be a conditional branch that is taken. -/
theorem pair_does_step (s : State) (hs : s.Sized)
    (hroom : s.HasRoom offsets (decode (s.fetch (s.get .pc))).info.cycles)
    (hdelayed : (decode (s.fetch (s.get .pc))).has .delayed = true)
    (hslot : (decode (s.fetch (s.get .pc + 2))).has .delayed = false)
    (hquiet : decode (s.fetch (s.get .pc)) = .rte ∨ Quiet (decode (s.fetch (s.get .pc + 2))) s) :
    blockSize s (s.get .pc) = .ok 4 ∧ ∃ t, step s = .ok t ∧
      ∃ f, lift none s (s.get .pc) 4 Fragment.empty = .ok ((), f) ∧
        ∃ exit x y, Evaluates guest offsets f s (.ok (exit, t.counted x y)) := by
  refine ⟨blockSize_delayed rfl hdelayed rfl hslot, ?_⟩
  obtain ⟨op, hop⟩ : ∃ op, decode (s.fetch (s.get .pc)) = op := ⟨_, rfl⟩
  rw [hop] at hroom hdelayed hquiet
  have hpair : ∃ t, interpret op (s.get .pc) (s.fetch (s.get .pc)) s = .ok t ∧
      PairDoes s (s.get .pc) t := by
    cases hlift : op.isLifted with
    | false =>
      obtain rfl : op = .rte := by
        cases op
        case rte => rfl
        case btS | bfS | bra | bsr | braf | bsrf | jmp | jsr | rts => cases hlift
        all_goals cases hdelayed
      exact pair_rte hop rfl hslot
    | true =>
      have hquiet : Quiet (decode (s.fetch (s.get .pc + 2))) s := by
        obtain rfl | hquiet := hquiet
        · cases hlift
        · exact hquiet
      cases hcond : op.has .conditional with
      | false => exact pair_jump hop ⟨hdelayed, hcond, hlift⟩ rfl hslot hquiet
      | true =>
        obtain ⟨wanted, hbranch⟩ := delayedConditional_of hdelayed hcond
        exact pair_conditional hop hbranch rfl hslot hquiet
  obtain ⟨t, hinterpret, f, hlift, exit, x, y, heval⟩ := hpair
  refine ⟨_, step_delayed hs rfl hop hdelayed hroom hinterpret, f, hlift, exit, x, y, ?_⟩
  rw [charge_eq, counted_counted]
  exact heval

/-- Two words at 0, with the status register given and all other registers zero. -/
def twoWords (word slot sr : UInt16) : State where
  ctx := Context.set (Array.replicate (4 * Field.all.length) 0) .sr sr.toUInt32
  rest := { ram := {
    data := #[word.toUInt8, (word >>> 8).toUInt8, slot.toUInt8, (slot >>> 8).toUInt8], mask := 3 } }

theorem twoWords_sized (word slot sr : UInt16) : (twoWords word slot sr).Sized := by
  unfold Sized twoWords
  rw [Context.size_set, Array.size_replicate]

/-- `bsr` with `lds r0,pr` in its slot: the link overwrites what the slot wrote. -/
theorem pair_does_step_link : (twoWords 0xb00e 0x402a 0).Sized ∧
    (twoWords 0xb00e 0x402a 0).get .pc = 0 ∧
    (twoWords 0xb00e 0x402a 0).HasRoom offsets Op.bsr.info.cycles ∧
    decode ((twoWords 0xb00e 0x402a 0).fetch 0) = .bsr ∧
    decode ((twoWords 0xb00e 0x402a 0).fetch 2) = .ldsPr ∧
    Quiet .ldsPr (twoWords 0xb00e 0x402a 0) ∧ blockSize (twoWords 0xb00e 0x402a 0) 0 = .ok 4 ∧
    ∃ t, step (twoWords 0xb00e 0x402a 0) = .ok t ∧
      ∃ f, lift none (twoWords 0xb00e 0x402a 0) 0 4 Fragment.empty = .ok ((), f) ∧
        ∃ exit x y, Evaluates guest offsets f (twoWords 0xb00e 0x402a 0)
          (.ok (exit, t.counted x y)) := by
  have hpc : (twoWords 0xb00e 0x402a 0).get .pc = 0 := by decide +kernel
  -- both words at once: the table of patterns is then computed only once
  have hops : decode ((twoWords 0xb00e 0x402a 0).fetch 0) = .bsr ∧
      decode ((twoWords 0xb00e 0x402a 0).fetch (0 + 2)) = .ldsPr := by decide +kernel
  obtain ⟨hop, hraw⟩ := hops
  have hroom : (twoWords 0xb00e 0x402a 0).HasRoom offsets Op.bsr.info.cycles := by decide +kernel
  have hquiet : Quiet .ldsPr (twoWords 0xb00e 0x402a 0) := by simp [Quiet]
  have hs := twoWords_sized 0xb00e 0x402a 0
  have h := pair_does_step (twoWords 0xb00e 0x402a 0) hs
  rw [hpc, hop, hraw] at h
  exact ⟨hs, hpc, hroom, hop, hraw, hquiet, h hroom rfl rfl (.inr hquiet)⟩

/-! ### Taken branches in the slot -/

section
variable {slotOp : Op} {wanted : Bool} {l₁ l₂ : List InstrId}

/-- The code of a conditional branch whose condition holds comes to its branch, and nothing has been
written but the counters. -/
theorem instr_taken (scale addr raw : UInt32) (cells : Cells)
    (hslot : slotOp = if wanted then .bt else .bf) (ht : Alike m.world s)
    (hwanted : Context.t s.ctx = wanted) (hopen : Open f b l₁ l₂) :
    ∃ a f' l i s' m', Lift.instr none scale slotOp addr raw f = .ok (a, f') ∧
      Extends f f' b l₁ (l ++ [i]) l₂ ∧ Runs f' guest offsets l cells m s' m' ∧
      Alike m'.world s ∧ Taken f' s' i (condTarget addr raw) := by
  have hlift : slotOp.isLifted = true := by
    rw [hslot]
    cases wanted <;> rfl
  have hcode : Emits guest offsets (do Lift.charge slotOp addr scale; Lift.loadT) f cells m
      fun c f' s' m' => Alike m'.world s ∧ Holds32 f' s' c (s.get .sr &&& srT) := by
    refine (emits_sourceInfo addr _).bind ?_
    rintro _ f₁ s₁ m₁ - rfl
    refine emits_loadT.mono ?_
    rintro c f₂ s₂ m₂ - ⟨rfl, hc⟩
    have ht₁ := ht.charge (slotOp.info.cycles * scale)
    rw [world_withWorld, ht₁.get (by simp) (by simp) (by simp)] at hc
    exact ⟨ht₁, hc⟩
  obtain ⟨c, f₁, l, s', m', hact, hext, hrun, -, ht', hc⟩ := hcode b l₁ l₂ hopen
  obtain ⟨d, i, f₂, hbranch, hext₂, hi, hd⟩ := branchIfTo_ok hext.opened
    (if wanted then .branchTrue else .branchFalse) hc.lt (by rw [hc.ty_eq]; rfl)
    (condTarget addr raw)
  refine ⟨some f₁.point, f₂, l, i, s', m', ?_, hext.trans hext₂, hrun.grows hext₂.grows, ht', ?_⟩
  · rw [instr_lifted hlift, lifted_conditional hslot]
    unfold Lift.branchIf Lift.here
    simp only [map_eq_pure_bind, bind_assoc, pure_bind]
    rw [← bind_assoc, bind_ok hact,
      bind_ok (show (get : Build Fragment) f₁ = .ok (f₁, f₁) from rfl),
      ← bind_assoc, bind_ok hbranch]
    rfl
  · refine ⟨_, c, d, _, _, ?_, hi, hc.grows hext₂.grows fun _ _ => rfl, ?_, hd s'⟩
    · cases wanted <;> simp [IsCondition]
    · rw [isTaken_t, hwanted, beq_self_eq_true]

/-- The code of a lifted delayed branch: what stands before the mark only reads, and something
stands behind it. -/
theorem lifted_marked (addr raw : UInt32) (hdelayed : op.has .delayed = true)
    (hlift : op.isLifted = true)
    (hopen : Open f b l []) (cells : Cells) (m : Interp.Memory Board) : ∃ f₁ f₂ l₁ l₂ s',
      Lift.lifted none op addr raw f = .ok (some ⟨some b, (l ++ l₁).getLast?⟩, f₂) ∧
        Extends f f₁ b l l₁ [] ∧ Runs f₁ guest offsets l₁ cells m s' m ∧
        Extends f₁ f₂ b (l ++ l₁) l₂ [] ∧ l₂ ≠ [] := by
  cases hcond : op.has .conditional with
  | true =>
    obtain ⟨wanted, hbranch⟩ := delayedConditional_of hdelayed hcond
    have hcode : Emits guest offsets Lift.loadT f cells m _ := emits_loadT
    obtain ⟨c, f₁, l₁, s', m, hact, hext, hrun, -, rfl, hc⟩ := hcode b l [] hopen
    obtain ⟨d, i, f₂, hact₂, hext₂, -, -⟩ := branchIfTo_ok hext.opened
      (if wanted then .branchTrue else .branchFalse) hc.lt (by rw [hc.ty_eq]; rfl)
      (condTarget addr raw)
    refine ⟨f₁, f₂, l₁, [i], s', ?_, hext, hrun, hext₂, by simp⟩
    rw [lifted_delayedConditional hbranch]
    unfold Lift.branchIf Lift.here
    simp only [map_eq_pure_bind, bind_assoc, pure_bind]
    rw [bind_ok hact,
      bind_ok (show (get : Build Fragment) f₁ = .ok (f₁, f₁) from rfl), ← bind_assoc,
      bind_ok hact₂, hext.opened.point]
    rfl
  | false =>
    have hcode : Emits guest offsets (targetCode op addr raw) f cells m _ :=
      emits_target op addr raw
    obtain ⟨v, f₁, l₁, s', m, hact, hext, hrun, -, rfl, hv⟩ := hcode b l [] hopen
    have hlink : Emits guest offsets (linkCode addr (links op)) f₁ s' m _ :=
      emits_link addr (links op)
    obtain ⟨_, f₂, l₂, _, _, hact₂, hext₂, -, -, -⟩ := hlink b (l ++ l₁) [] hext.opened
    have hv₂ : Holds32 f₂ s' v _ := hv.grows hext₂.grows fun _ _ => rfl
    obtain ⟨f₃, hact₃, hemit⟩ := branch_ok hext₂.opened hv₂.lt hv₂.ty_eq
    refine ⟨f₁, f₃, l₁, _, s', ?_, hext, hrun, hext₂.trans (extends_of_emitted hemit), by simp⟩
    rw [lifted_jump ⟨hdelayed, hcond, hlift⟩]
    simp only [jump_eq]
    unfold Lift.here
    simp only [map_eq_pure_bind, bind_assoc, pure_bind]
    rw [bind_ok hact, bind_ok (show (get : Build Fragment) f₁ = .ok (f₁, f₁) from rfl),
      bind_ok hact₂,
      bind_ok hact₃, hext.opened.point]
    rfl

/-- What is built behind the code of a delayed branch leaves it as it is. -/
theorem finish_ok (hop : (op.has .storePc && !op.has .conditional) = true → op.isLifted = true)
    (h : Single f b l) (hopen : Open f b l []) (next : UInt32) : ∃ f' l',
      Lift.finish op next f = .ok ((), f') ∧ Grows f f' ∧ Single f' b (l ++ l') := by
  cases hleave : op.has .storePc && !op.has .conditional with
  | true =>
    refine ⟨f, [], ?_, .refl f, by rwa [List.append_nil]⟩
    unfold Lift.finish
    rw [hleave, hop hleave]
    rfl
  | false =>
    obtain ⟨v, i, f', hact, hext, -, -⟩ := branchTo_ok hopen next
    refine ⟨f', [i], ?_, hext.grows, h.append hext⟩
    rw [finish_falls hleave h hopen, hact]

/-- A taken branch in the slot: the code leaves for its target, with nothing done by the branch that
the slot belongs to. -/
theorem pair_leaves_from_slot (hop : decode (s.fetch begin) = op)
    (hdelayed : op.has .delayed = true)
    (hlift : op.isLifted = true) (hraw : decode (s.fetch (begin + 2)) = slotOp)
    (hslot : slotOp = if wanted then .bt else .bf) (hwanted : Context.t s.ctx = wanted) :
    PairDoes s begin (s.set .pc (condTarget (begin + 2) (s.fetch (begin + 2)))) := by
  obtain ⟨f₁, l₁, s₁, m₁, hact₁, hsingle₁, hopen₁, hrun₁, ht⟩ :=
    charge_first op s begin (scaleOf s begin)
  obtain ⟨f₂, f₃, l₂, l₃, s₂, hact₃, hext₂, hrun₂, hext₃, hne⟩ :=
    lifted_marked begin (s.fetch begin) hdelayed hlift hopen₁ s₁ m₁
  have hsingle₃ := (hsingle₁.append hext₂).append hext₃
  have hmark : Open (f₃.setPoint ⟨some ⟨0⟩, (l₁ ++ l₂).getLast?⟩) ⟨0⟩ (l₁ ++ l₂) l₃ :=
    ⟨hsingle₃.chain.setPoint _, rfl⟩
  obtain ⟨a, f₄, l₄, i, s₄, m₄, hact₄, hext₄, hrun₄, ht₄, htaken⟩ := instr_taken
    (scaleOf s begin) (begin + 2) (s.fetch (begin + 2)) s₂ hslot ht hwanted hmark
  obtain ⟨f₅, hact₅, hsingle₅, hopen₅, hgrows₅⟩ :=
    insertAt_code hsingle₃ hext₃.opened hne hact₄ hext₄
  obtain ⟨f₆, l₆, hact₆, hgrows₆, hsingle₆⟩ :=
    finish_ok (fun _ => hlift) hsingle₅ hopen₅ (begin + 4)
  have hgrows₂ : Grows f₂ f₆ :=
    (((hext₃.grows.trans (grows_setPoint _ _)).trans hext₄.grows).trans hgrows₅).trans hgrows₆
  have hrun := (((hrun₁.grows hext₂.grows).append hrun₂).grows hgrows₂).append
    (hrun₄.grows (hgrows₅.trans hgrows₆))
  have hsplit : l₁ ++ l₂ ++ (l₄ ++ [i]) ++ l₃ ++ l₆ = (l₁ ++ l₂ ++ l₄) ++ i :: (l₃ ++ l₆) := by simp
  rw [hsplit] at hsingle₆
  obtain ⟨exit, heval⟩ := (htaken.grows (hgrows₅.trans hgrows₆)).evaluates hsingle₆ hrun
  obtain ⟨x, y, heq⟩ := ht₄.set_pc (condTarget (begin + 2) (s.fetch (begin + 2)))
  refine ⟨f₆, ?_, exit, x, y, ?_⟩
  · rw [lift_opened (by decide), lift_pair hop hdelayed, instr_lifted hlift]
    simp only [bind_assoc]
    rw [bind_ok hact₁, bind_ok hact₃, slot_lifted hraw ?_ hlift, bind_ok hact₅, hact₆]
    rw [hslot]
    cases wanted <;> rfl
  · rw [← heq]
    exact heval

end

/-- `bra` with a taken `bt` in its slot: the step goes to the target of `bra`, the code to that of
`bt`. -/
theorem pair_ne_step_taken : (twoWords 0xa00e 0x891e 1).get .pc = 0 ∧
    decode ((twoWords 0xa00e 0x891e 1).fetch 0) = .bra ∧
    decode ((twoWords 0xa00e 0x891e 1).fetch 2) = .bt ∧
    ∃ t, step (twoWords 0xa00e 0x891e 1) = .ok t ∧ t.get .pc = 0x20 ∧
      ∃ f, lift none (twoWords 0xa00e 0x891e 1) 0 4 Fragment.empty = .ok ((), f) ∧
        ∃ exit last, Evaluates guest offsets f (twoWords 0xa00e 0x891e 1) (.ok (exit, last)) ∧
          State.get last .pc = 0x42 := by
  have hpc : (twoWords 0xa00e 0x891e 1).get .pc = 0 := by decide +kernel
  have hops : decode ((twoWords 0xa00e 0x891e 1).fetch 0) = .bra ∧
      decode ((twoWords 0xa00e 0x891e 1).fetch (0 + 2)) = .bt ∧
      ((step (twoWords 0xa00e 0x891e 1)).map (·.get .pc)).toOption = some 0x20 := by
    decide +kernel
  obtain ⟨hop, hraw, hstep⟩ := hops
  have htrue : Context.t (twoWords 0xa00e 0x891e 1).ctx = true := by decide +kernel
  obtain ⟨f, hlift, exit, x, y, heval⟩ := pair_leaves_from_slot hop rfl rfl hraw
    (show Op.bt = if true then Op.bt else Op.bf from rfl) htrue
  refine ⟨hpc, hop, hraw, ?_⟩
  cases h : step (twoWords 0xa00e 0x891e 1) with
  | error e =>
    rw [h] at hstep
    cases hstep
  | ok t =>
    rw [h] at hstep
    refine ⟨t, rfl, Option.some.inj hstep, f, hlift, exit, _, heval, ?_⟩
    rw [get_counted _ _ _ (by decide) (by decide), get_set_same (twoWords_sized _ _ _)]
    decide +kernel

end Recompiler.Sh4
