import Recompiler.Proofs.Sh4.Alike
import Recompiler.Proofs.Sh4.Branches
import Recompiler.Proofs.Sh4.Counters
import Recompiler.Proofs.Sh4.Instructions

/-!
Lifted blocks without delayed branches. The code of a block does what the interpreter does step by
step, one step for each instruction; it differs in the counters, and in the pc until it leaves.
-/
namespace Recompiler.Sh4

open IR Meaning State Fragment Machine

/-! ### Steps -/

/-- The state behind an instruction without a slot. -/
def behind (op : Op) (addr raw : UInt32) (s : State) : State :=
  if op.has .storePc then perform op addr raw s else (perform op addr raw s).set .pc (addr + 2)

variable {s t : State} {op : Op} {addr raw : UInt32}

theorem State.Sized.behind (hs : s.Sized) (op : Op) (addr raw : UInt32) :
    (behind op addr raw s).Sized := by
  unfold Sh4.behind
  split
  · exact Sized.perform hs _ _ _
  · exact (Sized.perform hs _ _ _).set _ _

/-- An instruction without a slot does not change the counters. -/
theorem behind_spends (hs : s.Sized) (hslot : op.has .delayed = false) (addr raw : UInt32) :
    Spends offsets s 0 0 (behind op addr raw s) := by
  have hperform := interpret_spends hs (interpret_eq hslot addr raw s)
  unfold behind
  split
  · exact hperform
  · exact hperform.trans (spends_set_pc placed_offsets _ _)

theorem step_eq (hs : s.Sized) (hpc : s.get .pc = addr) (hop : decode (s.fetch addr) = op)
    (hslot : op.has .delayed = false) (hroom : s.HasRoom offsets op.info.cycles) :
    step s = .ok ((behind op addr (s.fetch addr) s).charge offsets op.info.cycles) := by
  have hbehind := (behind_spends hs hslot addr (s.fetch addr)).hasRoom_iff.mpr hroom
  rw [← World.chargeChecked_eq hbehind]
  subst hop
  unfold step behind
  simp only [hpc, interpret_eq hslot]
  rfl

/-- A step counts what it costs. -/
theorem step_spends (hs : s.Sized) (hslot : op.has .delayed = false) (addr raw : UInt32) :
    Spends offsets s op.info.cycles 1 ((behind op addr raw s).charge offsets op.info.cycles) := by
  have hcharge := spends_charge placed_offsets (hs.behind op addr raw) op.info.cycles
  have hboth := (behind_spends hs hslot addr raw).trans hcharge
  rwa [UInt32.zero_add, UInt32.zero_add] at hboth

/-! ### Single instructions -/

variable {f : Fragment} {cells : Cells} {m : Interp.Memory Board} {scale : UInt32}

theorem isLifted_of_storePc (hop : op.has .storePc = false) : op.isLifted = true := by
  cases op <;> first | rfl | cases hop

theorem instr_lifted (hop : op.isLifted = true) (mem : Option FastMem) (scale addr raw : UInt32) :
    Lift.instr mem scale op addr raw = (do
      Lift.charge op addr scale
      Lift.lifted mem op addr raw) := by
  have hpc : op.has .loadPc = false := by
    cases op <;> first | rfl | cases hop
  unfold Lift.instr
  rw [hpc, hop]
  simp only [Bool.false_eq_true, if_false, if_true]

theorem lifted_of_storePc (hop : op.has .storePc = false) (mem : Option FastMem)
    (addr raw : UInt32) :
    Lift.lifted mem op addr raw = (do Lift.simple mem op addr raw; return none) := by
  cases op
  case bt | bf | btS | bfS | bra | bsr | braf | bsrf | jmp | jsr | rts | rte | trapa | invalid =>
    cases hop
  all_goals rfl

/-- An instruction that does not write the pc. -/
theorem emits_plain (hop : op.has .storePc = false) (ht : Alike m.world t) :
    Emits guest offsets (Lift.instr none scale op addr raw) f cells m fun _ _ _ m' =>
      Alike m'.world (perform op addr raw t) := by
  rw [instr_lifted (isLifted_of_storePc hop), lifted_of_storePc hop]
  refine (emits_sourceInfo addr _).bind ?_
  rintro _ f₁ s₁ m₁ - rfl
  refine (emits_simple none raw hop addr).bind ?_
  rintro _ f₂ s₂ m₂ - rfl
  refine .pure ?_
  have hslot : op.has .delayed = false := by
    cases op <;> first | rfl | cases hop
  rw [performVia_none]
  exact (ht.charge _).perform hslot addr raw

/-- An instruction that is left to the interpreter. -/
theorem emits_interpreted (hop : op.isLifted = false) (hslot : op.has .delayed = false)
    (hraw : decode raw = op) (ht : Alike m.world t) :
    Emits guest offsets (Lift.instr none scale op addr raw) f cells m fun _ _ _ m' =>
      ∃ x y, m'.world = (perform op addr raw t).counted x y := by
  have hpc : op.has .storePc = true := by
    cases op <;> first | rfl | cases hop
  -- the code from the entry of the routine on
  have hcall : ∀ {f : Fragment} {cells : Cells} {m : Interp.Memory Board}, Alike m.world t →
      Emits guest offsets (do
        Build.fallback Recompiler.Lift.Routine.interpret.address addr raw
        return (none : Option InsertPoint)) f cells m fun _ _ _ m' =>
          ∃ x y, m'.world = (perform op addr raw t).counted x y := by
    intro f cells m ht
    have hword : guest.fallback Recompiler.Lift.Routine.interpret.address addr raw m.world =
        .ok (perform op addr raw m.world) := by
      change interpret (decode raw) addr raw m.world = _
      rw [hraw, interpret_eq hslot]
    refine (emits_fallback _ addr raw hword).bind ?_
    rintro _ f₁ s₁ m₁ - rfl
    exact .pure (ht.perform_storePc hpc hslot addr raw)
  unfold Lift.instr
  refine (emits_sourceInfo addr _).bind ?_
  rintro _ f₁ s₁ m₁ - rfl
  rw [hop]
  simp only [Bool.false_eq_true, if_false]
  split
  · refine (emits_storeConst .pc addr).bind ?_
    rintro _ f₂ s₂ m₂ - rfl
    exact hcall ((ht.charge _).moved addr)
  · exact hcall (ht.charge _)

/-! ### The last instruction -/

variable {b : BlockId} {l : List InstrId} {w : State} {next : UInt32}

theorem insertAt_nothing (mark : InsertPoint) : Lift.insertAt mark (return none) = return () := rfl

theorem isTaken_t (s : State) (wanted : Bool) :
    isTaken (if wanted then .branchTrue else .branchFalse) (State.get s .sr &&& srT).toUInt64 =
      (Context.t s.ctx == wanted) := by
  have hword : State.get s .sr &&& srT = (Context.t s.ctx).toUInt32 := t_word s.ctx
  rw [hword]
  cases Context.t s.ctx <;> cases wanted <;> rfl

/-- Behind an instruction that does not write the pc. -/
theorem leaves_plain (hop : op.has .storePc = false) (h : Single f b l) (hopen : Open f b l [])
    (hrun : RunsTo guest offsets f l w cells m) (ht : Alike m.world t) (next : UInt32) :
    ∃ f', (do let _ ← Lift.instr none scale op addr raw; Lift.finish op next) f = .ok ((), f') ∧
      ∃ exit x y, Evaluates guest offsets f' w
        (.ok (exit, ((perform op addr raw t).set .pc next).counted x y)) := by
  have hinstr : Emits guest offsets (Lift.instr none scale op addr raw) f cells m _ :=
    emits_plain hop ht
  obtain ⟨a, f₁, l₁, s₁, m₁, hact, hext, hrun₁, -, ht₁⟩ := hinstr b l [] hopen
  have hsingle := h.append hext
  obtain ⟨f₂, hbranch, exit, heval⟩ := evaluates_emits_branch (x := next) hsingle hext.opened
    ((hrun.grows hext.grows).append hrun₁) ((emits_i32 next).mono fun v f' s' m' _ hv =>
      ⟨congrArg Interp.Memory.world hv.1, hv.2⟩)
  obtain ⟨x, y, heq⟩ := ht₁.set_pc next
  refine ⟨f₂, ?_, exit, x, y, ?_⟩
  · rw [bind_ok hact, finish_falls (by rw [hop]; rfl) hsingle hext.opened]
    exact hbranch
  · rw [← heq]
    exact heval

/-- Behind an instruction that the interpreter has executed. -/
theorem leaves_interpreted (hop : op.isLifted = false) (hslot : op.has .delayed = false)
    (hraw : decode raw = op) (h : Single f b l) (hopen : Open f b l [])
    (hrun : RunsTo guest offsets f l w cells m) (ht : Alike m.world t) (next : UInt32) :
    ∃ f', (do let _ ← Lift.instr none scale op addr raw; Lift.finish op next) f = .ok ((), f') ∧
      ∃ exit x y, Evaluates guest offsets f' w
        (.ok (exit, (perform op addr raw t).counted x y)) := by
  have hinstr : Emits guest offsets (Lift.instr none scale op addr raw) f cells m _ :=
    emits_interpreted hop hslot hraw ht
  obtain ⟨a, f₁, l₁, s₁, m₁, hact, hext, hrun₁, -, x, y, hworld⟩ := hinstr b l [] hopen
  obtain ⟨f₂, hbranch, exit, heval⟩ :=
    evaluates_pc (h.append hext) hext.opened ((hrun.grows hext.grows).append hrun₁)
  refine ⟨f₂, ?_, exit, x, y, ?_⟩
  · have hleave : (op.has .storePc && !op.has .conditional) = true := by
      cases op <;> first | rfl | cases hop
    rw [bind_ok hact]
    unfold Lift.finish
    rw [if_pos hleave, hop]
    exact hbranch
  · rw [← hworld]
    exact heval

/-- The lifted instructions without a slot that write the pc. -/
theorem conditional_of (hpc : op.has .storePc = true) (hlift : op.isLifted = true)
    (hslot : op.has .delayed = false) : ∃ wanted : Bool, op = if wanted then .bt else .bf := by
  cases op
  case bt => exact ⟨true, rfl⟩
  case bf => exact ⟨false, rfl⟩
  case btS | bfS | bra | bsr | braf | bsrf | jmp | jsr | rts | rte => cases hslot
  case trapa | invalid => cases hlift
  all_goals cases hpc

theorem lifted_conditional {wanted : Bool} (hop : op = if wanted then .bt else .bf)
    (mem : Option FastMem) (addr raw : UInt32) : Lift.lifted mem op addr raw =
      some <$> Lift.branchIf addr raw (if wanted then .branchTrue else .branchFalse) := by
  rw [hop]
  cases wanted <;> rfl

theorem perform_conditional {wanted : Bool} (hop : op = if wanted then .bt else .bf)
    (addr raw : UInt32) (s : State) : perform op addr raw s = s.branchIf addr raw wanted := by
  rw [hop]
  cases wanted <;> rfl

/-- Behind a conditional branch without a slot. -/
theorem leaves_conditional {wanted : Bool} (hop : op = if wanted then .bt else .bf)
    (h : Single f b l) (hopen : Open f b l []) (hrun : RunsTo guest offsets f l w cells m)
    (ht : Alike m.world t) :
    ∃ f', (do let _ ← Lift.instr none scale op addr raw; Lift.finish op (addr + 2)) f =
      .ok ((), f') ∧
      ∃ exit x y, Evaluates guest offsets f' w
        (.ok (exit, (perform op addr raw t).counted x y)) := by
  have hcharge : Emits guest offsets (Lift.charge op addr scale) f cells m _ :=
    emits_sourceInfo addr _
  obtain ⟨_, f₁, l₁, s₁, m₁, hact, hext, hrun₁, -, rfl⟩ := hcharge b l [] hopen
  have hfalls : (op.has .storePc && !op.has .conditional) = false := by
    rw [hop]
    cases wanted <;> rfl
  have hcondition : IsCondition (if wanted then .branchTrue else .branchFalse) := by
    cases wanted <;> simp [IsCondition]
  have hslot : ∀ f' s', Emits guest offsets (return none : Build (Option InsertPoint)) f' s'
      (withWorld m (m.world.charge offsets (op.info.cycles * scale))) fun _ _ _ m' =>
        m' = withWorld m (m.world.charge offsets (op.info.cycles * scale)) :=
    fun _ _ => .pure rfl
  obtain ⟨f₂, hbranch, m₂, exit, rfl, heval⟩ := evaluates_conditional addr raw (addr + 2) hfalls
    (h.append hext) hext.opened ((hrun.grows hext.grows).append hrun₁) hcondition hslot
  have ht₁ : Alike (m.world.charge offsets (op.info.cycles * scale)) t := ht.charge _
  obtain ⟨x, y, heq⟩ :=
    ht₁.set_pc (if Context.t t.ctx == wanted then condTarget addr raw else addr + 2)
  refine ⟨f₂, ?_, exit, x, y, ?_⟩
  · have hcode : (do let _ ← Lift.instr none scale op addr raw; Lift.finish op (addr + 2)) = (do
        Lift.charge op addr scale
        let mark ← Lift.branchIf addr raw (if wanted then .branchTrue else .branchFalse)
        Lift.insertAt mark (return none)
        Lift.finish op (addr + 2)) := by
      have hlift : op.isLifted = true := by
        rw [hop]
        cases wanted <;> rfl
      rw [instr_lifted hlift, lifted_conditional hop]
      simp only [bind_assoc, map_eq_pure_bind, pure_bind, insertAt_nothing]
    rw [hcode, bind_ok hact, hbranch]
  · rw [perform_conditional hop, branchIf, ← heq, ← ht₁.t_eq, ← isTaken_t]
    exact heval

/-- Behind any instruction without a slot. -/
theorem leaves_last (scale addr raw : UInt32) (hslot : op.has .delayed = false)
    (hraw : decode raw = op) (h : Single f b l) (hopen : Open f b l [])
    (hrun : RunsTo guest offsets f l w cells m) (ht : Alike m.world t) :
    ∃ f', (do let _ ← Lift.instr none scale op addr raw; Lift.finish op (addr + 2)) f =
      .ok ((), f') ∧
      ∃ exit x y, Evaluates guest offsets f' w
        (.ok (exit, (behind op addr raw t).counted x y)) := by
  unfold behind
  cases hpc : op.has .storePc with
  | false => exact leaves_plain hpc h hopen hrun ht (addr + 2)
  | true =>
    cases hlift : op.isLifted with
    | false => exact leaves_interpreted hlift hslot hraw h hopen hrun ht (addr + 2)
    | true =>
      obtain ⟨wanted, hop⟩ := conditional_of hpc hlift hslot
      exact leaves_conditional hop h hopen hrun ht

/-! ### Instructions of a block -/

/-- The address of the instruction `n` of the block at `begin`. -/
def place (begin : UInt32) (n : Nat) : UInt32 := begin + UInt32.ofNat (2 * n)

/-- The instruction `n` of the block at `begin`. -/
def opAt (s : State) (begin : UInt32) (n : Nat) : Op := decode (s.fetch (place begin n))

/-- The code of the instruction `n`. -/
def instrAt (s : State) (mem : Option FastMem) (scale begin : UInt32) (n : Nat) :
    Build (Option InsertPoint) :=
  Lift.instr mem scale (opAt s begin n) (place begin n) (s.fetch (place begin n))

/-- What `n` instructions from the instruction `k` on cost. -/
def cost (s : State) (begin : UInt32) (k n : Nat) : Nat :=
  ((List.range' k n).map fun i => (opAt s begin i).info.cycles.toNat).sum

variable {begin : UInt32} {mem : Option FastMem}

theorem cost_succ (s : State) (begin : UInt32) (k n : Nat) :
    cost s begin k (n + 1) = (opAt s begin k).info.cycles.toNat + cost s begin (k + 1) n := rfl

theorem cost_append (s : State) (begin : UInt32) (k n : Nat) :
    cost s begin k (n + 1) = cost s begin k n + (opAt s begin (k + n)).info.cycles.toNat := by
  simp [cost, List.range'_concat]

theorem place_zero (begin : UInt32) : place begin 0 = begin := by
  simp [place]

theorem place_add (begin : UInt32) (n k : Nat) :
    place begin (n + k) = place begin n + UInt32.ofNat (2 * k) := by
  rw [place, place, Nat.mul_add, UInt32.ofNat_add, UInt32.add_assoc]

/-- One instruction without a slot. -/
theorem instrs_step {size k fuel : Nat} (last : Option Op) (hk : 2 * k < size)
    (hplain : (opAt s begin k).has .delayed = false) :
    Lift.instrs s mem scale begin size (fuel + 1) (2 * k) last = (do
      let _ ← instrAt s mem scale begin k
      Lift.instrs s mem scale begin size fuel (2 * (k + 1)) (some (opAt s begin k))) := by
  rw [Lift.instrs, if_pos hk]
  unfold opAt place at hplain
  simp only [hplain, Bool.false_eq_true, if_false]
  rfl

theorem instrs_end {size k : Nat} (fuel : Nat) (last : Option Op) (hk : size ≤ 2 * k) :
    Lift.instrs s mem scale begin size fuel (2 * k) last = return last := by
  cases fuel with
  | zero => rfl
  | succ fuel => rw [Lift.instrs, if_neg (by omega)]

/-- The instructions up to the last one, and the last one. -/
theorem instrs_eq (s : State) (mem : Option FastMem) (scale begin : UInt32) (n k fuel : Nat)
    (last : Option Op) (hfuel : n < fuel)
    (hplain : ∀ i ≤ n, (opAt s begin (k + i)).has .delayed = false) :
    Lift.instrs s mem scale begin (2 * (k + n + 1)) fuel (2 * k) last = (do
      (List.range' k n).forM fun i => do let _ ← instrAt s mem scale begin i
      let _ ← instrAt s mem scale begin (k + n)
      return some (opAt s begin (k + n))) := by
  have hfirst := hplain 0 (Nat.zero_le _)
  rw [Nat.add_zero] at hfirst
  induction n generalizing k fuel last with
  | zero =>
    obtain ⟨fuel, rfl⟩ := Nat.exists_eq_succ_of_ne_zero (Nat.ne_of_gt hfuel)
    rw [instrs_step last (by omega) hfirst, instrs_end fuel _ (by omega), List.range'_zero,
      List.forM_eq_forM, List.forM_nil, pure_bind]
    rfl
  | succ n ih =>
    obtain ⟨fuel, rfl⟩ := Nat.exists_eq_succ_of_ne_zero (show fuel ≠ 0 by omega)
    have hrest : ∀ i ≤ n, (opAt s begin (k + 1 + i)).has .delayed = false := by
      intro i hi
      have hi' := hplain (i + 1) (by omega)
      rwa [show k + (i + 1) = k + 1 + i by omega] at hi'
    have hnext := ih (k + 1) fuel (some (opAt s begin k)) (by omega) hrest (hrest 0 (Nat.zero_le _))
    rw [show k + 1 + n + 1 = k + (n + 1) + 1 by omega, show k + 1 + n =
      k + (n + 1) by omega] at hnext
    rw [instrs_step last (by omega) hfirst, hnext, List.range'_succ, List.forM_eq_forM,
      List.forM_cons, bind_assoc, bind_assoc]
    rfl

/-- The first instruction of a block opens the first block of the fragment. -/
theorem lift_opened {size : Nat} (hsize : 0 < size) :
    lift mem s begin size Fragment.empty = lift mem s begin size opened := by
  obtain ⟨n, rfl⟩ := Nat.exists_eq_succ_of_ne_zero (Nat.ne_of_gt hsize)
  unfold lift Lift.instrs Lift.instr Lift.charge
  simp only [hsize, if_true, bind_assoc]
  exact sourceInfo_empty _ _ _

/-- How often the cost of the instructions of a block is charged. -/
def scaleOf (s : State) (begin : UInt32) : UInt32 :=
  if isIdleLoop s begin then Lift.idleScale else 1

/-- The code of a block without delayed branches. -/
theorem lift_eq (n : Nat) (hplain : ∀ i ≤ n, (opAt s begin i).has .delayed = false) :
    lift mem s begin (2 * (n + 1)) = (do
      (List.range' 0 n).forM fun i => do let _ ← instrAt s mem (scaleOf s begin) begin i
      let _ ← instrAt s mem (scaleOf s begin) begin n
      Lift.finish (opAt s begin n) (place begin (n + 1))) := by
  have hinstrs := instrs_eq s mem (scaleOf s begin) begin n 0 (2 * (n + 1)) none (by omega)
    (by simpa using hplain)
  rw [Nat.zero_add, Nat.mul_zero] at hinstrs
  unfold lift
  dsimp only
  rw [show (if isIdleLoop s begin then Lift.idleScale else 1) = scaleOf s begin from rfl, hinstrs]
  simp only [bind_assoc, pure_bind]
  rfl

/-! ### Extent -/

theorem storePc_of_endsBlock (hop : op.endsBlock = false) : op.has .storePc = false := by
  cases op <;> first | rfl | cases hop

/-- From an unfinished size on, a block gets at least one instruction. None before the last one
writes the pc, and only the last one can have a slot. -/
theorem blockSizeFrom_spec (fuel k size : Nat) (h : maxBlockInstrs ≤ k + fuel)
    (hk : k < maxBlockInstrs) (hsize : blockSizeFrom s begin fuel (2 * k) = .ok size) :
    ∃ n, (∀ i < n, (opAt s begin (k + i)).has .storePc = false) ∧
      size = 2 * (k + n + 1) + (if (opAt s begin (k + n)).has .delayed then 2 else 0) := by
  induction fuel generalizing k with
  | zero => omega
  | succ fuel ih =>
    unfold blockSizeFrom at hsize
    have hop : decode (s.fetch (begin + UInt32.ofNat (2 * k))) = opAt s begin k := rfl
    simp only [hop] at hsize
    cases hslot : (opAt s begin k).has .delayed with
    | true =>
      have hend : (opAt s begin k).endsBlock = true := by
        generalize opAt s begin k = op at hslot
        cases op <;> first | rfl | cases hslot
      simp only [hslot, hend, Bool.true_or, if_true] at hsize
      refine ⟨0, fun i hi => absurd hi (by omega), ?_⟩
      simp only [Nat.add_zero, hslot, if_true]
      split at hsize
      · cases hsize
      · cases hsize
        omega
    | false =>
      simp only [hslot, Bool.false_eq_true, if_false] at hsize
      cases hend : (opAt s begin k).endsBlock || decide ((2 * k + 2) / 2 ≥ maxBlockInstrs) with
      | true =>
        rw [hend] at hsize
        cases hsize
        refine ⟨0, fun i hi => absurd hi (by omega), ?_⟩
        simp only [Nat.add_zero, hslot, Bool.false_eq_true, if_false]
        omega
      | false =>
        rw [hend] at hsize
        rw [Bool.or_eq_false_iff, decide_eq_false_iff_not] at hend
        obtain ⟨n, hn, hsize'⟩ := ih (k + 1) (by omega) (by omega) hsize
        refine ⟨n + 1, ?_, ?_⟩
        · intro i hi
          cases i with
          | zero => exact storePc_of_endsBlock hend.1
          | succ i =>
            have hi' := hn i (by omega)
            rwa [show k + 1 + i = k + (i + 1) by omega] at hi'
        · rw [hsize', show k + 1 + n = k + (n + 1) by omega]

/-! ### Blocks and steps -/

/-- The instructions before the last one do what as many steps do, if the counters have room for
them. -/
theorem emits_instrs (s : State) (scale begin : UInt32) (n k a c : Nat) (hs : t.Sized)
    (hpc : t.get .pc = place begin k) (hroom : t.Lasts offsets (cost s begin k n + a) (n + c))
    (hplain : ∀ i < n, (opAt s begin (k + i)).has .storePc = false)
    (hcode : ∀ i < n, ∀ u, steps step i t = .ok u →
      u.fetch (place begin (k + i)) = s.fetch (place begin (k + i))) :
    ∃ t', steps step n t = .ok t' ∧ t'.get .pc = place begin (k + n) ∧ t'.Sized ∧
      t'.Lasts offsets a c ∧
      ∀ (f : Fragment) (cells : Cells) (m : Interp.Memory Board), Alike m.world t →
        Emits guest offsets ((List.range' k n).forM fun i => do
          let _ ← instrAt s none scale begin i) f cells m fun _ _ _ m' => Alike m'.world t' := by
  induction n generalizing k t with
  | zero =>
    refine ⟨t, rfl, hpc, hs, by simpa [cost] using hroom, fun _ _ _ ht => ?_⟩
    rw [List.range'_zero, List.forM_eq_forM, List.forM_nil]
    exact .pure ht
  | succ n ih =>
    have hfirst : (opAt s begin k).has .storePc = false := hplain 0 (by omega)
    have hword : t.fetch (place begin k) = s.fetch (place begin k) := hcode 0 (by omega) t rfl
    have hop : decode (t.fetch (place begin k)) = opAt s begin k := by
      rw [hword]
      rfl
    have hslot : (opAt s begin k).has .delayed = false := by
      generalize opAt s begin k = op at hfirst
      cases op <;> first | rfl | cases hfirst
    rw [cost_succ, Nat.add_assoc, Nat.add_right_comm] at hroom
    obtain ⟨t₁, ht₁⟩ : ∃ t₁ : State, t₁ = (behind (opAt s begin k) (place begin k)
      (s.fetch (place begin k)) t).charge offsets (opAt s begin k).info.cycles := ⟨_, rfl⟩
    have hstep : step t = .ok t₁ := by
      rw [step_eq hs hpc hop hslot hroom.hasRoom, hword, ht₁]
    have hspends : Spends offsets t (opAt s begin k).info.cycles 1 t₁ := by
      rw [ht₁]
      exact step_spends hs hslot _ _
    have hbehind : behind (opAt s begin k) (place begin k) (s.fetch (place begin k)) t =
        (perform (opAt s begin k) (place begin k) (s.fetch (place begin k)) t).set .pc
          (place begin (k + 1)) := by
      unfold behind
      rw [hfirst, if_neg (by decide), place_add]
      rfl
    have hpc₁ : t₁.get .pc = place begin (k + 1) := by
      rw [ht₁, charge_eq, get_counted _ _ _ (by decide) (by decide), hbehind]
      exact get_set_same (Sized.perform hs _ _ _) _ _
    have hnext : ∀ i, k + 1 + i = k + (i + 1) := by omega
    obtain ⟨t', hsteps, hpc', hs', hroom', hemit⟩ := ih (k + 1) (hspends.size_eq.trans hs) hpc₁
      (hspends.lasts hroom) (fun i hi => by rw [hnext]; exact hplain (i + 1) (by omega))
      (fun i hi u hu => by
        rw [hnext]
        refine hcode (i + 1) (by omega) u ?_
        rw [steps_cons hstep, hu])
    refine ⟨t', ?_, by rw [hpc', hnext], hs', hroom', fun f cells m ht => ?_⟩
    · rw [steps_cons hstep, hsteps]
    · rw [List.range'_succ, List.forM_eq_forM, List.forM_cons, bind_assoc]
      have hinstr : Emits guest offsets (instrAt s none scale begin k) f cells m _ :=
        emits_plain hfirst ht
      refine hinstr.bind ?_
      rintro _ f₁ s₁ m₁ - hm₁
      rw [pure_bind]
      refine hemit f₁ s₁ m₁ (hm₁.trans ?_)
      rw [ht₁, hbehind]
      exact (((Alike.refl _).moved _).charge _).symm

/-- A block without delayed branches does what as many steps do as it has instructions, whatever its
counters are, where the steps have counters with room for them. -/
theorem block_does_counted (s : State) (hs : s.Sized) (x y : UInt32) {size : Nat}
    (hsize : blockSize s (s.get .pc) = .ok size)
    (hroom : (s.counted x y).Lasts offsets (cost s (s.get .pc) 0 (size / 2)) (size / 2))
    (hplain : ∀ i < size / 2, (opAt s (s.get .pc) i).has .delayed = false)
    (hcode : ∀ i < size / 2, ∀ u, steps step i (s.counted x y) = .ok u →
      u.fetch (place (s.get .pc) i) = s.fetch (place (s.get .pc) i)) :
    ∃ t, steps step (size / 2) (s.counted x y) = .ok t ∧
      ∃ f, lift none s (s.get .pc) size Fragment.empty = .ok ((), f) ∧
        ∃ exit x y, Evaluates guest offsets f s (.ok (exit, t.counted x y)) := by
  obtain ⟨n, hn, hextent⟩ :=
    blockSizeFrom_spec maxBlockInstrs 0 size (Nat.le_add_left _ _) (by decide) hsize
  rw [Nat.zero_add] at hextent
  have hcount : n < size / 2 := by omega
  have hslot : (opAt s (s.get .pc) n).has .delayed = false := hplain n hcount
  rw [hslot, if_neg (by decide), Nat.add_zero] at hextent
  subst hextent
  have hhalf : 2 * (n + 1) / 2 = n + 1 := by omega
  rw [hhalf] at hplain hcode hroom ⊢
  set begin := s.get .pc with hbegin
  rw [cost_append, Nat.zero_add] at hroom
  have hpc₀ : (s.counted x y).get .pc = place begin 0 := by
    rw [place_zero, get_counted _ _ _ (by decide) (by decide)]
  obtain ⟨t, hsteps, hpc, hs', hroom', hemit⟩ := emits_instrs s (scaleOf s begin) begin n 0 _ _
    (Sized.counted x y hs) hpc₀ hroom hn fun i hi u hu => by simpa using hcode i (by omega) u hu
  rw [Nat.zero_add] at hpc
  obtain ⟨_, f₁, l₁, s₁, m₁, hact, hext, hrun, -, ht⟩ := hemit opened (fun _ => 0) ⟨#[], s⟩
    ((Alike.refl s).counted x y).symm ⟨0⟩ [] [] open_opened
  have hword : t.fetch (place begin n) = s.fetch (place begin n) := hcode n (by omega) t hsteps
  have hop : decode (t.fetch (place begin n)) = opAt s begin n := by
    rw [hword]
    rfl
  obtain ⟨f₂, hlast, exit, x, y, heval⟩ := leaves_last (scaleOf s begin)
    (place begin n) (s.fetch (place begin n)) hslot rfl (single_opened.append hext)
    hext.opened hrun ht
  refine ⟨(behind (opAt s begin n) (place begin n) (s.fetch (place begin n)) t).charge offsets
    (opAt s begin n).info.cycles, ?_, f₂, ?_, exit, x, y, ?_⟩
  · have hstep := step_eq hs' hpc hop hslot (hroom'.hasRoom (a := 0) (b := 0))
    rw [hword] at hstep
    rw [steps_succ, hsteps]
    exact hstep
  · rw [lift_opened (by omega), lift_eq n fun i hi => hplain i (by omega), bind_ok hact, place_add]
    exact hlast
  · rw [charge_eq, counted_counted]
    exact heval

/-- A block without delayed branches does what as many steps do as it has instructions, apart from
the counters, as long as every instruction is still in its place when its turn comes, and the
counters have room for the steps. -/
theorem block_does_steps (s : State) (hs : s.Sized) {size : Nat}
    (hsize : blockSize s (s.get .pc) = .ok size)
    (hroom : s.Lasts offsets (cost s (s.get .pc) 0 (size / 2)) (size / 2))
    (hplain : ∀ i < size / 2, (opAt s (s.get .pc) i).has .delayed = false)
    (hcode : ∀ i < size / 2, ∀ u, steps step i s = .ok u →
      u.fetch (place (s.get .pc) i) = s.fetch (place (s.get .pc) i)) :
    ∃ t, steps step (size / 2) s = .ok t ∧
      ∃ f, lift none s (s.get .pc) size Fragment.empty = .ok ((), f) ∧
        ∃ exit x y, Evaluates guest offsets f s (.ok (exit, t.counted x y)) := by
  have h := block_does_counted s hs (s.get .cycles) (s.get .instrs) hsize
  rw [counted_get] at h
  exact h hroom hplain hcode

theorem ok_of_toOption {ε α : Type} {x : Except ε α} {a : α} (h : x.toOption = some a) :
    x = .ok a := by
  cases x with
  | error e => cases h
  | ok b => exact congrArg Except.ok (Option.some.inj h)

/-- `mov #3,r0`, `sett` and a branch on T back to the first one, with all registers zero. -/
def threeWords : State where
  ctx := Array.replicate (4 * Field.all.length) 0
  rest := { ram := { data := #[0x03, 0xe0, 0x18, 0x00, 0xfc, 0x89, 0x09, 0x00], mask := 7 } }

theorem threeWords_sized : threeWords.Sized := Array.size_replicate

theorem block_does_steps_back : threeWords.Sized ∧ threeWords.get .pc = 0 ∧
    blockSize threeWords 0 = .ok 6 ∧ threeWords.Lasts offsets (cost threeWords 0 0 3) 3 ∧
    (∀ i < 3, (opAt threeWords 0 i).has .delayed = false) ∧
    (∀ i < 3, ∀ u, steps step i threeWords = .ok u →
      u.fetch (place 0 i) = threeWords.fetch (place 0 i)) ∧
    ∃ t, steps step 3 threeWords = .ok t ∧
      ∃ f, lift none threeWords 0 6 Fragment.empty = .ok ((), f) ∧
        ∃ exit x y, Evaluates guest offsets f threeWords (.ok (exit, t.counted x y)) := by
  have hpc : threeWords.get .pc = 0 := by decide +kernel
  -- all at once: the table of patterns is then computed only once
  have hwords : (blockSize threeWords 0).toOption = some 6 ∧
      threeWords.Lasts offsets (cost threeWords 0 0 3) 3 ∧
      (∀ i < 3, (opAt threeWords 0 i).has .delayed = false) ∧
      ∀ i < 3, ((steps step i threeWords).map (·.fetch (place 0 i))).toOption =
        some (threeWords.fetch (place 0 i)) := by
    decide +kernel
  obtain ⟨hblock, hroom, hplain, hword⟩ := hwords
  have hsize : blockSize threeWords 0 = .ok 6 := ok_of_toOption hblock
  have hcode : ∀ i < 3, ∀ u, steps step i threeWords = .ok u →
      u.fetch (place 0 i) = threeWords.fetch (place 0 i) := by
    intro i hi u hu
    have hi' := hword i hi
    rw [hu] at hi'
    exact Option.some.inj hi'
  refine ⟨threeWords_sized, hpc, hsize, hroom, hplain, hcode, ?_⟩
  have h := @block_does_steps threeWords threeWords_sized 6
  rw [hpc] at h
  exact h hsize hroom hplain hcode

/-- `threeWords` with the counter of cycles at its lowest. -/
def spentWords : State := threeWords.counted 0x80000000 0

/-- The steps do not all end: one stops where the counter of cycles cannot go down any more. -/
theorem block_outlasts_steps : ¬∀ s : State, s.Sized → ∀ size : Nat,
    blockSize s (s.get .pc) = .ok size →
    (∀ i < size / 2, (opAt s (s.get .pc) i).has .delayed = false) →
    (∀ i < size / 2, ∀ u, steps step i s = .ok u →
      u.fetch (place (s.get .pc) i) = s.fetch (place (s.get .pc) i)) →
    ∃ t, steps step (size / 2) s = .ok t ∧
      ∃ f, lift none s (s.get .pc) size Fragment.empty = .ok ((), f) ∧
        ∃ exit x y, Evaluates guest offsets f s (.ok (exit, t.counted x y)) := by
  intro h
  have hpc : spentWords.get .pc = 0 := by decide +kernel
  have hwords : (blockSize spentWords 0).toOption = some 6 ∧
      (∀ i < 3, (opAt spentWords 0 i).has .delayed = false) ∧
      (step spentWords).toOption.isSome = false := by
    decide +kernel
  obtain ⟨hblock, hplain, hstep⟩ := hwords
  have hfault : ∀ u, step spentWords ≠ .ok u := by
    intro u hu
    rw [hu] at hstep
    cases hstep
  have hcode : ∀ i < 3, ∀ u, steps step i spentWords = .ok u →
      u.fetch (place 0 i) = spentWords.fetch (place 0 i) := by
    intro i _ u hu
    cases i with
    | zero => rw [← Except.ok.inj hu]
    | succ i =>
      obtain ⟨v, hv, -⟩ := Interp.bind_eq_ok hu
      exact absurd hv (hfault v)
  have hall := h spentWords (Sized.counted _ _ threeWords_sized) 6
  rw [hpc] at hall
  obtain ⟨t, ht, -⟩ := hall (ok_of_toOption hblock) hplain hcode
  obtain ⟨v, hv, -⟩ := Interp.bind_eq_ok ht
  exact hfault v hv

end Recompiler.Sh4
