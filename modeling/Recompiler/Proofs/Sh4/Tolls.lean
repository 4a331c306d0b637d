import Recompiler.Proofs.IR.Tidying
import Recompiler.Proofs.Sh4.Charges
import Recompiler.Proofs.Sh4.Status

/-!
Lifted blocks pay a toll: their fragments are tidy, and what they charge is known.
-/
namespace Recompiler.Sh4

open IR Meaning State Fragment

variable {mem : Option FastMem} {op : Op} {begin : UInt32} {s : State} {f : Fragment}

/-! ### Tidy code -/

theorem tidies_load (r : Field) : Tidies (Lift.load r) := tidies_loadContext _ rfl

theorem tidies_store (r : Field) (v : ValueId) : Tidies (Lift.store r v) := tidies_storeContext _ v

theorem tidies_storeConst (r : Field) (x : UInt32) : Tidies (Lift.storeConst r x) :=
  (tidies_i32 x).bind fun v => tidies_store r v

theorem tidies_move (dst src : Field) : Tidies (Lift.move dst src) :=
  (tidies_load src).bind fun v => tidies_store dst v

theorem tidies_loadT : Tidies Lift.loadT :=
  (tidies_load .sr).bind fun sr => (tidies_i32 srT).bind fun c => tidies_intBinary (by decide) sr c

theorem tidies_storeT (v : ValueId) : Tidies (Lift.storeT v) := by
  refine (tidies_tyOf v).bind fun ty => ?_
  have hrest : ∀ t, Tidies (do
      let sr ← Lift.load .sr
      let cleared ← Build.and sr (← Build.i32 (~~~srT))
      Lift.store .sr (← Build.or cleared t)) := fun t =>
    (tidies_load .sr).bind fun sr => (tidies_i32 _).bind fun c =>
      (tidies_intBinary (by decide) sr c).bind fun d =>
      (tidies_intBinary (by decide) d t).bind fun e =>
        tidies_store .sr e
  split
  · exact (tidies_pure v).bind hrest
  · exact (tidies_convert (by decide) v rfl).bind hrest

theorem tidies_notify (r : Recompiler.Lift.Routine) (old : ValueId) : Tidies (Lift.notify r old) :=
  (tidies_convert (by decide) old rfl).bind fun v => tidies_call _ (some v) none

theorem tidies_storeSr (v : ValueId) : Tidies (Lift.storeSr v) :=
  (tidies_load .sr).bind fun old => (tidies_store .sr v).bind fun _ => tidies_notify _ old

theorem tidies_storeFpscr (v : ValueId) : Tidies (Lift.storeFpscr v) :=
  (tidies_load .fpscr).bind fun old => (tidies_i32 fpscrMask).bind fun c =>
    (tidies_intBinary (by decide) v c).bind fun d => (tidies_store .fpscr d).bind fun _ =>
      tidies_notify _ old

theorem tidies_hostAddress (map : FastMem) (v : ValueId) (ty : Ty) :
    Tidies (Recompiler.Lift.hostAddress map v ty) :=
  (tidies_i32 _).bind fun c => (tidies_intBinary (by decide) v c).bind fun d =>
    (tidies_convert (by decide) d rfl).bind fun e => (tidies_i64 _).bind fun b =>
      tidies_intBinary (by decide) b e

theorem tidies_loadMem (mem : Option FastMem) (v : ValueId) {ty : Ty} (hty : ty.isInt = true) :
    Tidies (Recompiler.Lift.loadMem mem v ty) := by
  cases mem with
  | none => exact tidies_loadGuest v ty
  | some map => exact (tidies_hostAddress map v ty).bind fun a => tidies_loadHost a hty

theorem tidies_storeMem (mem : Option FastMem) (a v : ValueId) :
    Tidies (Recompiler.Lift.storeMem mem a v) := by
  cases mem with
  | none => exact tidies_storeGuest a v
  | some map =>
    exact (tidies_tyOf v).bind fun ty => (tidies_hostAddress map a ty).bind fun p =>
      tidies_storeHost p v

theorem tidies_arith (raw : UInt32) {fn : ValueId → ValueId → Build ValueId}
    (h : ∀ a b, Tidies (fn a b)) : Tidies (Lift.arith raw fn) :=
  (tidies_load _).bind fun a => (tidies_load _).bind fun b => (h a b).bind fun c => tidies_store _ c

theorem tidies_test (raw : UInt32) {op : Opcode} (hop : Internal op) : Tidies (Lift.test raw op) :=
  (tidies_load _).bind fun a => (tidies_load _).bind fun b => (tidies_compare hop a b).bind fun c =>
    tidies_storeT c

theorem tidies_extend (raw : UInt32) {ty : Ty} (hty : ty.isInt = true) {op : Opcode}
    (hop : Internal op) : Tidies (Lift.extend raw ty op) :=
  (tidies_load _).bind fun a => (tidies_convert (by decide) a hty).bind fun b =>
    (tidies_convert hop b rfl).bind fun c => tidies_store _ c

theorem tidies_loadReg (mem : Option FastMem) (raw : UInt32) {ty : Ty} (hty : ty.isInt = true) :
    Tidies (Lift.loadReg mem raw ty) := by
  refine (tidies_load _).bind fun a => (tidies_loadMem mem a hty).bind fun v => ?_
  split
  · exact (tidies_pure v).bind fun v => tidies_store _ v
  · exact (tidies_convert (by decide) v rfl).bind fun v => tidies_store _ v

theorem tidies_storeReg (mem : Option FastMem) (raw : UInt32) {ty : Ty} (hty : ty.isInt = true) :
    Tidies (Lift.storeReg mem raw ty) := by
  refine (tidies_load _).bind fun a => (tidies_load _).bind fun v => ?_
  split
  · exact (tidies_pure v).bind fun v => tidies_storeMem mem a v
  · exact (tidies_convert (by decide) v hty).bind fun v => tidies_storeMem mem a v

theorem tidies_simple (mem : Option FastMem) (op : Op) (addr raw : UInt32) :
    Tidies (Lift.simple mem op addr raw) := by
  cases op with
  | movImm | mova => exact tidies_storeConst _ _
  | mov | stcSr | stsFpscr | ldsPr | stsPr => exact tidies_move _ _
  | loadByte | loadWord | loadLong => exact tidies_loadReg mem raw rfl
  | storeByte | storeWord | storeLong => exact tidies_storeReg mem raw rfl
  | loadPcRel =>
    exact (tidies_i32 _).bind fun a => (tidies_loadMem mem a rfl).bind fun v => tidies_store _ v
  | movt => exact tidies_loadT.bind fun v => tidies_store _ v
  | extSByte | extSWord | extUByte | extUWord => exact tidies_extend raw rfl (by decide)
  | add | sub | and | or | xor => exact tidies_arith raw fun a b => tidies_intBinary (by decide) a b
  | addImm =>
    exact (tidies_load _).bind fun a => (tidies_i32 _).bind fun b =>
      (tidies_intBinary (by decide) a b).bind fun v => tidies_store _ v
  | not => exact (tidies_load _).bind fun a => (tidies_not a).bind fun v => tidies_store _ v
  | dt =>
    exact (tidies_load _).bind fun a => (tidies_i32 1).bind fun b =>
      (tidies_intBinary (by decide) a b).bind fun v => (tidies_store _ v).bind fun _ =>
        (tidies_i32 0).bind fun z => (tidies_compare (by decide) v z).bind fun t => tidies_storeT t
  | shll =>
    exact (tidies_load _).bind fun a => (tidies_shiftBy (by decide) a 31).bind fun t =>
      (tidies_storeT t).bind fun _ => (tidies_shiftBy (by decide) a 1).bind fun v =>
        tidies_store _ v
  | shlr =>
    exact (tidies_load _).bind fun a => (tidies_i32 1).bind fun c =>
      (tidies_intBinary (by decide) a c).bind fun t => (tidies_storeT t).bind fun _ =>
        (tidies_shiftBy (by decide) a 1).bind fun v => tidies_store _ v
  | shad | shld => exact tidies_arith raw fun a b => tidies_shiftSigned (by decide) a b
  | cmpEq | cmpHs | cmpGe | cmpHi | cmpGt => exact tidies_test raw (by decide)
  | cmpEqImm =>
    exact (tidies_load _).bind fun a => (tidies_i32 _).bind fun b =>
      (tidies_compare (by decide) a b).bind fun t => tidies_storeT t
  | tst =>
    exact (tidies_load _).bind fun a => (tidies_load _).bind fun b =>
      (tidies_intBinary (by decide) a b).bind fun v => (tidies_i32 0).bind fun z =>
        (tidies_compare (by decide) v z).bind fun t => tidies_storeT t
  | clrt | sett => exact (tidies_i32 _).bind fun t => tidies_storeT t
  | ldcSr => exact (tidies_load _).bind fun v => tidies_storeSr v
  | ldsFpscr => exact (tidies_load _).bind fun v => tidies_storeFpscr v
  | _ => exact tidies_pure ()

/-! ### Branches -/

theorem tidies_head (op : Op) (addr raw : UInt32) : Tidies (headCode op addr raw) := by
  unfold headCode
  split
  · exact tidies_loadT
  · unfold targetCode
    split
    · exact tidies_i32 _
    · exact tidies_i32 _
    · exact (tidies_load _).bind fun r => (tidies_i32 _).bind fun c =>
        tidies_intBinary (by decide) r c
    · exact (tidies_load _).bind fun r => (tidies_i32 _).bind fun c =>
        tidies_intBinary (by decide) r c
    · exact tidies_load _
    · exact tidies_load _
    · exact tidies_load _

theorem tidies_tail (op : Op) (addr raw : UInt32) (v : ValueId) :
    Tidies (tailCode op addr raw v) := by
  unfold tailCode
  split
  · have hcondition : IsCondition (if op = .bt ∨ op = .btS then .branchTrue else .branchFalse) := by
      split <;> simp [IsCondition]
    exact (tidies_i32 _).bind fun dst => tidies_branchIf hcondition v dst
  · have hlink : Tidies (linkCode addr (links op)) := by
      unfold linkCode
      split
      · exact tidies_storeConst _ _
      · exact tidies_pure ()
    exact hlink.bind fun _ => tidies_branch v

theorem inspects_here : Inspects Lift.here := by
  intro f a f' h
  cases h
  rfl

theorem tidies_lifted (mem : Option FastMem) (hlift : op.isLifted = true) (addr raw : UInt32) :
    Tidies (Lift.lifted mem op addr raw) := by
  cases hop : op.has .storePc with
  | false =>
    rw [lifted_of_storePc hop]
    exact (tidies_simple mem op addr raw).bind fun _ => tidies_pure none
  | true =>
    rw [lifted_branch hop hlift]
    exact (tidies_head op addr raw).bind fun v => inspects_here.tidies.bind fun mark =>
      (tidies_tail op addr raw v).bind fun _ => tidies_pure (some mark)

/-! ### Blocks -/

theorem tidies_instr (mem : Option FastMem) (scale : UInt32) (op : Op) (addr raw : UInt32) :
    Tidies (Lift.instr mem scale op addr raw) := by
  have hrest : Tidies (if op.isLifted then Lift.lifted mem op addr raw else do
      Build.fallback Recompiler.Lift.Routine.interpret.address addr raw
      return none) := by
    split
    case isTrue hlift => exact tidies_lifted mem hlift addr raw
    case isFalse => exact (tidies_fallback _ _ _).bind fun _ => tidies_pure none
  unfold Lift.instr
  dsimp only
  refine (tidies_sourceInfo addr _).bind fun _ => ?_
  split
  · exact (tidies_storeConst .pc addr).bind fun _ => hrest
  · exact hrest

theorem tidies_slot (s : State) (mem : Option FastMem) (scale : UInt32) (op : Op)
    (mark : Option InsertPoint) (addr : UInt32) : Tidies (Lift.slot s mem scale op mark addr) := by
  refine (tidies_check _ _).bind fun _ => ?_
  split
  · exact inspects_here.tidies.bind fun back => (tidies_setPoint fun _ => _).bind fun _ =>
      (tidies_instr mem scale _ addr _).bind fun _ => tidies_setPoint fun _ => back
  · exact tidies_sourceInfo addr _

theorem tidies_instrs (s : State) (mem : Option FastMem) (scale begin : UInt32)
    (size fuel offset : Nat)
    (last : Option Op) : Tidies (Lift.instrs s mem scale begin size fuel offset last) := by
  induction fuel generalizing offset last with
  | zero => exact tidies_pure last
  | succ fuel ih =>
    unfold Lift.instrs
    split
    · refine (tidies_instr mem scale _ _ _).bind fun mark => ?_
      split
      · exact (tidies_slot s mem scale _ mark _).bind fun _ => ih _ _
      · exact ih _ _
    · exact tidies_pure last

theorem tidies_finish (op : Op) (next : UInt32) : Tidies (Lift.finish op next) := by
  have hbranch : Tidies (Build.i32 next >>= Build.branch) :=
    (tidies_i32 next).bind fun dst => tidies_branch dst
  unfold Lift.finish
  split
  · split
    · exact (tidies_load .pc).bind fun dst => tidies_branch dst
    · exact tidies_pure ()
  · have hget : Inspects (get : Build Fragment) := by
      intro f a f' h
      cases h
      rfl
    refine hget.tidies.bind fun g => ?_
    split
    · exact (tidies_setPoint fun f => _).bind fun _ => hbranch
    · exact (tidies_pure ()).bind fun _ => hbranch

theorem tidies_lift (mem : Option FastMem) (s : State) (begin : UInt32) (size : Nat) :
    Tidies (lift mem s begin size) := by
  refine (tidies_instrs s mem _ begin size size 0 none).bind fun last => ?_
  split
  · exact tidies_finish _ _
  · intro f a f' _ h
    cases h

/-- The fragment of a block is tidy and pays what the instructions of the block cost. -/
theorem tolled_lift {size : Nat} (hsize : blockSize s begin = .ok size)
    (hlift : lift mem s begin size Fragment.empty = .ok ((), f)) : ∃ b l,
      Tolled offsets f b l ((List.range (size / 2)).map (chargeAt s begin)) := by
  have htidy := tidies_lift mem s begin size _ _ _ tidy_empty hlift
  obtain ⟨-, b, l₁, l₂, i, hsingle, hl₁, hl₂, hleaves, hop⟩ := lift_charged hsize hlift
  exact ⟨b, _, htidy, hsingle.order_eq, hsingle.chain, htidy.toll hl₁ hl₂ hleaves hop⟩

/-! ### Costs -/

theorem cycles_bounds (op : Op) : 1 ≤ op.info.cycles.toNat ∧ op.info.cycles.toNat ≤ 7 := by
  cases op <;> decide

theorem costAt_bounds (s : State) (begin : UInt32) (n : Nat) :
    1 ≤ (costAt s begin n).toNat ∧ (costAt s begin n).toNat ≤ 70 := by
  have hcycles := cycles_bounds (opAt s begin n)
  unfold costAt
  generalize (opAt s begin n).info.cycles = c at hcycles
  split
  · have hcost : (c * 10).toNat = c.toNat * 10 := by
      rw [UInt32.toNat_mul]
      exact Nat.mod_eq_of_lt (by change c.toNat * 10 < 2 ^ 32; omega)
    omega
  · rw [UInt32.mul_one]
    omega

/-- An instruction has at most one slot behind it. -/
theorem blockSizeFrom_le {fuel start size : Nat} (h : blockSizeFrom s begin fuel start = .ok size) :
    size ≤ start + 4 * fuel := by
  induction fuel generalizing start with
  | zero =>
    cases h
    omega
  | succ fuel ih =>
    have hrest : ∀ next ≤ start + 4, ∀ last : Bool, (if last then Except.ok next else
        blockSizeFrom s begin fuel next) = .ok size → size ≤ start + 4 * (fuel + 1) := by
      intro next hnext last hlast
      cases last with
      | true =>
        cases hlast
        omega
      | false =>
        have hle := ih hlast
        omega
    unfold blockSizeFrom at h
    dsimp only at h
    cases hslot : (decode (s.fetch (begin + UInt32.ofNat start))).has .delayed with
    | true =>
      simp only [hslot, if_true] at h
      split at h
      · cases h
      · exact hrest _ (Nat.le_refl _) _ h
    | false =>
      simp only [hslot, Bool.false_eq_true, if_false] at h
      exact hrest _ (by omega) _ h

/-- What does anything else than wait in a loop is no such loop. -/
theorem isIdleFrom_false (s : State) (begin : UInt32) (fuel : Nat) (offset : UInt32)
    (seen : Traits) :
    isIdleFrom s begin fuel offset false seen = false := by
  induction fuel generalizing offset seen with
  | zero => rfl
  | succ fuel ih =>
    unfold isIdleFrom
    simp only [Bool.false_and, ih, ite_self]

/-! ### Interrupts and faults -/

/-- Delivering an interrupt leaves the counters alone. -/
theorem spends_interruptCheck (hs : s.Sized) {t : State} (h : s.interruptCheck = .ok t) :
    Spends offsets s 0 0 t := by
  obtain rfl | ⟨line, -, rfl⟩ := interruptCheck_eq_ok h
  · exact .refl offsets _
  · rw [deliver_eq]
    have hentry : Spends offsets s 0 0 (s.modify fun c => Context.enterException
        (Context.set
        (Context.set c .pending (s.get .pending &&& ~~~(1 <<< UInt32.ofNat line))) .intevt
          (intevtBase + UInt32.ofNat line * 0x20)) (s.get .pc) vectorInterrupt) :=
      spends_of_modify hs (fun c => by simp) fun c x y => by simp
    exact hentry.congr rfl

/-- A check faults only at the end of the count of deliveries. -/
theorem overflow_of_interruptCheck {e : Fault} (h : s.interruptCheck = .error e) :
    e = .overflow ∧ s.rest.taken.toNat + 1 = UInt32.size := by
  obtain ⟨-, hdone⟩ | ⟨line, -, ⟨-, hdone⟩ | ⟨hfull, hdone⟩⟩ := interruptCheck_cases s
  · rw [hdone] at h
    cases h
  · rw [hdone] at h
    cases h
  · rw [hdone] at h
    cases h
    exact ⟨rfl, hfull⟩

/-- The interpreter fails only where it finds a delayed instruction in a slot. -/
theorem nested_of_interpret {op : Op} {addr raw : UInt32} {e : Fault}
    (h : interpret op addr raw s = .error e) : ∃ slot, e = .nestedDelaySlot slot := by
  have hslot : ∀ (k : State → Except Fault State), (∀ t, ∃ t', k t = .ok t') →
      (runSlot (addr + 2) s >>= k) = .error e → ∃ slot, e = .nestedDelaySlot slot := by
    intro k hk hrun
    unfold runSlot at hrun
    dsimp only at hrun
    split at hrun
    · cases hrun
      exact ⟨_, rfl⟩
    · obtain ⟨t', ht'⟩ :=
        hk (perform (decode (s.fetch (addr + 2))) (addr + 2) (s.fetch (addr + 2)) s)
      cases ht'.symm.trans hrun
  cases hdelayed : op.has .delayed with
  | false =>
    rw [interpret_eq hdelayed] at h
    cases h
  | true =>
    cases op
    case bra | bsr | braf | bsrf | jmp | jsr | rts | rte | btS | bfS =>
      exact hslot _ (fun t => ⟨_, rfl⟩) h
    all_goals cases hdelayed

/-- It does fail there. -/
theorem fallback_rte (routine : UInt64) {addr raw : UInt32} (hop : decode raw = .rte)
    (hslot : (decode (s.fetch (addr + 2))).has .delayed = true) :
    guest.fallback routine addr raw s = .error (.nestedDelaySlot (addr + 2)) := by
  have hrun : runSlot (addr + 2) s = .error (.nestedDelaySlot (addr + 2)) := by
    unfold runSlot
    dsimp only
    rw [if_pos hslot]
  change interpret (decode raw) addr raw s = _
  rw [hop]
  change (runSlot (addr + 2) s >>= fun _ => _) = _
  rw [hrun]
  rfl

end Recompiler.Sh4
