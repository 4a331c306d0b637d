import Recompiler.Proofs.Arm.Counters
import Recompiler.Proofs.Arm.Flow
import Recompiler.Proofs.IR.Leaving

/-!
Lifted blocks. The fragment of a block interprets its words one after another, wherever the pc goes
meanwhile. That is what as many steps do, as long as the pc goes from each word to the next one.
-/
namespace Recompiler.Arm

open IR Meaning State Machine

variable {s : State}

/-! ### Words of a block -/

theorem addresses_succ (begin : UInt32) (n : Nat) :
    addresses begin (4 * (n + 1)) = begin :: addresses (begin + 4) (4 * n) := by
  have hdiv : ∀ n, (4 * n + 3) / 4 = n := by omega
  unfold addresses
  rw [hdiv, hdiv, List.range_succ_eq_map, List.map_cons, List.map_map]
  congr 1
  · simp
  · refine List.map_congr_left fun k _ => ?_
    have hk : 4 * k.succ = 4 + 4 * k := by omega
    change begin + UInt32.ofNat (4 * k.succ) = _
    rw [hk, UInt32.ofNat_add, UInt32.add_assoc]
    rfl

theorem length_addresses (begin : UInt32) (n : Nat) : (addresses begin (4 * n)).length = n := by
  unfold addresses
  rw [List.length_map, List.length_range]
  omega

/-- From an unfinished size on, a block gets at least one word, and no word before its last one
counts as writing the pc. -/
theorem blockSizeFrom_spec (s : State) (begin : UInt32) (fuel n : Nat)
    (h : n + fuel ≥ maxBlockInstrs)
    (hn : n < maxBlockInstrs) : ∃ k, blockSizeFrom s begin fuel (4 * n) = 4 * (n + k + 1) ∧
      ∀ i < k, writesPc (s.read32 (begin + UInt32.ofNat (4 * (n + i)))) = false := by
  induction fuel generalizing n with
  | zero => omega
  | succ fuel ih =>
    unfold blockSizeFrom
    simp only
    split
    case isTrue => exact ⟨0, by omega, fun i hi => absurd hi (by omega)⟩
    case isFalse hstop =>
      simp only [Bool.or_eq_true, decide_eq_true_eq, not_or, Bool.not_eq_true] at hstop
      obtain ⟨k, hsize, hplain⟩ := ih (n + 1) (by omega) (by omega)
      refine ⟨k + 1, ?_, ?_⟩
      · rw [show 4 * n + 4 = 4 * (n + 1) by omega, hsize]
        omega
      · intro i hi
        cases i with
        | zero => exact hstop.1
        | succ i =>
          have := hplain i (by omega)
          rwa [show n + 1 + i = n + (i + 1) by omega] at this

theorem blockSize_spec (s : State) (begin : UInt32) : ∃ n, blockSize s begin = 4 * (n + 1) ∧
    ∀ addr ∈ (addresses begin (4 * (n + 1))).dropLast, writesPc (s.read32 addr) = false := by
  obtain ⟨n, hsize, hplain⟩ := blockSizeFrom_spec s begin maxBlockInstrs 0 (by simp) (by decide)
  rw [Nat.zero_add] at hsize
  refine ⟨n, hsize, ?_⟩
  intro addr haddr
  unfold addresses at haddr
  rw [show (4 * (n + 1) + 3) / 4 = n + 1 by omega, List.range_succ, List.map_append,
    List.map_singleton,
    List.dropLast_concat, List.mem_map] at haddr
  obtain ⟨i, hi, rfl⟩ := haddr
  have := hplain i (List.mem_range.mp hi)
  rwa [Nat.zero_add] at this

/-! ### Code of a block -/

/-- The words at the addresses are charged and interpreted one after another. -/
def interpretAll (code : UInt32 → UInt32) (addrs : List UInt32) (s : State) : State :=
  addrs.foldl (fun s addr => interpret addr (code addr) s.charged) s

theorem interpretAll_cons (code : UInt32 → UInt32) (addr : UInt32)
    (addrs : List UInt32) (s : State) :
    interpretAll code (addr :: addrs) s =
      interpretAll code addrs (interpret addr (code addr) s.charged) := rfl

theorem emits_words {f : Fragment} {cells : Cells} {m : Interp.Memory Board}
    (code : UInt32 → UInt32)
    (addrs : List UInt32) :
    Emits guest offsets (addrs.forM fun addr => do
      Build.sourceInfo addr Op.cycles
      Build.fallback Lift.Routine.interpret.address addr (code addr)) f cells m fun _ _ _ m' =>
        m' = withWorld m (interpretAll code addrs m.world) := by
  induction addrs generalizing f cells m with
  | nil => exact .pure rfl
  | cons addr addrs ih =>
    rw [List.forM_eq_forM, List.forM_cons, bind_assoc]
    refine (emits_sourceInfo addr Op.cycles).bind ?_
    rintro _ f₁ s₁ m₁ - hm₁
    rw [show m.world.charge offsets Op.cycles = charged m.world from rfl] at hm₁
    subst hm₁
    have hword : guest.fallback Lift.Routine.interpret.address addr (code addr) (charged m.world) =
        .ok (interpret addr (code addr) (charged m.world)) := rfl
    have hemit : Emits guest offsets
        (Build.fallback Lift.Routine.interpret.address addr (code addr)) f₁ s₁
        (withWorld m (charged m.world)) _ := emits_fallback _ addr (code addr) hword
    refine hemit.bind ?_
    rintro _ f₂ s₂ m₂ - rfl
    refine ih.mono ?_
    rintro _ f₃ s₃ m₃ - rfl
    rw [withWorld_withWorld, withWorld_withWorld, world_withWorld, interpretAll_cons]

/-- The fragment of a block interprets its words. -/
theorem lift_evaluates (s : State) (begin : UInt32) (n : Nat) :
    ∃ f, lift s begin (4 * (n + 1)) Fragment.empty = .ok ((), f) ∧
      ∃ exit, Evaluates guest offsets f s
      (.ok (exit, interpretAll s.read32 (addresses begin (4 * (n + 1))) s)) := by
  set last : State := interpretAll s.read32 (addresses begin (4 * (n + 1))) s with hlast
  obtain ⟨act, hact⟩ : ∃ act : Build ValueId, act = (do
      (addresses begin (4 * (n + 1))).forM fun addr => do
        Build.sourceInfo addr Op.cycles
        Build.fallback Lift.Routine.interpret.address addr (s.read32 addr)
      Build.loadContext pc.offset .i32) := ⟨_, rfl⟩
  have hcode : Emits guest offsets act opened (fun _ => 0) ⟨#[], s⟩ fun v f' s' m' =>
      m'.world = last ∧ Holds32 f' s' v (last.get pc) := by
    rw [hact]
    refine (emits_words s.read32 _).bind ?_
    rintro _ f₁ s₁ m₁ - rfl
    refine (emits_loadContext (n := 15) (by decide)).mono ?_
    rintro v f₂ s₂ m₂ - ⟨rfl, hv⟩
    exact ⟨rfl, hv⟩
  have hempty : act Fragment.empty = act opened := by
    rw [hact, addresses_succ, List.forM_eq_forM, List.forM_cons, bind_assoc, bind_assoc]
    exact sourceInfo_empty _ _ _
  obtain ⟨f, hlift, exit, heval⟩ := evaluates_of_emits hempty hcode
  refine ⟨f, ?_, exit, ?_⟩
  · rw [← hlift, hact, bind_assoc]
    rfl
  · rwa [show last.set32 offsets.pc (last.get pc) = last from last.set_get pc] at heval

/-! ### Steps -/

theorem step_eq (hs : s.Sized) {addr : UInt32} (h : s.get pc = addr)
    (hroom : s.HasRoom offsets Op.cycles) :
    step s = .ok (interpret addr (s.read32 addr) s.charged) := by
  subst h
  have hspends := unmetered_guest.fallback 0 (s.get pc) (s.read32 (s.get pc)) s _ hs rfl
  rw [interpret_charged]
  exact World.chargeChecked_eq (hspends.hasRoom_iff.mpr hroom)

theorem charged_spends (hs : s.Sized) : Spends offsets s Op.cycles 1 s.charged :=
  spends_charge placed_offsets hs Op.cycles

/-- As long as the pc goes from each word to the next one, and the counters have room, the words are
interpreted step by step. -/
theorem steps_eq_interpretAll (code : UInt32 → UInt32) (n : Nat) (begin : UInt32) (hs : s.Sized)
    (hpc : s.get pc = begin) (hroom : s.Lasts offsets (Op.cycles.toNat * n) n)
    (hcode : ∀ k < n, ∀ t, steps step k s = .ok t →
      ∀ addr ∈ addresses begin (4 * n), t.read32 addr = code addr)
    (hplain : ∀ addr ∈ (addresses begin (4 * n)).dropLast,
      writesPc (code addr) = false ∧ hidesPc (code addr) = false) :
    steps step n s = .ok (interpretAll code (addresses begin (4 * n)) s) := by
  induction n generalizing s begin with
  | zero => rfl
  | succ n ih =>
    rw [addresses_succ] at hcode hplain ⊢
    rw [Nat.mul_succ, Nat.add_comm (_ * n)] at hroom
    have hword := hcode 0 (by omega) s rfl begin (by simp)
    have hstep : step s = .ok (interpret begin (code begin) s.charged) := by
      rw [step_eq hs hpc hroom.hasRoom, hword]
    rw [steps_cons hstep, interpretAll_cons]
    cases n with
    | zero => rfl
    | succ n =>
      rw [addresses_succ, List.dropLast_cons_cons] at hplain
      have hfirst := hplain begin (by simp)
      have hspends := (charged_spends hs).trans
        (unmetered_guest.fallback 0 begin (code begin) _ _ hs.charged rfl)
      rw [UInt32.add_zero, UInt32.add_zero] at hspends
      refine ih (begin + 4) (hs.charged.interpret _ _) ?_ (hspends.lasts hroom) ?_ ?_
      · exact get_pc_interpret hs.charged hfirst.1 hfirst.2 begin
      · intro k hk t ht addr haddr
        rw [← steps_cons hstep] at ht
        exact hcode (k + 1) (by omega) t ht addr (List.mem_cons_of_mem _ haddr)
      · intro addr haddr
        rw [addresses_succ] at haddr
        exact hplain addr (List.mem_cons_of_mem _ haddr)

/-- A block does what as many steps do as it has words, counters included, if the counters have room
for these steps, the steps leave its words as they are and no word before the last one hides a write
of the pc. Words that neither count as writing the pc nor hide it lead to the next word. -/
theorem lift_eq_steps (s : State) (hs : s.Sized) :
    (∀ n : Nat, blockSize s (s.get pc) = 4 * n → s.Lasts offsets (Op.cycles.toNat * n) n →
      (∀ k < n, ∀ t, steps step k s = .ok t →
        ∀ addr ∈ addresses (s.get pc) (4 * n), t.read32 addr = s.read32 addr) →
      (∀ addr ∈ (addresses (s.get pc) (4 * n)).dropLast, hidesPc (s.read32 addr) = false) →
      ∃ t, steps step n s = .ok t ∧ ∃ f, lift s (s.get pc) (4 * n) Fragment.empty = .ok ((), f) ∧
        ∃ exit, Evaluates guest offsets f s (.ok (exit, t))) ∧
    ∀ addr raw : UInt32, writesPc raw = false → hidesPc raw = false →
      (interpret addr raw s).get pc = addr + 4 := by
  refine ⟨?_, fun addr raw h hseen => get_pc_interpret hs h hseen addr⟩
  intro n hsize hroom hcode hseen
  obtain ⟨n', hsize', hplain⟩ := blockSize_spec s (s.get pc)
  obtain rfl : n = n' + 1 := by omega
  obtain ⟨f, hlift, exit, heval⟩ := lift_evaluates s (s.get pc) n'
  exact ⟨_, steps_eq_interpretAll s.read32 (n' + 1) (s.get pc) hs rfl hroom hcode
    fun addr haddr => ⟨hplain addr haddr, hseen addr haddr⟩, f, hlift, exit, heval⟩

/-- A product and a branch to itself, with all registers zero; the third byte names the register
that the product goes to. -/
def twoWords (destination : UInt8) : State where
  ctx := Array.replicate (4 * Field.all.length) 0
  rest := { ram := { data := #[0x90, 0x01, destination, 0xe0, 0xfe, 0xff, 0xff, 0xea], mask := 7 } }

theorem addresses_twoWords : addresses 0 8 = [0, 4] := by decide

/-- After so many steps the words are as they were. -/
theorem read32_steps {s : State} {k : Nat} {addr : UInt32}
    (h : ((steps step k s).map (·.read32 addr)).toOption = some (s.read32 addr)) :
    ∀ t, steps step k s = .ok t → t.read32 addr = s.read32 addr := by
  intro t ht
  rw [ht] at h
  exact Option.some.inj h

theorem lift_eq_steps_product : (twoWords 2).Sized ∧ blockSize (twoWords 2) 0 = 8 ∧
    (twoWords 2).Lasts offsets (Op.cycles.toNat * 2) 2 ∧
    (∃ t, steps step 2 (twoWords 2) = .ok t ∧
      ∃ f, lift (twoWords 2) 0 8 Fragment.empty = .ok ((), f) ∧
        ∃ exit, Evaluates guest offsets f (twoWords 2) (.ok (exit, t))) ∧
    (interpret 0 ((twoWords 2).read32 0) (twoWords 2)).get pc = 4 := by
  have hpc : (twoWords 2).get pc = 0 := by decide +kernel
  have hroom : (twoWords 2).Lasts offsets (Op.cycles.toNat * 2) 2 := by decide +kernel
  have h := (lift_eq_steps (twoWords 2) rfl).1 2 (by decide +kernel) hroom
  rw [hpc, addresses_twoWords] at h
  refine ⟨rfl, by decide +kernel, hroom, h ?_ ?_,
    (lift_eq_steps (twoWords 2) rfl).2 0 _ (by decide +kernel) (by decide +kernel)⟩
  · intro k hk t ht addr haddr
    refine read32_steps ?_ t ht
    obtain rfl | rfl : addr = 0 ∨ addr = 4 := by simpa using haddr
    all_goals interval_cases k <;> decide +kernel
  · intro addr haddr
    obtain rfl : addr = 0 := by simpa using haddr
    decide +kernel

/-- The product goes to the pc, and the block goes on with the branch all the same. -/
theorem lift_ne_steps_product : (twoWords 15).Sized ∧ (twoWords 15).get pc = 0 ∧
    blockSize (twoWords 15) 0 = 8 ∧ (twoWords 15).Lasts offsets (Op.cycles.toNat * 2) 2 ∧
    (∀ k < 2, ∀ t, steps step k (twoWords 15) = .ok t →
      ∀ addr ∈ addresses 0 8, t.read32 addr = (twoWords 15).read32 addr) ∧
    writesPc ((twoWords 15).read32 0) = false ∧
    (interpret 0 ((twoWords 15).read32 0) (twoWords 15)).get pc ≠ 4 ∧
    ∃ t, steps step 2 (twoWords 15) = .ok t ∧
      ∃ f, lift (twoWords 15) 0 8 Fragment.empty = .ok ((), f) ∧ ∃ exit last,
        Evaluates guest offsets f (twoWords 15) (.ok (exit, last)) ∧
        State.get last pc ≠ t.get pc := by
  obtain ⟨f, hlift, exit, heval⟩ := lift_evaluates (twoWords 15) 0 1
  have hsteps : ((steps step 2 (twoWords 15)).map (·.get pc)).toOption = some 0 := by
    decide +kernel
  have hwords : ∀ k < 2, ∀ t, steps step k (twoWords 15) = .ok t →
      ∀ addr ∈ addresses 0 8, t.read32 addr = (twoWords 15).read32 addr := by
    intro k hk t ht addr haddr
    refine read32_steps ?_ t ht
    rw [addresses_twoWords] at haddr
    obtain rfl | rfl : addr = 0 ∨ addr = 4 := by simpa using haddr
    all_goals interval_cases k <;> decide +kernel
  cases hend : steps step 2 (twoWords 15) with
  | error e =>
    rw [hend] at hsteps
    cases hsteps
  | ok t =>
    rw [hend] at hsteps
    have ht : t.get pc = 0 := Option.some.inj hsteps
    refine ⟨rfl, by decide +kernel, by decide +kernel, by decide +kernel, hwords,
      by decide +kernel, by decide +kernel, t, rfl, f, hlift, exit, _, heval, ?_⟩
    rw [ht]
    decide +kernel

end Recompiler.Arm
