import Recompiler.Proofs.Arm.Tolls
import Recompiler.Proofs.Jit.Budget
import Recompiler.Proofs.Sh4.Tolls

/-!
The cycle budget on the SH4 and the ARMv3. A run takes at least the cycles it is given, and less
than the last block more. Outside of compilation it has two faults: that of the SH4 interpreter,
when a delayed instruction was written into the slot of an instruction that is left to it, and that
of the SH4 interrupt check, when no more interrupts can be counted.
-/
namespace Recompiler.Jit

open IR Pass Meaning

/-- The processors, with the bytes of their contexts. -/
inductive Frontend : {σ : Type} → Cpu σ → Nat → Prop
  | sh4 : Frontend Sh4.cpu (4 * Sh4.Field.all.length)
  | armv3 : Frontend Arm.cpu (4 * Arm.Field.all.length)

/-! ### Costs of blocks -/

theorem cost_pos {cs : List (UInt32 × UInt32)} (hne : cs ≠ []) (h : ∀ c ∈ cs, 1 ≤ c.2.toNat) :
    0 < cost cs := by
  obtain ⟨c, cs, rfl⟩ := List.exists_cons_of_ne_nil hne
  have hhead := h c List.mem_cons_self
  change 0 < c.2.toNat + cost cs
  omega

theorem cost_le {cs : List (UInt32 × UInt32)} {n : Nat} (h : ∀ c ∈ cs, c.2.toNat ≤ n) :
    cost cs ≤ cs.length * n := by
  have hsum := List.sum_le_card_nsmul (cs.map fun c => c.2.toNat) n (List.forall_mem_map.mpr h)
  rwa [List.length_map, smul_eq_mul] at hsum

theorem cost_bounds {cs : List (UInt32 × UInt32)} (hne : cs ≠ []) (hlength : cs.length ≤ 2048)
    (h : ∀ c ∈ cs, 1 ≤ c.2.toNat ∧ c.2.toNat ≤ 70) : 0 < cost cs ∧ cost cs ≤ maxToll := by
  refine ⟨cost_pos hne fun c hc => (h c hc).1, ?_⟩
  exact (cost_le fun c hc => (h c hc).2).trans (Nat.mul_le_mul_right 70 hlength)

theorem budgeted_sh4 : Budgeted Sh4.cpu (4 * Sh4.Field.all.length) where
  placed := Sh4.placed_offsets
  unmetered := Sh4.unmetered_guest
  interruptCheck _ _ hs h := Sh4.spends_interruptCheck hs h
  tolled s begin size fast f hsize hfragment := by
    obtain ⟨⟨u, f⟩, hlift, hf⟩ := Interp.bind_eq_ok hfragment
    cases hf
    obtain ⟨b, l, htolled⟩ := Sh4.tolled_lift hsize hlift
    obtain ⟨n, -, hn⟩ := Sh4.blockSizeFrom_spec maxBlockInstrs 0 size (by decide) (by decide) hsize
    have hle : size ≤ 0 + 4 * 1024 := Sh4.blockSizeFrom_le hsize
    refine ⟨b, l, _, htolled, cost_bounds ?_ ?_ ?_⟩
    · rw [Ne, List.map_eq_nil_iff, List.range_eq_nil]
      omega
    · rw [List.length_map, List.length_range]
      omega
    · exact List.forall_mem_map.mpr fun i _ => Sh4.costAt_bounds s begin i

theorem budgeted_armv3 : Budgeted Arm.cpu (4 * Arm.Field.all.length) where
  placed := Arm.placed_offsets
  unmetered := Arm.unmetered_guest
  interruptCheck s _ _ h := by
    cases h
    exact Arm.spends_interruptCheck s
  tolled s begin size fast f hsize hfragment := by
    obtain ⟨⟨u, f⟩, hlift, hf⟩ := Interp.bind_eq_ok hfragment
    cases hf
    cases hsize
    obtain ⟨b, l, htolled⟩ := Arm.tolled_lift rfl hlift
    obtain ⟨n, hn, -⟩ := Arm.blockSize_spec s begin
    have hle : Arm.blockSize s begin ≤ 0 + 4 * 1024 := Arm.blockSizeFrom_le s begin _ 0
    refine ⟨b, l, _, htolled, cost_bounds ?_ ?_ ?_⟩
    · rw [hn, Ne, List.map_eq_nil_iff, ← List.length_eq_zero_iff, Arm.length_addresses]
      omega
    · rw [hn, List.length_map, Arm.length_addresses]
      omega
    · have hcycles : 1 ≤ Arm.Op.cycles.toNat ∧ Arm.Op.cycles.toNat ≤ 70 := by decide
      exact List.forall_mem_map.mpr fun _ _ => hcycles

variable {σ : Type} {cpu : Cpu σ} {size : Nat} {j : Jit} {w : World σ} {addr : UInt32}
  {f : Fragment}

theorem Frontend.budgeted (h : Frontend cpu size) : Budgeted cpu size := by
  cases h with
  | sh4 => exact budgeted_sh4
  | armv3 => exact budgeted_armv3

theorem Frontend.toll_le (h : Frontend cpu size) (hf : Compiled cpu addr f) : toll f ≤ maxToll := by
  obtain ⟨_, _, _, _, _, hle⟩ := h.budgeted.laden hf
  exact hle

theorem Frontend.fits (h : Frontend cpu size) {n : Int32} (hn : n.toInt ≤ 2 ^ 30)
    (hf : Compiled cpu addr f) : n.toInt + toll f ≤ Int32.maxValue.toInt := by
  have hle : toll f ≤ 2048 * 70 := h.toll_le hf
  have hmax : Int32.maxValue.toInt = 2 ^ 31 - 1 := rfl
  omega

/-- The only routine that fails is the SH4 interpreter, at a delayed instruction in a slot. -/
theorem Frontend.nested_of_fails (h : Frontend cpu size) {e : Fault} (hfails : cpu.guest.Fails e) :
    ∃ slot, e = .nestedDelaySlot slot := by
  obtain ⟨routine, addr, raw, s, he⟩ := hfails
  cases h with
  | sh4 => exact Sh4.nested_of_interpret he
  | armv3 => cases he

/-- The only interrupt check that fails is that of the SH4, when it has counted as many as it
can. -/
theorem Frontend.overflow_of_interruptCheck (h : Frontend cpu size) {e : Fault}
    (hcheck : cpu.interruptCheck w = .error e) : e = .overflow := by
  cases h with
  | sh4 => exact (Sh4.overflow_of_interruptCheck hcheck).1
  | armv3 => cases hcheck

/-! ### Runs for a number of cycles -/

/-- The state in which a run starts. -/
def started (cpu : Cpu σ) (n : Int32) (w : World σ) : World σ :=
  (w.set32 cpu.offsets.cycles n.toUInt32).set32 cpu.offsets.instrs 0

/-- What a run for `n` cycles comes to that executes some blocks and ends so. -/
def Comes (cpu : Cpu σ) (n : Int32) (w : World σ) (j : Jit) (fs : List Fragment) : Ending σ → Prop
  | .done w' j' => run cpu n w j = .ok (w', j', .ok (tolls fs)) ∧
      (tolls fs : Int) ≤ Int32.maxValue.toInt ∧ n.toInt ≤ tolls fs ∧
      ∃ gs f, fs = gs ++ [f] ∧ (tolls fs : Int) < n.toInt + toll f
  | .refused w' j' e => run cpu n w j = .ok (w', j', .error e) ∧
      ∃ j₀ : Jit, j₀.compile cpu w' (w'.get32 cpu.offsets.pc) = .ok (j', .error e)
  | .failed e => run cpu n w j = .error e ∧
      ∃ (j₀ : Jit) (w₀ : World σ), j₀.compile cpu w₀ (w₀.get32 cpu.offsets.pc) = .error e
  | .faulted e => run cpu n w j = .error e ∧ cpu.guest.Fails e ∧ ∃ slot, e = .nestedDelaySlot slot
  | .unchecked e => run cpu n w j = .error e ∧ e = .overflow ∧
      ∃ w₀, cpu.interruptCheck w₀ = .error .overflow

theorem size_started (n : Int32) (w : World σ) : (started cpu n w).ctx.size = w.ctx.size := by
  simp [started, World.set32]

theorem cyclesLeft_started (ho : cpu.offsets.Placed size) (hw : w.ctx.size = size) (n : Int32) :
    cyclesLeft cpu (started cpu n w) = n.toInt := by
  have hle : cpu.offsets.cycles + 4 ≤ w.ctx.size := hw ▸ ho.cycles_le
  have hapart : Clear cpu.offsets.instrs Width.w32.bytes cpu.offsets.cycles := ho.apart.symm
  have hkept : (started cpu n w).get32 cpu.offsets.cycles =
      (w.set32 cpu.offsets.cycles n.toUInt32).get32 cpu.offsets.cycles :=
    congrArg UInt64.toUInt32 (Context.get_set_of_disjoint _ hapart.symm)
  have hset : (w.set32 cpu.offsets.cycles n.toUInt32).get32 cpu.offsets.cycles = n.toUInt32 :=
    Context.get32_set32_self ho.cycles_nonneg hle _
  unfold cyclesLeft
  rw [hkept, hset, Int32.toInt32_toUInt32]

/-- What a run returns after its slices. -/
def returned (cpu : Cpu σ) (n : Int32) :
    World σ × Attempt Unit → Except Fault (World σ × Attempt Int)
  | (w, j, .ok ()) => .ok (w, j, .ok (n.toInt - cyclesLeft cpu w))
  | (w, j, .error e) => .ok (w, j, .error e)

/-- A run for `n` cycles, after any requests to a new recompiler that interprets, executes finitely
many slices of blocks. There is at least one block in each slice, every block takes a cycle, and
less than a slice's cycles are taken before its last block. Unless the run ends early, its result is
what all these blocks charge: at least `n`, and less than `n` and the last block. It ends early only
where a block is not compiled, at a delayed instruction in the slot of an interpreted one, or where
an interrupt can no longer be counted. -/
theorem run_budget (hcpu : Frontend cpu size) (config : Config) (regs : Array Register)
    (files : Files)
    (rs : List (Request σ))
    (hrs : rs.foldlM (Request.serve cpu)
      (ofConfig config (.interp { offsets := cpu.offsets, registers := regs }) files) = .ok j)
    (hw : w.ctx.size = size) {n : Int32} (hn : 0 < n.toInt)
    (hfit : ∀ addr f, Compiled cpu addr f → n.toInt + toll f ≤ Int32.maxValue.toInt) :
    ∃ ss e, Slices cpu (started cpu n w) j ss e ∧ (∀ f ∈ ss.flatten, 0 < toll f) ∧
      (∀ fs ∈ ss, ∃ gs f, fs = gs ++ [f] ∧ (tolls gs : Int) < sliceCycles) ∧
      Comes cpu n w j ss.flatten e := by
  have hj : Stocked cpu j := (stocked_ofConfig cpu config regs files).serveAll rs hrs
  have hleft : cyclesLeft cpu (started cpu n w) = n.toInt :=
    cyclesLeft_started hcpu.budgeted.placed hw n
  have hfuel : cyclesLeft cpu (started cpu n w) < (n.toInt.toNat + 1 : Nat) := by omega
  obtain ⟨ss, e, hslices, hrun, hsettles⟩ := hj.slices hcpu.budgeted (n.toInt.toNat + 1)
    ((size_started n w).trans hw) hfuel (Nat.succ_pos _)
  refine ⟨ss, e, hslices, hsettles.pos, hsettles.slice, ?_⟩
  have hresult : run cpu n w j = e.result >>= returned cpu n := by
    rw [← hrun]
    rfl
  cases e with
  | done w' j' =>
    obtain ⟨hspent, hover⟩ := hsettles.done w' j' rfl
    obtain ⟨gs, f, hss, hlt⟩ := hsettles.last (by omega) w' j' rfl
    have htotal : n.toInt - cyclesLeft cpu w' = tolls ss.flatten := by omega
    have hsum : tolls ss.flatten = tolls gs + toll f := by
      rw [hss, tolls_append]
      rfl
    obtain ⟨addr, hf⟩ := hslices.compiled f (by simp [hss])
    have hmax := hfit addr f hf
    have hreturn : run cpu n w j = .ok (w', j', .ok (tolls ss.flatten)) := by
      rw [← htotal]
      exact hresult
    exact ⟨hreturn, by omega, by omega, gs, f, hss, by omega⟩
  | refused w' j' e => exact ⟨hresult, hsettles.excused⟩
  | failed e => exact ⟨hresult, hsettles.excused⟩
  | faulted e => exact ⟨hresult, hsettles.excused, hcpu.nested_of_fails hsettles.excused⟩
  | unchecked e =>
    obtain ⟨w₀, hcheck⟩ := hsettles.excused
    obtain rfl := hcpu.overflow_of_interruptCheck hcheck
    exact ⟨hresult, rfl, w₀, hcheck⟩

/-- A branch to itself, which takes twelve cycles. -/
def looping : Arm.State where
  ctx := Array.replicate (4 * Arm.Field.all.length) 0
  rest := { ram := ⟨#[0xfe, 0xff, 0xff, 0xea], 3⟩ }

set_option maxRecDepth 100000 in
theorem returned_looping : (run Arm.cpu 30 looping
    (ofConfig {} (.interp { offsets := Arm.cpu.offsets }) {})).toOption.map (·.2.2.toOption) =
      some (some 36) := by
  cbv

/-- In a run for thirty cycles it runs three times. -/
theorem run_budget_loop : ∃ ss w' j',
    Slices Arm.cpu (started Arm.cpu 30 looping)
      (ofConfig {} (.interp { offsets := Arm.cpu.offsets }) {}) ss (.done w' j') ∧
    run Arm.cpu 30 looping (ofConfig {} (.interp { offsets := Arm.cpu.offsets }) {}) =
      .ok (w', j', .ok 36) ∧
    tolls ss.flatten = 36 ∧ (∀ f ∈ ss.flatten, 0 < toll f) ∧
    (∀ fs ∈ ss, ∃ gs f, fs = gs ++ [f] ∧ (tolls gs : Int) < sliceCycles) ∧
    ∃ gs f, ss.flatten = gs ++ [f] ∧ tolls ss.flatten < 30 + toll f := by
  obtain ⟨⟨w', j', r⟩, hrun, hr⟩ := Interp.eq_ok_of_toOption returned_looping
  have hsize : looping.ctx.size = 4 * Arm.Field.all.length := Array.size_replicate
  obtain ⟨ss, e, hslices, hpos, hearly, hcomes⟩ := run_budget .armv3 {} Interp.registers {} [] rfl
    hsize (n := 30) (by decide) fun _ _ => Frontend.armv3.fits (by decide)
  cases e with
  | done w₁ j₁ =>
    obtain ⟨hrun₁, -, -, gs, f, hlast, hlt⟩ := hcomes
    rw [hrun] at hrun₁
    cases hrun₁
    have htotal : (tolls ss.flatten : Int) = 36 := Option.some.inj hr
    have hthirty : (30 : Int32).toInt = 30 := rfl
    exact ⟨ss, w', j', hslices, by rw [hrun, htotal], by omega, hpos, hearly, gs, f,
      hlast, by omega⟩
  | refused =>
    have hend := hcomes.1
    rw [hrun] at hend
    cases hend
    cases hr
  | failed | faulted | unchecked =>
    have hend := hcomes.1
    rw [hrun] at hend
    cases hend

/-! ### New recompilers -/

/-- A new recompiler that interprets. -/
def interpreting (o : Offsets) : Jit := ofConfig {} (.interp { offsets := o }) {}

/-- An interpreter with a single block. -/
def single (o : Offsets) (code : Interp.Code) : Interp.Backend where
  offsets := o
  blocks := #[some ⟨code, 0x7f6000000000⟩]
  nextAddr := 0x7f6000000000 + code.ops.size * Interp.Backend.opSize + Interp.Backend.gap

section
variable {code : Interp.Code} {f₀ : Fragment} {p : Pipeline} {n : Int32}

theorem assemble_single (o : Offsets) (h : Interp.Code.ofFragment addr f = .ok code) :
    Interp.Backend.assemble { offsets := o } addr f = (single o code, .ok 0) := by
  unfold Interp.Backend.assemble Interp.Backend.store
  rw [h]
  simp [single]

theorem assemble_of_ok {b : Backend} {handle : Nat}
    (h : j.backend.assemble addr f = (b, .ok handle)) :
    j.assemble addr f = .ok ({ j with backend := b }, .ok handle) := by
  unfold Jit.assemble
  rw [h]

theorem install_single {o : Offsets} (hbackend : j.backend = .interp (single o code))
    (hcache : j.cache = {}) (hconfig : j.config.perfMap = false) (addr : UInt32) (size : Nat)
    (exits : List UInt32) (fast : Bool) :
    ∃ j', j.install addr size 0 exits fast = .ok j' ∧ j'.backend = j.backend := by
  obtain ⟨b, hb⟩ : ∃ b, b = Block.fresh addr (UInt32.ofNat size) 0 0x7f6000000000
    (code.ops.size * Interp.Backend.opSize) exits fast := ⟨_, rfl⟩
  have hlinks : b.links.any Option.isSome = false := by simp [hb, Block.fresh]
  obtain ⟨c, hc⟩ : ∃ c, Cache.insert {} b = .ok c := by
    unfold Cache.insert
    rw [hlinks, hb]
    exact ⟨_, rfl⟩
  have hsymbol : ∀ hostAddr hostSize, j.recordSymbol addr hostAddr hostSize = j := by
    intro _ _
    unfold recordSymbol
    rw [hconfig]
    rfl
  have haddr : j.backend.codeAddr 0 = .ok 0x7f6000000000 := by
    rw [hbackend]
    rfl
  have hsize : j.backend.codeSize 0 = .ok (code.ops.size * Interp.Backend.opSize) := by
    rw [hbackend]
    rfl
  refine ⟨{ j with cache := c, compiled := j.compiled + 1 }, ?_, rfl⟩
  unfold Jit.install
  rw [haddr, hsize]
  change (Cache.insert (j.recordSymbol addr _ _).cache _ >>= _) = _
  rw [hsymbol, hcache, ← hb, hc]
  rfl

/-- The first block has the handle 0. -/
theorem compile_interpreting (hsize : cpu.blockSize w addr = .ok size)
    (hfragment : cpu.fragment w addr size false = .ok f₀)
    (hopt : Pipeline.optimize {} Interp.registers f₀ = .ok (f, p))
    (hcode : Interp.Code.ofFragment addr f = .ok code) :
    ∃ j, (interpreting cpu.offsets).compile cpu w addr = .ok (j, .ok 0) ∧
      j.backend = .interp (single cpu.offsets code) := by
  obtain ⟨j₁, hj₁⟩ : ∃ j₁ : Jit,
      j₁ = { interpreting cpu.offsets with files := {}, pipeline := p } := ⟨_, rfl⟩
  have hassemble : j₁.assemble addr f =
      .ok ({ j₁ with backend := .interp (single cpu.offsets code) }, .ok 0) := by
    apply assemble_of_ok
    rw [hj₁]
    change (Backend.interp (Interp.Backend.assemble { offsets := cpu.offsets } addr f).1,
      (Interp.Backend.assemble { offsets := cpu.offsets } addr f).2) = _
    rw [assemble_single _ hcode]
  have hcache : j₁.cache = {} := by
    rw [hj₁]
    rfl
  have hconfig : j₁.config.perfMap = false := by
    rw [hj₁]
    rfl
  obtain ⟨j₂, hinstall, hbackend⟩ := install_single
    (j := { j₁ with backend := .interp (single cpu.offsets code) }) rfl hcache hconfig addr size
      (Exit.statics f) false
  refine ⟨j₂, ?_, hbackend⟩
  -- nothing is dropped and nothing is written
  have hfast : (interpreting cpu.offsets).wantsFast addr = false := rfl
  have hfree : (interpreting cpu.offsets).freeBlock addr = interpreting cpu.offsets := rfl
  have hdump : ∀ listing, (interpreting cpu.offsets).dump listing addr f₀ = ({}, .ok f₀) :=
    fun _ => rfl
  have hpipeline : (interpreting cpu.offsets).pipeline.optimize
      (interpreting cpu.offsets).backend.registers f₀ = .ok (f, p) := hopt
  unfold Jit.compile
  simp only [hfast, hfree, hsize, hfragment, hdump, hpipeline, ← hj₁, hassemble, hinstall, bind,
    Except.bind]
  rfl

theorem runBlock_single (h : j.backend = .interp (single cpu.offsets code)) (w : World σ) :
    runBlock cpu 0 w j = code.execute cpu.guest cpu.offsets Interp.registers.size
      (code.ops.size * Interp.Backend.opSize + 1) w := by
  unfold runBlock Jit.blockFuel
  rw [h]
  rfl

/-- A fault in the first block is one of the run. -/
theorem run_faulted {code : Nat} {j' : Jit} {e : Fault}
    (hleft : 0 < cyclesLeft cpu (started cpu n w))
    (hfind : j.find cpu (started cpu n w) ((started cpu n w).get32 cpu.offsets.pc) =
      .ok (j', .ok code))
    (hblock : runBlock cpu code (started cpu n w) j' = .error e) : run cpu n w j = .error e := by
  have hslice : runSlice cpu (started cpu n w) j = .error e := by
    unfold runSlice
    dsimp only
    rw [hfind]
    change runBlocks _ _ _ _ _ _ _ = _
    rw [runBlocks_succ, hblock]
    rfl
  have hslices : runSlices cpu (n.toInt.toNat + 1) (started cpu n w) j = .error e := by
    unfold runSlices
    rw [if_neg (by omega), hslice]
    rfl
  change (runSlices cpu (n.toInt.toNat + 1) (started cpu n w) j >>= _) = _
  rw [hslices]
  rfl

end

/-! ### An overwritten slot -/

section
open Sh4 State

/-- The block at 0 is `mov.w r0,@r0`, then `rte` with a `nop` in its slot. -/
structure Overwrites (s : State) : Prop where
  store : opAt s 0 0 = .storeWord
  rte : opAt s 0 1 = .rte
  nop : opAt s 0 2 = .nop
  store_word : s.fetch (place 0 0) = 0x2001
  rte_word : s.fetch (place 0 1) = 0x002b

/-- The lifted code of the block. -/
def overwritingCode : Build Unit := do
  let _ ← Lift.instr none 1 .storeWord 0 0x2001
  let _ ← Lift.instr none 1 .rte 2 0x002b
  Lift.charge .nop 4 1
  Lift.finish .rte 6

/-- The register code of the block. -/
def overwritingOps : Interp.Code where
  guestAddr := 0
  ops := #[
    ⟨.sourceInfo, .i32, #v[.i32, .i32, .i64], #v[.imm 0, .imm 1, .none], none⟩,
    ⟨.loadContext, .i32, #v[.i32, .i64, .i64], #v[.imm 0, .none, .none], some 0⟩,
    ⟨.trunc, .i16, #v[.i32, .i64, .i64], #v[.reg 0, .none, .none], some 1⟩,
    ⟨.storeGuest, .i16, #v[.i32, .i16, .i64], #v[.reg 0, .reg 1, .none], none⟩,
    ⟨.sourceInfo, .i32, #v[.i32, .i32, .i64], #v[.imm 2, .imm 5, .none], none⟩,
    ⟨.fallback, .i32, #v[.i64, .i32, .i32],
      #v[.imm Recompiler.Lift.Routine.interpret.address, .imm 2, .imm 0x002b], none⟩,
    ⟨.sourceInfo, .i32, #v[.i32, .i32, .i64], #v[.imm 4, .imm 1, .none], none⟩,
    ⟨.loadContext, .i32, #v[.i32, .i64, .i64], #v[.imm 224, .none, .none], some 0⟩,
    ⟨.branch, .i64, #v[.i32, .i64, .i64], #v[.reg 0, .none, .none], none⟩]
  localsSize := 0
  exits := []

variable {s : State}

theorem Overwrites.blockSize (h : Overwrites s) : Sh4.blockSize s 0 = .ok 6 := by
  have hstore : decode (s.fetch (0 + UInt32.ofNat 0)) = .storeWord := h.store
  have hrte : decode (s.fetch (0 + UInt32.ofNat 2)) = .rte := h.rte
  have hnop : decode (s.fetch (0 + UInt32.ofNat (2 + 2))) = .nop := h.nop
  have hrest : ∀ fuel, blockSizeFrom s 0 (fuel + 1) 2 = .ok 6 := by
    intro fuel
    unfold blockSizeFrom
    dsimp only
    rw [hrte, hnop]
    rfl
  have hall : ∀ fuel, blockSizeFrom s 0 (fuel + 2) 0 = .ok 6 := by
    intro fuel
    rw [← hrest fuel, blockSizeFrom]
    dsimp only
    rw [hstore]
    rfl
  exact hall 1022

theorem Overwrites.scaleOf (h : Overwrites s) : Sh4.scaleOf s 0 = 1 := by
  have hstore : decode (s.fetch (0 + 0)) = .storeWord := h.store
  have hall : ∀ fuel, isIdleFrom s 0 (fuel + 1) 0 true [] = false := by
    intro fuel
    unfold isIdleFrom
    dsimp only
    rw [hstore]
    exact isIdleFrom_false s 0 fuel _ _
  have hidle : isIdleLoop s 0 = false := hall 1023
  rw [Sh4.scaleOf, hidle]
  rfl

theorem Overwrites.lift (h : Overwrites s) : Sh4.lift none s 0 6 = overwritingCode := by
  have hplain : ∀ i < 1, (opAt s 0 i).has .delayed = false := by
    intro i hi
    obtain rfl : i = 0 := by omega
    rw [h.store]
    rfl
  have hdelayed : (opAt s 0 1).has .delayed = true := by
    rw [h.rte]
    rfl
  have hlift := lift_delayed none 1 hplain hdelayed
  have hnop : decode (s.fetch (place 0 (1 + 1))) = .nop := h.nop
  rw [h.scaleOf, h.rte, List.range'_one, List.forM_eq_forM, List.forM_cons, List.forM_nil] at hlift
  unfold instrAt Lift.slot at hlift
  rw [h.store, h.rte, h.store_word, h.rte_word] at hlift
  dsimp only at hlift
  rw [hnop] at hlift
  have hlifted : Op.rte.isLifted = false := rfl
  have hcheck : (!Op.nop.has .delayed) = true := rfl
  have htrue : Build.check true (.nestedDelaySlot 4) = pure () := rfl
  have hplaces : place 0 0 = 0 ∧ place 0 1 = 2 ∧ place 0 (1 + 1) = 4 ∧
    place 0 (1 + 2) = 6 := by decide
  obtain ⟨h₀, h₂, h₄, h₆⟩ := hplaces
  rw [show 2 * (1 + 2) = 6 from rfl] at hlift
  simp only [bind_assoc, pure_bind, hlifted, hcheck, h₀, h₂, h₄, h₆, htrue] at hlift
  rw [hlift, overwritingCode]

set_option maxRecDepth 100000 in
theorem lowered_overwriting : (do
    let (_, f) ← overwritingCode Fragment.empty
    let (f, _) ← Pipeline.optimize {} Interp.registers f
    match Interp.Code.ofFragment 0 f with
    | .ok code => .ok code
    | .error _ => .error .outOfFuel : Except Fault Interp.Code) = .ok overwritingOps := by
  cbv

theorem Overwrites.compile (h : Overwrites s) :
    ∃ j, (interpreting Sh4.offsets).compile Sh4.cpu s 0 = .ok (j, .ok 0) ∧
      j.backend = .interp (single Sh4.offsets overwritingOps) := by
  obtain ⟨⟨u, f₀⟩, hcode, hrest⟩ := Interp.bind_eq_ok lowered_overwriting
  obtain ⟨⟨f, p⟩, hopt, hrest⟩ := Interp.bind_eq_ok hrest
  dsimp only at hrest
  cases hf : Interp.Code.ofFragment 0 f with
  | error e =>
    rw [hf] at hrest
    cases hrest
  | ok code =>
    rw [hf] at hrest
    cases hrest
    have hlift : Sh4.cpu.lift s 0 6 false = overwritingCode := h.lift
    have hfragment : Sh4.cpu.fragment s 0 6 false = .ok f₀ := by
      unfold Cpu.fragment
      rw [hlift, hcode]
      rfl
    exact compile_interpreting h.blockSize hfragment hopt hf

/-- The state in which the `rte` is left to the interpreter, if `0xa004` was stored. -/
def overwritten (s : State) : State :=
  let stored := State.write (World.charge s Sh4.offsets 1) .w16 (0xa004 : UInt64).toUInt32
    (0xa004 &&& Width.w16.mask)
  World.charge stored Sh4.offsets 5

/-- A frame whose first two registers have these values. -/
def frameOf (s : State) (a b : UInt64) : Interp.Frame Board :=
  ⟨⟨#[], s⟩, #[a, b] ++ Array.replicate 14 0⟩

theorem execute_overwriting (fuel : Nat) {e : Fault}
    (hload : (World.charge s Sh4.offsets 1).ctx.get 0 .w32 = 0xa004)
    (hrte : Sh4.guest.fallback Recompiler.Lift.Routine.interpret.address 2 0x002b (overwritten s) =
      .error e) :
    overwritingOps.execute Sh4.guest Sh4.offsets Interp.registers.size (fuel + 6) s = .error e := by
  obtain ⟨s₁, hs₁⟩ : ∃ s₁, s₁ = World.charge s Sh4.offsets 1 := ⟨_, rfl⟩
  obtain ⟨s₂, hs₂⟩ : ∃ s₂, s₂ = State.write s₁ .w16 (0xa004 : UInt64).toUInt32
    (0xa004 &&& Width.w16.mask) := ⟨_, rfl⟩
  obtain ⟨run, hrun⟩ : ∃ run, run = Interp.run Sh4.guest Sh4.offsets overwritingOps := ⟨_, rfl⟩
  have h₀ : run (fuel + 6) 0 (frameOf s 0 0) = run (fuel + 5) 1 (frameOf s₁ 0 0) := by
    rw [hrun, hs₁]
    exact Interp.run_goes rfl rfl
  have h₁ : run (fuel + 5) 1 (frameOf s₁ 0 0) =
      run (fuel + 4) 2 (frameOf s₁ (Interp.fit .i32 0xa004) 0) := by
    rw [hrun, ← hload, ← hs₁]
    exact Interp.run_goes rfl rfl
  have h₂ : run (fuel + 4) 2 (frameOf s₁ 0xa004 0) =
      run (fuel + 3) 3 (frameOf s₁ 0xa004 (Interp.fit .i16 0xa004)) := by
    rw [hrun]
    exact Interp.run_goes rfl rfl
  have h₃ : run (fuel + 3) 3 (frameOf s₁ 0xa004 0xa004) =
      run (fuel + 2) 4 (frameOf s₂ 0xa004 0xa004) := by
    rw [hrun, hs₂]
    exact Interp.run_goes rfl rfl
  have h₄ : run (fuel + 2) 4 (frameOf s₂ 0xa004 0xa004) =
      run (fuel + 1) 5 (frameOf (overwritten s) 0xa004 0xa004) := by
    rw [hrun, hs₂, hs₁]
    exact Interp.run_goes rfl rfl
  have h₅ : run (fuel + 1) 5 (frameOf (overwritten s) 0xa004 0xa004) = .error e := by
    rw [hrun]
    refine Interp.run_fails rfl ?_
    change ((Sh4.guest.fallback Recompiler.Lift.Routine.interpret.address 2 0x002b
      (overwritten s) >>=
      fun _ => _) >>= fun _ => _) = _
    rw [hrte]
    rfl
  rw [hrun] at h₀ h₁ h₂ h₃ h₄ h₅
  exact h₀.trans (h₁.trans (h₂.trans (h₃.trans (h₄.trans h₅))))

/-- The store writes a `bra` over the `nop`. -/
def overwriting : State where
  ctx := Sh4.Context.set (Array.replicate (4 * Sh4.Field.all.length) 0) (.r 0) 0xa004
  rest := { ram := ⟨#[0x01, 0x20, 0x2b, 0x00, 0x09, 0x00, 0x00, 0x00], 7⟩ }

/-- The block is compiled, and the run fails in it. -/
theorem run_overwritten_slot : overwriting.ctx.size = 4 * Sh4.Field.all.length ∧
    (∀ addr f, Compiled Sh4.cpu addr f → (1 : Int32).toInt + toll f ≤ Int32.maxValue.toInt) ∧
    (∃ j, (interpreting Sh4.offsets).find Sh4.cpu (started Sh4.cpu 1 overwriting) 0 =
      .ok (j, .ok 0) ∧
      runBlock Sh4.cpu 0 (started Sh4.cpu 1 overwriting) j = .error (.nestedDelaySlot 4)) ∧
    run Sh4.cpu 1 overwriting (interpreting Sh4.offsets) = .error (.nestedDelaySlot 4) := by
  have hsize : overwriting.ctx.size = 4 * Sh4.Field.all.length := by
    unfold overwriting
    rw [Sh4.Context.size_set, Array.size_replicate]
  obtain ⟨s, hs⟩ : ∃ s : State, s = started Sh4.cpu 1 overwriting := ⟨_, rfl⟩
  have hleft : 0 < cyclesLeft Sh4.cpu s := by
    rw [hs, cyclesLeft_started Sh4.placed_offsets hsize]
    decide
  have hwords : s.fetch (place 0 0) = 0x2001 ∧ s.fetch (place 0 1) = 0x002b ∧
      s.fetch (place 0 2) = 0x0009 ∧ s.get32 Sh4.offsets.pc = 0 ∧
      (World.charge s Sh4.offsets 1).ctx.get 0 .w32 = 0xa004 ∧
      (overwritten s).fetch (2 + 2) = 0xa004 := by
    rw [hs]
    decide +kernel
  obtain ⟨hword₀, hword₁, hword₂, hpc, hload, hslot⟩ := hwords
  have hops : decode 0x2001 = .storeWord ∧ decode 0x002b = .rte ∧ decode 0x0009 = .nop ∧
      decode 0xa004 = .bra := by
    decide +kernel
  obtain ⟨hstore, hrte, hnop, hbra⟩ := hops
  have hoverwrites : Overwrites s := by
    refine ⟨?_, ?_, ?_, hword₀, hword₁⟩ <;> unfold opAt
    · rw [hword₀, hstore]
    · rw [hword₁, hrte]
    · rw [hword₂, hnop]
  obtain ⟨j, hcompile, hj⟩ := hoverwrites.compile
  have hdelayed : (decode ((overwritten s).fetch (2 + 2))).has .delayed = true := by
    rw [hslot, hbra]
    rfl
  have hfallback := fallback_rte Recompiler.Lift.Routine.interpret.address hrte hdelayed
  have hblock : runBlock Sh4.cpu 0 s j = .error (.nestedDelaySlot (2 + 2)) := by
    rw [runBlock_single hj]
    exact execute_overwriting (9 * Interp.Backend.opSize + 1 - 6) hload hfallback
  have hfind : (interpreting Sh4.offsets).find Sh4.cpu s 0 = .ok (j, .ok 0) := hcompile
  rw [← hs]
  refine ⟨hsize, fun addr f => Frontend.sh4.fits (by decide), ⟨j, hfind, hblock⟩, ?_⟩
  rw [← hpc] at hfind
  rw [hs] at hleft hfind hblock
  exact run_faulted hleft hfind hblock

end

end Recompiler.Jit
