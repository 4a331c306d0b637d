import Recompiler.Proofs.IR.Labelling
import Recompiler.Proofs.Interp.Tolls
import Recompiler.Proofs.Jit.Compiled

/-!
The cycle budget. A run is told without any bound on its length: slices of blocks, each block with
the fragment that its code was made of. Every block counts down what its fragment charges, which is
at least a cycle, so the bounds that the dispatcher has are never met.
-/
namespace Recompiler.Jit

open IR Pass Meaning

variable {σ : Type} {cpu : Cpu σ} {size : Nat} {j j' : Jit} {w w' : World σ} {addr : UInt32}
  {code : Nat} {f : Fragment}

/-! ### Tolls -/

/-- What a list charges in all. -/
def cost (cs : List (UInt32 × UInt32)) : Nat := (cs.map fun c => c.2.toNat).sum

/-- The cycles that the charges in a fragment name. -/
def toll (f : Fragment) : Nat :=
  cost ((f.allInstrs.filter fun i => (f.instr i).op = .sourceInfo).filterMap (charge? f))

/-- No block charges more: there are at most 2048 instructions in it, and none takes more than 70
cycles. -/
def maxToll : Nat := 2048 * 70

/-- What some fragments charge in all. -/
def tolls (fs : List Fragment) : Nat := (fs.map toll).sum

theorem tolls_append (fs gs : List Fragment) : tolls (fs ++ gs) = tolls fs + tolls gs := by
  rw [tolls, List.map_append, List.sum_append, tolls, tolls]

theorem tolls_cons (f : Fragment) (fs : List Fragment) : tolls (f :: fs) = toll f + tolls fs := rfl

theorem toll_eq {o : Offsets} {b : BlockId} {l : List InstrId} {cs : List (UInt32 × UInt32)}
    (h : Allocation.Laden o f b l cs) : toll f = cost cs := by
  have hall : f.allInstrs = l := by
    unfold Fragment.allInstrs
    rw [h.order_eq, List.flatMap_singleton, h.chain.blockInstrs_eq]
  have hcharges : (l.filter fun i => (f.instr i).op = .sourceInfo).filterMap (charge? f) = cs := by
    have hmap := congrArg (List.filterMap id) h.toll.charges_eq
    rwa [List.filterMap_map, List.filterMap_map, Function.id_comp, Function.id_comp,
      List.filterMap_some] at hmap
  rw [toll, hall, hcharges]

theorem toNat_sum {cs : List (UInt32 × UInt32)} (h : cost cs < 2 ^ 32) :
    (cs.map Prod.snd).sum.toNat = cost cs := by
  induction cs with
  | nil => rfl
  | cons c cs ih =>
    have hcons : cost (c :: cs) = c.2.toNat + cost cs := rfl
    rw [hcons] at h ⊢
    rw [List.map_cons, List.sum_cons, UInt32.toNat_add, ih (by omega)]
    exact Nat.mod_eq_of_lt h

/-- Writing a fragment fills labels, which cost nothing. -/
theorem tolled_relabels {o : Offsets} {b : BlockId} {l : List InstrId} {cs : List (UInt32 × UInt32)}
    {f' : Fragment} (h : Tolled o f b l cs) (hf : Fragment.Relabels f f') : Tolled o f' b l cs := by
  have hop : ∀ i, (f'.instr i).op = (f.instr i).op := fun i => by rw [hf.instr_eq]
  have hargs : ∀ i, (f'.instr i).args = (f.instr i).args := fun i => by rw [hf.instr_eq]
  have hresult : ∀ i, (f'.instr i).result = (f.instr i).result := fun i => by rw [hf.instr_eq]
  have hvalues : Fragment.SameValues f f' :=
    ⟨congrArg Array.size hf.values_eq, fun v => by rw [hf.value_eq], fun v => by rw [hf.value_eq],
      fun v => by rw [hf.value_eq]⟩
  have hgrows : Fragment.Grows f f' :=
    ⟨hvalues.size_eq.ge, hf.size_instrs.ge, fun v _ => hvalues.ty_eq v,
      fun v _ => hvalues.origin_eq v, fun v _ => hvalues.reg_eq v, fun i _ => hop i,
      fun i _ => hargs i, fun i _ => hresult i⟩
  refine ⟨?_, hf.order_eq.trans h.order_eq, h.chain.sameLinks hf.sameLinks, ?_⟩
  · apply h.tidy.sameValues hvalues hop hresult _ hf.locals_eq hf.localsSize_eq
    · intro v u hu
      rw [hf.value_eq] at hu
      unfold Instr.arg
      rw [hargs]
      exact h.tidy.cited v u hu
    · intro i v hv
      have htarget : Exit.target? (f'.instr i) = Exit.target? (f.instr i) := by
        unfold Exit.target? Instr.arg
        rw [hop, hargs]
      rw [htarget] at hv
      exact h.tidy.target i v hv
    · intro b
      rw [hf.block_eq]
  · exact h.toll.grows hgrows (hf.localsSize_eq.ge)

theorem tolled_written {o : Offsets} {b : BlockId} {l : List InstrId} {cs : List (UInt32 × UInt32)}
    {f₀ : Fragment} (h : Tolled o f₀ b l cs) (hf : Written f₀ f) : Tolled o f b l cs := by
  obtain rfl | rfl := hf
  · exact h
  · exact tolled_relabels h (Fragment.relabels_assignLabels f₀)

/-- As long as the counter does not wrap, cycles count down. -/
theorem cyclesLeft_spends {c n : UInt32} (h : Spends cpu.offsets w c n w')
    (hleft : 0 < cyclesLeft cpu w) (hc : c.toNat < 2 ^ 31) :
    cyclesLeft cpu w' = cyclesLeft cpu w - c.toNat := by
  unfold cyclesLeft at hleft ⊢
  have hlt := (w.get32 cpu.offsets.cycles).toInt32.toInt_lt
  have hsigned : c.toInt32.toInt = c.toNat := by
    have hbits : c.toInt32.toBitVec.toInt = c.toBitVec.toNat := by
      rw [UInt32.toBitVec_toInt32]
      exact BitVec.toInt_eq_toNat_of_lt (by change 2 * c.toNat < 2 ^ 32; omega)
    exact hbits
  rw [h.cycles_eq, UInt32.toInt32_sub, Int32.toInt_sub, hsigned]
  exact Int.bmod_eq_of_le (by omega) (by omega)

/-! ### Processors whose blocks charge -/

/-- Every block of the processor charges something but not too much, and nothing but charges changes
the counters. -/
structure Budgeted (cpu : Cpu σ) (size : Nat) : Prop where
  placed : cpu.offsets.Placed size
  unmetered : cpu.guest.Unmetered cpu.offsets size
  interruptCheck : ∀ w w', w.ctx.size = size → cpu.interruptCheck w = .ok w' →
    Spends cpu.offsets w 0 0 w'
  tolled : ∀ w addr n fast f, cpu.blockSize w addr = .ok n → cpu.fragment w addr n fast = .ok f →
    ∃ b l cs, Tolled cpu.offsets f b l cs ∧ 0 < cost cs ∧ cost cs ≤ maxToll

theorem Budgeted.laden (h : Budgeted cpu size) (hf : Compiled cpu addr f) :
    ∃ b l cs, Allocation.Laden cpu.offsets f b l cs ∧ 0 < toll f ∧ toll f ≤ maxToll := by
  obtain ⟨w, n, fast, f₀, f₁, hsize, hlift, hwritten, p, p', regs, hopt⟩ := hf
  obtain ⟨b, l, cs, htolled, hcost⟩ := h.tolled w addr n fast f₀ hsize hlift
  obtain ⟨l', hladen⟩ := Interp.laden_optimize (tolled_written htolled hwritten) hopt
  exact ⟨b, l', cs, hladen, by rwa [toll_eq hladen]⟩

/-! ### Runs -/

/-- The code behind a handle was made of the block at an address, by way of the fragment. -/
structure Behind (cpu : Cpu σ) (j : Jit) (addr : UInt32) (code : Nat) (f : Fragment) : Prop where
  compiled : Compiled cpu addr f
  image : ∃ i, j.backend.imageOf addr f = .ok i ∧ j.backend.image? code = some i

/-- What a block does. -/
def runBlock (cpu : Cpu σ) (code : Nat) (w : World σ) (j : Jit) :
    Except Fault (Exit × World σ) := do
  j.backend.execute cpu.guest (← j.blockFuel code) code w

/-- The slice ends here. -/
def Expires (cpu : Cpu σ) (stop : Int) (w : World σ) : Prop :=
  cyclesLeft cpu w ≤ stop ∨ w.get32 cpu.offsets.interrupts ≠ 0

/-- How a run ends. -/
inductive Ending (σ : Type) where
  | done (w : World σ) (j : Jit)
  /-- The next block could not be compiled. -/
  | refused (w : World σ) (j : Jit) (e : Error)
  /-- There was a fault when the next block was compiled. -/
  | failed (e : Fault)
  /-- There was a fault in a block. -/
  | faulted (e : Fault)
  /-- There was a fault in the interrupt check behind a slice. -/
  | unchecked (e : Fault)

def Ending.result : Ending σ → Except Fault (World σ × Attempt Unit)
  | done w j => .ok (w, j, .ok ())
  | refused w j e => .ok (w, j, .error e)
  | failed e => .error e
  | faulted e => .error e
  | unchecked e => .error e

/-- Blocks up to the end of a slice, with their fragments. -/
inductive Blocks (cpu : Cpu σ) (stop : Int) :
    UInt32 → Nat → World σ → Jit → List Fragment → Ending σ → Prop
  | expires {addr : UInt32} {code : Nat} {w w' : World σ} {j : Jit} {f : Fragment} {exit : Exit}
      (hf : Behind cpu j addr code f) (hrun : runBlock cpu code w j = .ok (exit, w'))
      (hstop : Expires cpu stop w') : Blocks cpu stop addr code w j [f] (.done w' j)
  | follows {addr : UInt32} {code code' : Nat} {w w' : World σ} {j j' : Jit} {f : Fragment}
      {exit : Exit} {fs : List Fragment} {e : Ending σ} (hf : Behind cpu j addr code f)
      (hrun : runBlock cpu code w j = .ok (exit, w')) (hgo : ¬Expires cpu stop w')
      (hnext : j.follow cpu w' addr exit = .ok (j', .ok code'))
      (rest : Blocks cpu stop (w'.get32 cpu.offsets.pc) code' w' j' fs e) :
      Blocks cpu stop addr code w j (f :: fs) e
  | refused {addr : UInt32} {code : Nat} {w w' : World σ} {j j' : Jit} {f : Fragment} {exit : Exit}
      {e : Error} (hf : Behind cpu j addr code f) (hrun : runBlock cpu code w j = .ok (exit, w'))
      (hgo : ¬Expires cpu stop w') (hnext : j.follow cpu w' addr exit = .ok (j', .error e)) :
      Blocks cpu stop addr code w j [f] (.refused w' j' e)
  | failed {addr : UInt32} {code : Nat} {w w' : World σ} {j : Jit} {f : Fragment} {exit : Exit}
      {e : Fault} (hf : Behind cpu j addr code f) (hrun : runBlock cpu code w j = .ok (exit, w'))
      (hgo : ¬Expires cpu stop w') (hnext : j.follow cpu w' addr exit = .error e) :
      Blocks cpu stop addr code w j [f] (.failed e)
  | faulted {addr : UInt32} {code : Nat} {w : World σ} {j : Jit} {f : Fragment} {e : Fault}
      (hf : Behind cpu j addr code f) (hrun : runBlock cpu code w j = .error e) :
      Blocks cpu stop addr code w j [f] (.faulted e)

/-- The cycles that are left when a slice ends that starts in the state. -/
def sliceStop (cpu : Cpu σ) (w : World σ) : Int :=
  cyclesLeft cpu w - min (cyclesLeft cpu w) sliceCycles

/-- Slices up to the end of a run, with the fragments of their blocks. There is an interrupt check
behind each slice. -/
inductive Slices (cpu : Cpu σ) : World σ → Jit → List (List Fragment) → Ending σ → Prop
  | done {w : World σ} {j : Jit} (h : cyclesLeft cpu w ≤ 0) : Slices cpu w j [] (.done w j)
  | slice {w w' w'' : World σ} {j j' j'' : Jit} {code : Nat} {fs : List Fragment}
      {ss : List (List Fragment)} {e : Ending σ} (h : 0 < cyclesLeft cpu w)
      (hfind : j.find cpu w (w.get32 cpu.offsets.pc) = .ok (j', .ok code))
      (hblocks : Blocks cpu (sliceStop cpu w) (w.get32 cpu.offsets.pc) code w j' fs (.done w' j''))
      (hcheck : cpu.interruptCheck w' = .ok w'') (rest : Slices cpu w'' j'' ss e) :
      Slices cpu w j (fs :: ss) e
  | unchecked {w w' : World σ} {j j' j'' : Jit} {code : Nat} {fs : List Fragment} {e : Fault}
      (h : 0 < cyclesLeft cpu w)
      (hfind : j.find cpu w (w.get32 cpu.offsets.pc) = .ok (j', .ok code))
      (hblocks : Blocks cpu (sliceStop cpu w) (w.get32 cpu.offsets.pc) code w j' fs (.done w' j''))
      (hcheck : cpu.interruptCheck w' = .error e) : Slices cpu w j [fs] (.unchecked e)
  | last {w : World σ} {j j' : Jit} {code : Nat} {fs : List Fragment} {e : Ending σ}
      (h : 0 < cyclesLeft cpu w)
      (hfind : j.find cpu w (w.get32 cpu.offsets.pc) = .ok (j', .ok code))
      (hblocks : Blocks cpu (sliceStop cpu w) (w.get32 cpu.offsets.pc) code w j' fs e)
      (he : ∀ w' j'', e ≠ .done w' j'') : Slices cpu w j [fs] e
  | refused {w : World σ} {j j' : Jit} {e : Error} (h : 0 < cyclesLeft cpu w)
      (hfind : j.find cpu w (w.get32 cpu.offsets.pc) = .ok (j', .error e)) :
      Slices cpu w j [] (.refused w j' e)
  | failed {w : World σ} {j : Jit} {e : Fault} (h : 0 < cyclesLeft cpu w)
      (hfind : j.find cpu w (w.get32 cpu.offsets.pc) = .error e) : Slices cpu w j [] (.failed e)

/-- Only compiled blocks run. -/
theorem Blocks.compiled {stop : Int} {fs : List Fragment} {e : Ending σ}
    (h : Blocks cpu stop addr code w j fs e) : ∀ f ∈ fs, ∃ addr, Compiled cpu addr f := by
  induction h with
  | expires hf | refused hf | failed hf | faulted hf =>
    exact List.forall_mem_singleton.mpr ⟨_, hf.compiled⟩
  | follows hf _ _ _ _ ih => exact List.forall_mem_cons.mpr ⟨⟨_, hf.compiled⟩, ih⟩

theorem Slices.compiled {ss : List (List Fragment)} {e : Ending σ} (h : Slices cpu w j ss e) :
    ∀ f ∈ ss.flatten, ∃ addr, Compiled cpu addr f := by
  induction h with
  | done | refused | failed => exact fun _ h => by cases h
  | slice _ _ hblocks _ _ ih =>
    rw [List.flatten_cons]
    exact List.forall_mem_append.mpr ⟨hblocks.compiled, ih⟩
  | unchecked _ _ hblocks | last _ _ hblocks =>
    rw [List.flatten_singleton]
    exact hblocks.compiled

/-! ### One block -/

/-- A block counts down what its fragment charges, or a routine of the guest fails. -/
theorem Stocked.block (h : Stocked cpu j) (hcpu : Budgeted cpu size)
    (hcode : j.cache.lookup addr = some code) (hw : w.ctx.size = size)
    (hleft : 0 < cyclesLeft cpu w) : ∃ f, Behind cpu j addr code f ∧ 0 < toll f ∧
      ((∃ exit w', runBlock cpu code w j = .ok (exit, w') ∧ w'.ctx.size = size ∧
        cyclesLeft cpu w' = cyclesLeft cpu w - toll f) ∨
      ∃ e, runBlock cpu code w j = .error e ∧ cpu.guest.Fails e) := by
  obtain ⟨f, image, ops, nregs, hf, hi, himage, hops, hrun⟩ := h.execute hcode
  obtain ⟨b, l, cs, hladen, hpos, hle⟩ := hcpu.laden hf
  have hlt : toll f < 2 ^ 31 := Nat.lt_of_le_of_lt hle (by decide)
  have hfuel : ops.ops.size ≤ ops.ops.size * Interp.Backend.opSize + 1 := by
    unfold Interp.Backend.opSize
    omega
  have hpays := Interp.pays_execute hops hladen hcpu.unmetered hcpu.placed hw nregs hfuel
  refine ⟨f, ⟨hf, image, hi, himage⟩, hpos, ?_⟩
  unfold runBlock
  rw [hrun]
  rw [toll_eq hladen] at hlt ⊢
  obtain ⟨exit, w', hok, hspends⟩ | ⟨e, herror, hfails⟩ := hpays
  · have hsum : (cs.map Prod.snd).sum.toNat = cost cs := toNat_sum (by omega)
    refine .inl ⟨exit, w', hok, hspends.size_eq.trans hw, ?_⟩
    rw [cyclesLeft_spends hspends hleft (by rw [hsum]; exact hlt), hsum]
  · exact .inr ⟨e, herror, hfails⟩

/-! ### Failing to go on -/

/-- If no block is found, it was not compiled. -/
theorem compile_of_find {r : Except Fault (Attempt Nat)} (h : j.find cpu w addr = r)
    (hr : ∀ j' code, r ≠ .ok (j', .ok code)) : j.compile cpu w addr = r := by
  unfold Jit.find at h
  split at h
  · exact absurd h.symm (hr _ _)
  · exact h

theorem compile_of_findLinked {source : UInt32} {slot : Nat} {r : Except Fault (Attempt Nat)}
    (h : j.findLinked cpu w source slot addr = r) (hr : ∀ j' code, r ≠ .ok (j', .ok code)) :
    j.compile cpu w addr = r := by
  unfold Jit.findLinked at h
  cases hfind : j.find cpu w addr with
  | error e =>
    rw [hfind] at h
    subst h
    exact compile_of_find hfind hr
  | ok p =>
    obtain ⟨j₁, r₁⟩ := p
    rw [hfind] at h
    cases r₁ with
    | ok code => exact absurd h.symm (hr _ _)
    | error e =>
      subst h
      exact compile_of_find hfind hr

theorem compile_of_follow {source : UInt32} {exit : Exit} {r : Except Fault (Attempt Nat)}
    (h : j.follow cpu w source exit = r) (hr : ∀ j' code, r ≠ .ok (j', .ok code)) :
    j.compile cpu w (w.get32 cpu.offsets.pc) = r := by
  unfold Jit.follow at h
  cases exit with
  | dynamic => exact compile_of_find h hr
  | static slot =>
    dsimp only at h
    split at h
    · split at h
      · exact absurd h.symm (hr _ _)
      · exact compile_of_findLinked h hr
    · exact compile_of_findLinked h hr

/-- Why a run ends, unless its cycles are spent: a block was not compiled, or a routine of the guest
or an interrupt check failed. -/
def Excused (cpu : Cpu σ) : Ending σ → Prop
  | .done _ _ => True
  | .refused w j e => ∃ j₀ : Jit, j₀.compile cpu w (w.get32 cpu.offsets.pc) = .ok (j, .error e)
  | .failed e => ∃ (j₀ : Jit) (w : World σ), j₀.compile cpu w (w.get32 cpu.offsets.pc) = .error e
  | .faulted e => cpu.guest.Fails e
  | .unchecked e => ∃ w, cpu.interruptCheck w = .error e

/-! ### Slices -/

/-- What blocks do to the cycles from `w` on, if the last of them starts with more than `stop`
left. -/
structure Consumes (cpu : Cpu σ) (size : Nat) (stop : Int) (w : World σ) (fs : List Fragment)
    (e : Ending σ) : Prop where
  pos : ∀ f ∈ fs, 0 < toll f
  last : ∃ gs f, fs = gs ++ [f] ∧ stop < cyclesLeft cpu w - tolls gs
  excused : Excused cpu e
  done : ∀ w' j, e = .done w' j → Stocked cpu j ∧ w'.ctx.size = size ∧
    cyclesLeft cpu w' = cyclesLeft cpu w - tolls fs

variable {fs : List Fragment} {ss : List (List Fragment)} {e : Ending σ} {stop : Int}

theorem consumes_one (hpos : 0 < toll f) (hleft : stop < cyclesLeft cpu w) (he : Excused cpu e)
    (hdone : ∀ w' j, e = .done w' j → Stocked cpu j ∧ w'.ctx.size = size ∧
      cyclesLeft cpu w' = cyclesLeft cpu w - toll f) : Consumes cpu size stop w [f] e where
  pos g hg := by rwa [List.mem_singleton.mp hg]
  last := ⟨[], f, rfl, by simpa [tolls] using hleft⟩
  excused := he
  done w' j h := by simpa [tolls] using hdone w' j h

theorem Consumes.cons (h : Consumes cpu size stop w' fs e) (hpos : 0 < toll f)
    (hleft : cyclesLeft cpu w' = cyclesLeft cpu w - toll f) :
    Consumes cpu size stop w (f :: fs) e where
  pos := List.forall_mem_cons.mpr ⟨hpos, h.pos⟩
  last := by
    obtain ⟨gs, g, hfs, hstop⟩ := h.last
    refine ⟨f :: gs, g, by rw [hfs, List.cons_append], ?_⟩
    rw [tolls_cons]
    omega
  excused := h.excused
  done w'' j he := by
    obtain ⟨hj, hw, hcycles⟩ := h.done w'' j he
    refine ⟨hj, hw, ?_⟩
    rw [tolls_cons]
    omega

/-- What follows a block that does not end its slice. -/
def continued (cpu : Cpu σ) (stop : Int) (fuel : Nat) (w : World σ) :
    Attempt Nat → Except Fault (World σ × Attempt Unit)
  | (j, .ok code) => runBlocks cpu stop fuel (w.get32 cpu.offsets.pc) code w j
  | (j, .error e) => .ok (w, j, .error e)

theorem runBlocks_succ (stop : Int) (fuel : Nat) (addr : UInt32) (code : Nat)
    (w : World σ) (j : Jit) :
    runBlocks cpu stop (fuel + 1) addr code w j = runBlock cpu code w j >>= fun r =>
      if cyclesLeft cpu r.2 ≤ stop || r.2.get32 cpu.offsets.interrupts ≠ 0 then
        .ok (r.2, j, .ok ())
      else j.follow cpu r.2 addr r.1 >>= continued cpu stop fuel r.2 := by
  rw [runBlocks, runBlock, bind_assoc]
  rfl

theorem expires_iff : Expires cpu stop w ↔
    (cyclesLeft cpu w ≤ stop || w.get32 cpu.offsets.interrupts ≠ 0) = true := by
  simp [Expires]

/-- Blocks run up to the end of the slice, for there are at least as many cycles as blocks. -/
theorem Stocked.blocks (h : Stocked cpu j) (hcpu : Budgeted cpu size) (fuel : Nat)
    (hcode : j.cache.lookup addr = some code) (hw : w.ctx.size = size) (hstop : 0 ≤ stop)
    (hleft : stop < cyclesLeft cpu w) (hfuel : cyclesLeft cpu w ≤ fuel) :
    ∃ fs e, Blocks cpu stop addr code w j fs e ∧
      runBlocks cpu stop fuel addr code w j = e.result ∧ Consumes cpu size stop w fs e := by
  induction fuel generalizing j w addr code with
  | zero => omega
  | succ fuel ih =>
    rw [runBlocks_succ]
    obtain ⟨f, hf, hpos, ⟨exit, w', hblock, hw', hcycles⟩ | ⟨e, hblock, hfails⟩⟩ :=
      h.block hcpu hcode hw (by omega) <;> rw [hblock]
    · change ∃ fs e, _ ∧ (if cyclesLeft cpu w' ≤ stop || w'.get32 cpu.offsets.interrupts ≠ 0 then _
        else j.follow cpu w' addr exit >>= _) = _ ∧ _
      by_cases hexpires : Expires cpu stop w'
      · rw [if_pos (expires_iff.mp hexpires)]
        refine ⟨[f], .done w' j, .expires hf hblock hexpires, rfl, ?_⟩
        refine consumes_one hpos hleft trivial fun w'' j' he => ?_
        cases he
        exact ⟨h, hw', hcycles⟩
      · rw [if_neg (mt expires_iff.mpr hexpires)]
        cases hnext : j.follow cpu w' addr exit with
        | error e =>
          have hcompile := compile_of_follow (r := .error e) hnext fun _ _ h => by cases h
          have hblocks : Blocks cpu stop addr code w j [f] (.failed e) :=
            .failed hf hblock hexpires hnext
          have hexcused : Excused cpu (.failed e) := ⟨j, w', hcompile⟩
          have hconsumes : Consumes cpu size stop w [f] (.failed e) :=
            consumes_one hpos hleft hexcused fun _ _ h => by cases h
          refine ⟨[f], .failed e, hblocks, ?_, hconsumes⟩
          rfl
        | ok p =>
          obtain ⟨j', r⟩ := p
          cases r with
          | error e =>
            have hcompile :=
              compile_of_follow (r := .ok (j', .error e)) hnext fun _ _ h => by cases h
            have hblocks : Blocks cpu stop addr code w j [f] (.refused w' j' e) :=
              .refused hf hblock hexpires hnext
            have hexcused : Excused cpu (.refused w' j' e) := ⟨j, hcompile⟩
            have hconsumes : Consumes cpu size stop w [f] (.refused w' j' e) :=
              consumes_one hpos hleft hexcused fun _ _ h => by cases h
            refine ⟨[f], .refused w' j' e, hblocks, ?_, hconsumes⟩
            rfl
          | ok code' =>
            obtain ⟨hj', hcode'⟩ := h.follow hnext
            have hmore : stop < cyclesLeft cpu w' := by
              by_contra hle
              exact hexpires (.inl (by omega))
            obtain ⟨fs, e, hrest, hrun, hconsumes⟩ := ih hj' hcode' hw' hmore (by omega)
            have hblocks : Blocks cpu stop addr code w j (f :: fs) e :=
              .follows hf hblock hexpires hnext hrest
            refine ⟨f :: fs, e, hblocks, ?_, hconsumes.cons hpos hcycles⟩
            exact hrun
    · have hblocks : Blocks cpu stop addr code w j [f] (.faulted e) := .faulted hf hblock
      have hexcused : Excused cpu (.faulted e) := hfails
      have hconsumes : Consumes cpu size stop w [f] (.faulted e) :=
        consumes_one hpos hleft hexcused fun _ _ h => by cases h
      refine ⟨[f], .faulted e, hblocks, ?_, hconsumes⟩
      rfl

theorem Stocked.slice (h : Stocked cpu j) (hcpu : Budgeted cpu size) (hw : w.ctx.size = size)
    (hleft : 0 < cyclesLeft cpu w)
    (hfind : j.find cpu w (w.get32 cpu.offsets.pc) = .ok (j', .ok code)) : ∃ fs e,
      Blocks cpu (sliceStop cpu w) (w.get32 cpu.offsets.pc) code w j' fs e ∧
      runSlice cpu w j = e.result ∧ Consumes cpu size (sliceStop cpu w) w fs e := by
  obtain ⟨hj', hcode⟩ := h.find hfind
  have hstop : 0 ≤ sliceStop cpu w ∧ sliceStop cpu w < cyclesLeft cpu w := by
    unfold sliceStop sliceCycles
    omega
  obtain ⟨fs, e, hblocks, hrun, hconsumes⟩ :=
    hj'.blocks hcpu ((cyclesLeft cpu w).toNat + 1) hcode hw hstop.1 hstop.2 (by omega)
  refine ⟨fs, e, hblocks, ?_, hconsumes⟩
  unfold runSlice
  dsimp only
  rw [hfind]
  exact hrun

/-! ### Runs within a budget -/

/-- What slices do to the cycles from `w` on. -/
structure Settles (cpu : Cpu σ) (w : World σ) (ss : List (List Fragment))
    (e : Ending σ) : Prop where
  idle : cyclesLeft cpu w ≤ 0 → ss = []
  pos : ∀ f ∈ ss.flatten, 0 < toll f
  slice : ∀ fs ∈ ss, ∃ gs f, fs = gs ++ [f] ∧ (tolls gs : Int) < sliceCycles
  excused : Excused cpu e
  done : ∀ w' j, e = .done w' j → cyclesLeft cpu w' = cyclesLeft cpu w - tolls ss.flatten ∧
    cyclesLeft cpu w' ≤ 0
  last : 0 < cyclesLeft cpu w → ∀ w' j, e = .done w' j → ∃ gs f, ss.flatten = gs ++ [f] ∧
    (tolls gs : Int) < cyclesLeft cpu w

theorem Consumes.early (h : Consumes cpu size (sliceStop cpu w) w fs e) : ∃ gs f, fs = gs ++ [f] ∧
    (tolls gs : Int) < sliceCycles ∧ (tolls gs : Int) < cyclesLeft cpu w := by
  obtain ⟨gs, f, hfs, hstop⟩ := h.last
  unfold sliceStop at hstop
  exact ⟨gs, f, hfs, by omega, by omega⟩

/-- No block could be run. -/
theorem settles_nil (he : Excused cpu e) (hne : ∀ w' j, e ≠ .done w' j) :
    Settles cpu w [] e where
  idle _ := rfl
  pos _ h := by cases h
  slice _ h := by cases h
  excused := he
  done w' j h := absurd h (hne w' j)
  last _ w' j h := absurd h (hne w' j)

/-- The run ends within its first slice, or right behind it. -/
theorem Consumes.settles {e' : Ending σ} (h : Consumes cpu size (sliceStop cpu w) w fs e)
    (hleft : 0 < cyclesLeft cpu w) (he : Excused cpu e') (hne : ∀ w' j, e' ≠ .done w' j) :
    Settles cpu w [fs] e' where
  idle := by omega
  pos f hf := h.pos f (by simpa using hf)
  slice gs hgs := by
    obtain ⟨gs', f, hfs, hearly, -⟩ := h.early
    exact ⟨gs', f, (List.mem_singleton.mp hgs).trans hfs, hearly⟩
  excused := he
  done w' j he := absurd he (hne w' j)
  last _ w' j he := absurd he (hne w' j)

/-- A slice in front. -/
theorem Settles.cons {w'' : World σ} (h : Settles cpu w'' ss e)
    (hfs : Consumes cpu size (sliceStop cpu w) w fs (.done w' j))
    (hcycles : cyclesLeft cpu w'' = cyclesLeft cpu w') (hleft : 0 < cyclesLeft cpu w) :
    Settles cpu w (fs :: ss) e := by
  obtain ⟨-, -, hspent⟩ := hfs.done w' j rfl
  obtain ⟨gs, f, hfs', hearly, hlt⟩ := hfs.early
  refine ⟨by omega, ?_, ?_, h.excused, ?_, ?_⟩
  · rw [List.flatten_cons]
    exact List.forall_mem_append.mpr ⟨hfs.pos, h.pos⟩
  · exact List.forall_mem_cons.mpr ⟨⟨gs, f, hfs', hearly⟩, h.slice⟩
  · intro w₁ j₁ he
    have hdone := h.done w₁ j₁ he
    rw [List.flatten_cons, tolls_append]
    omega
  · intro _ w₁ j₁ he
    rw [List.flatten_cons]
    by_cases hmore : 0 < cyclesLeft cpu w''
    · obtain ⟨gs', f', hss, hlt'⟩ := h.last hmore w₁ j₁ he
      refine ⟨fs ++ gs', f', by rw [hss, List.append_assoc], ?_⟩
      rw [tolls_append]
      omega
    · -- it was the last one
      rw [h.idle (by omega), List.flatten_nil, List.append_nil]
      exact ⟨gs, f, hfs', hlt⟩

/-- Slices run until the cycles are spent, for every slice takes a cycle. -/
theorem Stocked.slices (h : Stocked cpu j) (hcpu : Budgeted cpu size) (fuel : Nat)
    (hw : w.ctx.size = size) (hfuel : cyclesLeft cpu w < fuel) (hpos : 0 < fuel) :
    ∃ ss e, Slices cpu w j ss e ∧ runSlices cpu fuel w j = e.result ∧ Settles cpu w ss e := by
  induction fuel generalizing j w with
  | zero => omega
  | succ fuel ih =>
    unfold runSlices
    by_cases hleft : cyclesLeft cpu w ≤ 0
    · rw [if_pos hleft]
      refine ⟨[], .done w j, .done hleft, rfl, fun _ => rfl, by simp, by simp,
        trivial, ?_, by omega⟩
      rintro w' j' he
      cases he
      exact ⟨by simp [tolls], hleft⟩
    rw [if_neg hleft]
    have hleft : 0 < cyclesLeft cpu w := by omega
    cases hfind : j.find cpu w (w.get32 cpu.offsets.pc) with
    | error e =>
      have hcompile := compile_of_find (r := .error e) hfind fun _ _ h => by cases h
      have hexcused : Excused cpu (.failed e) := ⟨j, w, hcompile⟩
      have hrun : runSlice cpu w j = .error e := by
        unfold runSlice
        dsimp only
        rw [hfind]
        rfl
      rw [hrun]
      exact ⟨[], .failed e, .failed hleft hfind, rfl, settles_nil hexcused fun _ _ h => by cases h⟩
    | ok p =>
      obtain ⟨j₁, r⟩ := p
      cases r with
      | error e =>
        have hcompile := compile_of_find (r := .ok (j₁, .error e)) hfind fun _ _ h => by cases h
        have hexcused : Excused cpu (.refused w j₁ e) := ⟨j, hcompile⟩
        have hrun : runSlice cpu w j = .ok (w, j₁, .error e) := by
          unfold runSlice
          dsimp only
          rw [hfind]
          rfl
        rw [hrun]
        exact ⟨[], .refused w j₁ e, .refused hleft hfind, rfl,
          settles_nil hexcused fun _ _ h => by cases h⟩
      | ok code =>
        obtain ⟨fs, e, hblocks, hrun, hconsumes⟩ := h.slice hcpu hw hleft hfind
        rw [hrun]
        cases e with
        | done w₁ j₂ =>
          obtain ⟨hj₂, hw₁, hspent⟩ := hconsumes.done w₁ j₂ rfl
          cases hcheck : cpu.interruptCheck w₁ with
          | error e =>
            have hexcused : Excused cpu (.unchecked e) := ⟨w₁, hcheck⟩
            refine ⟨[fs], .unchecked e, .unchecked hleft hfind hblocks hcheck, ?_,
              hconsumes.settles hleft hexcused fun _ _ h => by cases h⟩
            change cpu.interruptCheck w₁ >>= _ = _
            rw [hcheck]
            rfl
          | ok w₂ =>
            have hspends := hcpu.interruptCheck w₁ w₂ hw₁ hcheck
            have hcycles : cyclesLeft cpu w₂ = cyclesLeft cpu w₁ := by
              unfold cyclesLeft
              rw [hspends.cycles_eq, UInt32.sub_zero]
            have hless : 0 < tolls fs := by
              obtain ⟨gs, f, hfs, -⟩ := hconsumes.last
              have hf := hconsumes.pos f (by simp [hfs])
              rw [hfs, tolls_append]
              change 0 < tolls gs + (toll f + 0)
              omega
            obtain ⟨ss, e, hslices, hrest, hsettles⟩ :=
              ih hj₂ (hspends.size_eq.trans hw₁) (by omega) (by omega)
            have hall : Slices cpu w j (fs :: ss) e := .slice hleft hfind hblocks hcheck hslices
            refine ⟨fs :: ss, e, hall, ?_, hsettles.cons hconsumes hcycles hleft⟩
            change cpu.interruptCheck w₁ >>= _ = _
            rw [hcheck]
            exact hrest
        | refused | failed | faulted | unchecked =>
          refine ⟨[fs], _, .last hleft hfind hblocks ?_, ?_,
            hconsumes.settles hleft hconsumes.excused ?_⟩
          · exact fun _ _ h => by cases h
          · rfl
          · exact fun _ _ h => by cases h

end Recompiler.Jit
