import Recompiler.Proofs.Jit.Exits

/-!
What the interpreter runs. As long as the backend is the interpreter, every block of the cache is
the register code of a fragment that was lifted from as many bytes as its block has.
-/
namespace Recompiler.Jit

open IR Pass Relation

variable {σ : Type} {cpu : Cpu σ} {j j' : Jit} {addr : UInt32} {code : Nat} {f : Fragment}

/-! ### Lifting whole blocks -/

/-- A fragment that was made of a block of the guest, as it was in some state, and optimized. -/
def Compiled (cpu : Cpu σ) (addr : UInt32) (f : Fragment) : Prop :=
  ∃ w size fast f₀ f₁, cpu.blockSize w addr = .ok size ∧
    cpu.fragment w addr size fast = .ok f₀ ∧ Written f₀ f₁ ∧
    ∃ (p p' : Pipeline) (regs : Array Register), p.optimize regs f₁ = .ok (f, p')

/-- The processor when it refuses to lift anything but blocks. -/
def wholeBlocks (cpu : Cpu σ) : Cpu σ where
  __ := cpu
  lift w addr size fast f :=
    match cpu.blockSize w addr with
    | .ok n => if n = size then cpu.lift w addr size fast f else .error .assertion
    | .error e => .error e

theorem fragment_wholeBlocks {w : World σ} {size : Nat} (h : cpu.blockSize w addr = .ok size)
    (fast : Bool) :
    (wholeBlocks cpu).fragment w addr size fast = cpu.fragment w addr size fast := by
  unfold Cpu.fragment wholeBlocks
  dsimp only
  rw [h]
  dsimp only
  rw [if_pos rfl]

/-- A recompiler only lifts blocks. -/
theorem compile_wholeBlocks (w : World σ) (addr : UInt32) (j : Jit) :
    j.compile (wholeBlocks cpu) w addr = j.compile cpu w addr := by
  unfold Jit.compile
  dsimp only
  rw [show (wholeBlocks cpu).blockSize w addr = cpu.blockSize w addr from rfl]
  cases hsize : cpu.blockSize w addr with
  | error e => rfl
  | ok size =>
    have hfragment := fragment_wholeBlocks hsize (j.wantsFast addr)
    change ((wholeBlocks cpu).fragment w addr size (j.wantsFast addr) >>= _) =
      (cpu.fragment w addr size (j.wantsFast addr) >>= _)
    rw [hfragment]
    rfl

theorem find_wholeBlocks (w : World σ) (addr : UInt32) (j : Jit) :
    j.find (wholeBlocks cpu) w addr = j.find cpu w addr := by
  unfold Jit.find
  rw [compile_wholeBlocks]

theorem follow_wholeBlocks (w : World σ) (source : UInt32) (exit : Exit) (j : Jit) :
    j.follow (wholeBlocks cpu) w source exit = j.follow cpu w source exit := by
  unfold Jit.follow Jit.findLinked
  simp only [find_wholeBlocks]
  rfl

theorem Lifted.compiled (h : Lifted (wholeBlocks cpu) addr f) : Compiled cpu addr f := by
  obtain ⟨w, size, fast, f₀, f₁, hlift, hopt⟩ := h
  have hsize : cpu.blockSize w addr = .ok size := by
    obtain ⟨_, hlift', -⟩ := Interp.bind_eq_ok hlift
    unfold wholeBlocks at hlift'
    dsimp only at hlift'
    split at hlift'
    · split at hlift'
      case isTrue hn hsize => rw [hn, hsize]
      case isFalse => cases hlift'
    · cases hlift'
  rw [fragment_wholeBlocks hsize] at hlift
  exact ⟨w, size, fast, f₀, f₁, hsize, hlift, hopt⟩

variable {cs : List (Call σ)}

theorem Change.wholeBlocks (h : Change cpu j cs j') : Change (wholeBlocks cpu) j cs j' := by
  cases h with
  | compile h => exact .compile ((compile_wholeBlocks _ _ j).trans h)
  | linkExit source slot dst => exact .linkExit j source slot dst
  | dropCode a => exact .dropCode j a
  | handleException h => exact .handleException h

/-! ### The interpreter as backend -/

/-- The backend is the interpreter, with these offsets. -/
def Interprets (o : Offsets) (b : Backend) : Prop := ∃ b', b = .interp b' ∧ b'.offsets = o

section
variable {o : Offsets} {b : Backend}

theorem Interprets.free (h : Interprets o b) (handle : Nat) : Interprets o (b.free handle) := by
  obtain ⟨b', rfl, ho⟩ := h
  exact ⟨_, rfl, ho⟩

theorem Interprets.reset (h : Interprets o b) : Interprets o b.reset := by
  obtain ⟨b', rfl, ho⟩ := h
  exact ⟨_, rfl, ho⟩

theorem Interprets.assemble (h : Interprets o b) (addr : UInt32) (f : Fragment) :
    Interprets o (b.assemble addr f).1 := by
  obtain ⟨b', rfl, ho⟩ := h
  refine ⟨(b'.assemble addr f).1, rfl, ?_⟩
  unfold Interp.Backend.assemble
  split
  · unfold Interp.Backend.store
    dsimp only
    split <;> exact ho
  · exact ho

end

theorem backend_dropCode (j : Jit) (addr : UInt32) :
    (j.dropCode addr).backend = j.backend ∨
      ∃ code, (j.dropCode addr).backend = j.backend.free code := by
  unfold Jit.dropCode
  split
  · exact .inr ⟨_, rfl⟩
  · exact .inl rfl

section
variable {o : Offsets} (h : Interprets o j.backend)
include h

theorem Interprets.freeBlock (addr : UInt32) : Interprets o (j.freeBlock addr).backend := by
  obtain heq | ⟨code, heq⟩ := backend_freeBlock j addr <;> rw [heq]
  · exact h
  · exact h.free code

theorem Interprets.dropCode (addr : UInt32) : Interprets o (j.dropCode addr).backend := by
  obtain heq | ⟨code, heq⟩ := backend_dropCode j addr <;> rw [heq]
  · exact h
  · exact h.free code

theorem Interprets.assembled {r : Except Error Nat} (hr : j.assemble addr f = .ok (j', r)) :
    Interprets o j'.backend := by
  have hfirst := h.assemble addr f
  have hsecond := ((h.assemble addr f).reset).assemble addr f
  unfold Jit.assemble at hr
  split at hr
  case h_1 b _ hb =>
    cases hr
    rwa [hb] at hfirst
  case h_2 => cases hr
  case h_3 b hb =>
    rw [hb] at hsecond
    dsimp only at hr
    split at hr
    case h_1 b' _ hb' =>
      cases hr
      rwa [show (b.reset.assemble addr f) = _ from hb'] at hsecond
    case h_2 => cases hr
    case h_3 b' _ hb' =>
      cases hr
      rwa [show (b.reset.assemble addr f) = _ from hb'] at hsecond
  case h_4 b _ _ hb =>
    cases hr
    rwa [hb] at hfirst

theorem Interprets.compile {w : World σ} {r : Except Error Nat}
    (hr : j.compile cpu w addr = .ok (j', r)) : Interprets o j'.backend := by
  have hfreed := h.freeBlock addr
  cases compile_cases hr with
  | unwritten hcache hbackend => rwa [hbackend]
  | refused hprepares hassemble =>
    rw [← hprepares.same.2] at hfreed
    exact hfreed.assembled hassemble
  | installed hprepares hassemble hinstall =>
    rw [← hprepares.same.2] at hfreed
    obtain ⟨-, -, -, hbackend⟩ := install_eq_ok hinstall
    rw [hbackend]
    exact hfreed.assembled hassemble

theorem Interprets.handleException {host : Nat} {hit : Bool}
    (hr : j.handleException host = .ok (j', hit)) : Interprets o j'.backend := by
  obtain ⟨-, rfl⟩ | ⟨a, b, -, -, -, -, rfl⟩ := handleException_cases hr
  · exact h
  · exact Interprets.dropCode (j := j.slowed a) h a

theorem Interprets.change (hj : Change cpu j cs j') : Interprets o j'.backend := by
  cases hj with
  | compile hj => exact h.compile hj
  | linkExit source slot dst =>
    unfold linkExit
    split <;> exact h
  | dropCode a => exact h.dropCode a
  | handleException hj => exact h.handleException hj

end

/-! ### Requests -/

/-- The interpreter and the cache are in step, and all the code was made of blocks. -/
structure Stocked (cpu : Cpu σ) (j : Jit) : Prop where
  inStep : InStep (wholeBlocks cpu) j
  interprets : Interprets cpu.offsets j.backend

theorem Stocked.change (h : Stocked cpu j) (hj : Change cpu j cs j') : Stocked cpu j' :=
  ⟨h.inStep.change hj.wholeBlocks, h.interprets.change hj⟩

theorem Stocked.evolves (h : Stocked cpu j) (hj : Evolves cpu j cs j') : Stocked cpu j' := by
  induction hj with
  | refl => exact h
  | tail _ hchange ih => exact ih.change hchange

theorem Stocked.invalidateRange (h : Stocked cpu j) (addr len : UInt32) :
    Stocked cpu (j.invalidateRange addr len) := by
  refine ⟨h.inStep.invalidateRange addr len, ?_⟩
  have hall : ∀ (l : List UInt32) (j : Jit), Interprets cpu.offsets j.backend →
      Interprets cpu.offsets (l.foldl Jit.freeBlock j).backend := by
    intro l
    induction l with
    | nil => exact fun _ h => h
    | cons a l ih => exact fun j h => ih _ (h.freeBlock a)
  exact hall _ j h.interprets

theorem Stocked.serve (h : Stocked cpu j) {r : Request σ} (hr : r.serve cpu j = .ok j') :
    Stocked cpu j' := by
  cases r with
  | invalidateRange addr len =>
    cases hr
    exact h.invalidateRange addr len
  | freeBlocks =>
    cases hr
    exact ⟨inStep_freeBlocks j, h.interprets.reset⟩
  | run | compile | invalidateBlocks | handleException => exact h.evolves (evolves_serve rfl hr)

theorem Stocked.serveAll (h : Stocked cpu j) (rs : List (Request σ))
    (hrs : rs.foldlM (Request.serve cpu) j = .ok j') : Stocked cpu j' := by
  induction rs generalizing j with
  | nil =>
    cases hrs
    exact h
  | cons r rs ih =>
    rw [List.foldlM_cons] at hrs
    obtain ⟨j₁, hr, hrs⟩ := Interp.bind_eq_ok hrs
    exact ih (h.serve hr) hrs

/-- A new recompiler with the interpreter behind it. -/
theorem stocked_ofConfig (cpu : Cpu σ) (config : Config) (regs : Array Register) (files : Files) :
    Stocked cpu
      (ofConfig config (.interp { offsets := cpu.offsets, registers := regs }) files) where
  inStep := inStep_empty rfl trivial fun _ => rfl
  interprets := ⟨_, rfl, rfl⟩

/-! ### Execution -/

theorem Stocked.find (h : Stocked cpu j) {w : World σ}
    (hr : j.find cpu w addr = .ok (j', .ok code)) :
    Stocked cpu j' ∧ j'.cache.lookup addr = some code := by
  refine ⟨h.evolves (evolves_find hr), ?_⟩
  rw [← find_wholeBlocks] at hr
  exact (h.inStep.find hr).2 code rfl

theorem Stocked.follow (h : Stocked cpu j) {w : World σ} {source : UInt32} {exit : Exit}
    (hr : j.follow cpu w source exit = .ok (j', .ok code)) :
    Stocked cpu j' ∧ j'.cache.lookup (w.get32 cpu.offsets.pc) = some code := by
  refine ⟨h.evolves (evolves_follow hr), ?_⟩
  rw [← follow_wholeBlocks] at hr
  exact (h.inStep.follow hr).2 code rfl

/-- What runs behind a handle: register code of the fragment, for as long as it may take. -/
theorem Stocked.execute (h : Stocked cpu j) (hcode : j.cache.lookup addr = some code) :
    ∃ f image ops nregs, Compiled cpu addr f ∧ j.backend.imageOf addr f = .ok image ∧
      j.backend.image? code = some image ∧ Interp.Code.ofFragment addr f = .ok ops ∧
      ∀ w : World σ, (do j.backend.execute cpu.guest (← j.blockFuel code) code w) =
        ops.execute cpu.guest cpu.offsets nregs (ops.ops.size * Interp.Backend.opSize + 1) w := by
  obtain ⟨f, image, hf, hi, himage⟩ := h.inStep.live addr code hcode
  obtain ⟨b, hb, ho⟩ := h.interprets
  rw [hb] at hi himage
  obtain ⟨ops, hops, hi'⟩ := Interp.bind_eq_ok ((bind_pure_comp ..).trans hi)
  cases hi'
  obtain ⟨s, hs, hcode'⟩ := Option.map_eq_some_iff.mp himage
  cases hcode'
  refine ⟨f, .ops s.code, s.code, b.registers.size, hf.compiled, hb ▸ hi, hb ▸ himage,
    hops, fun w => ?_⟩
  have hstored : b.stored code = .ok s := by
    unfold Interp.Backend.stored
    rw [hs]
  have hfuel : j.blockFuel code = .ok (s.code.ops.size * Interp.Backend.opSize + 1) := by
    unfold blockFuel
    rw [hb]
    change (do return (← (do return (← b.stored code).code.ops.size * _)) + 1) = _
    rw [hstored]
    rfl
  rw [hfuel, hb]
  change (b.stored code >>= fun s => _) = _
  rw [hstored, ← ho]
  rfl

end Recompiler.Jit
