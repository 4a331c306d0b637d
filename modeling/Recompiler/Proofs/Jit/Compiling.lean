import Recompiler.Jit.Run
import Recompiler.Proofs.Interp.Lowering
import Recompiler.Proofs.Jit.Cache

/-!
What compilation and the handling of a fault come to, case by case. Whatever is kept by the cases is
kept by the request, so no invariant of the recompiler looks at these functions again.
-/
namespace Recompiler.Jit

open IR Pass

variable {σ : Type} {cpu : Cpu σ} {j j' : Jit} {w : World σ} {addr : UInt32} {f f₀ : Fragment}

/-! ### Fragments that are compiled -/

/-- What is compiled of a lifted fragment. If it is written to a file, it has got labels by then. -/
def Written (f₀ f : Fragment) : Prop := f = f₀ ∨ f = f₀.render.1

theorem written_dump {files : Files} {listing : String}
    (h : j.dump listing addr f₀ = (files, .ok f)) : Written f₀ f := by
  unfold Jit.dump at h
  split at h
  case h_1 =>
    cases h
    exact .inl rfl
  case h_2 =>
    dsimp only at h
    split at h
    case h_1 =>
      cases h
      exact .inr rfl
    case h_2 => cases h

/-- A fragment that was lifted at an address, in some state of the guest, and optimized. -/
def Lifted (cpu : Cpu σ) (addr : UInt32) (f : Fragment) : Prop :=
  ∃ w size fast f₀ f₁, cpu.fragment w addr size fast = .ok f₀ ∧ Written f₀ f₁ ∧
    ∃ (p p' : Pipeline) (regs : Array Register), p.optimize regs f₁ = .ok (f, p')

/-! ### Installation -/

theorem recordSymbol_spec (j : Jit) (addr : UInt32) (hostAddr hostSize : Nat) :
    (j.recordSymbol addr hostAddr hostSize).cache = j.cache ∧
      (j.recordSymbol addr hostAddr hostSize).backend = j.backend := by
  unfold recordSymbol
  split <;> exact ⟨rfl, rfl⟩

/-- Installation puts one block into the cache and leaves the backend alone. -/
theorem install_eq_ok {size code : Nat} {exits : List UInt32} {fast : Bool}
    (h : j.install addr size code exits fast = .ok j') : ∃ hostAddr hostSize,
      j.cache.insert (.fresh addr (UInt32.ofNat size) code hostAddr hostSize exits fast) =
        .ok j'.cache ∧ j'.backend = j.backend := by
  unfold Jit.install at h
  obtain ⟨hostAddr, -, h⟩ := Interp.bind_eq_ok h
  obtain ⟨hostSize, -, h⟩ := Interp.bind_eq_ok h
  obtain ⟨c, hc, h⟩ := Interp.bind_eq_ok h
  obtain ⟨hcache, hbackend⟩ := recordSymbol_spec j addr hostAddr hostSize
  rw [hcache] at hc
  cases h
  exact ⟨hostAddr, hostSize, hc, hbackend⟩

/-! ### Compilation -/

theorem backend_freeBlock (j : Jit) (addr : UInt32) :
    (j.freeBlock addr).backend = j.backend ∨
      ∃ code, (j.freeBlock addr).backend = j.backend.free code := by
  unfold Jit.freeBlock
  split
  · exact .inr ⟨_, rfl⟩
  · exact .inl rfl

/-- A fragment is ready to be assembled: the old block is dropped, and the block is lifted, written
if that is asked for, and optimized. -/
structure Prepares (cpu : Cpu σ) (w : World σ) (addr : UInt32) (j : Jit) (size : Nat)
    (f : Fragment) (j₁ : Jit) : Prop where
  blockSize_eq : cpu.blockSize w addr = .ok size
  fragment : ∃ f₀ f₁ files pipeline, cpu.fragment w addr size (j.wantsFast addr) = .ok f₀ ∧
    Written f₀ f₁ ∧ (j.freeBlock addr).pipeline.optimize (j.freeBlock addr).backend.registers f₁ =
      .ok (f, pipeline) ∧ j₁ = { j.freeBlock addr with files, pipeline }

theorem Prepares.lifted {size : Nat} {j₁ : Jit} (h : Prepares cpu w addr j size f j₁) :
    Lifted cpu addr f := by
  obtain ⟨f₀, f₁, _, pipeline, hf₀, hwritten, hopt, -⟩ := h.fragment
  exact ⟨w, size, _, f₀, f₁, hf₀, hwritten, _, pipeline, _, hopt⟩

/-- Only files and counts of the passes are other ones than before. -/
theorem Prepares.same {size : Nat} {j₁ : Jit} (h : Prepares cpu w addr j size f j₁) :
    j₁.cache = (j.freeBlock addr).cache ∧ j₁.backend = (j.freeBlock addr).backend := by
  obtain ⟨_, _, _, _, -, -, -, rfl⟩ := h.fragment
  exact ⟨rfl, rfl⟩

/-- How a compilation ends. -/
inductive Compiles (cpu : Cpu σ) (w : World σ) (addr : UInt32) (j : Jit) :
    Jit → Except Error Nat → Prop
  /-- The block could not be written to its file. -/
  | unwritten {j' : Jit} {e : Error} (hcache : j'.cache = (j.freeBlock addr).cache)
      (hbackend : j'.backend = (j.freeBlock addr).backend) : Compiles cpu w addr j j' (.error e)
  | refused {size : Nat} {f : Fragment} {j₁ j' : Jit} {e : Error}
      (hprepares : Prepares cpu w addr j size f j₁)
      (hassemble : j₁.assemble addr f = .ok (j', .error e)) : Compiles cpu w addr j j' (.error e)
  | installed {size code : Nat} {f : Fragment} {j₁ j₂ j' : Jit}
      (hprepares : Prepares cpu w addr j size f j₁)
      (hassemble : j₁.assemble addr f = .ok (j₂, .ok code))
      (hinstall : j₂.install addr size code (Exit.statics f) (j.wantsFast addr) = .ok j') :
      Compiles cpu w addr j j' (.ok code)

theorem compile_cases {r : Except Error Nat} (h : j.compile cpu w addr = .ok (j', r)) :
    Compiles cpu w addr j j' r := by
  unfold Jit.compile at h
  dsimp only at h
  obtain ⟨size, hsize, h⟩ := Interp.bind_eq_ok h
  obtain ⟨f₀, hf₀, h⟩ := Interp.bind_eq_ok h
  split at h
  case h_1 files e hdump =>
    cases h
    exact .unwritten rfl rfl
  case h_2 files f₁ hdump =>
    obtain ⟨⟨f, pipeline⟩, hopt, h⟩ := Interp.bind_eq_ok h
    obtain ⟨⟨j₂, r₂⟩, hassemble, h⟩ := Interp.bind_eq_ok h
    have hprepares : Prepares cpu w addr j size f { j.freeBlock addr with files, pipeline } :=
      ⟨hsize, f₀, f₁, files, pipeline, hf₀, written_dump hdump, hopt, rfl⟩
    cases r₂ with
    | error e =>
      cases h
      exact .refused hprepares hassemble
    | ok code =>
      obtain ⟨j₃, hinstall, h⟩ := Interp.bind_eq_ok h
      cases h
      exact .installed hprepares hassemble hinstall

/-! ### Faults -/

/-- The block at an address loses direct access. -/
def slowed (j : Jit) (addr : UInt32) : Jit :=
  { j with cache := j.cache.modify addr ({ · with fast := false }) }

/-- The handling of a fault does nothing, or it takes direct access and code from the block
there. -/
theorem handleException_cases {host : Nat} {hit : Bool}
    (h : j.handleException host = .ok (j', hit)) : (hit = false ∧ j' = j) ∨
      ∃ a b, j.cache.lookupHost host = .ok (some a) ∧ j.cache.get? a = some b ∧ b.addr = a ∧
        hit = true ∧ j' = (j.slowed a).dropCode a := by
  unfold Jit.handleException at h
  obtain ⟨found, hfound, h⟩ := Interp.bind_eq_ok h
  split at h
  case h_1 b hb =>
    obtain ⟨a, rfl, hget⟩ := Option.bind_eq_some_iff.mp hb
    have haddr : b.addr = a := j.cache.get?_addr hget
    split at h
    · cases h
      rw [haddr]
      exact .inr ⟨a, b, hfound, hget, haddr, rfl, rfl⟩
    · cases h
      exact .inl ⟨rfl, rfl⟩
  case h_2 =>
    cases h
    exact .inl ⟨rfl, rfl⟩

end Recompiler.Jit
