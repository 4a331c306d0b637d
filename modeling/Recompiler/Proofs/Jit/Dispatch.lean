import Recompiler.Proofs.Jit.InStep

/-!
Dispatch that watches the handles it uses. It does what dispatch does, but it gives no answer at all
if a block would run whose handle is not live or whose code was not made for the pc. As long as the
cache and the backend are in step it always answers, so that never happens.
-/
namespace Recompiler.Jit

open IR

variable {σ : Type} {cpu : Cpu σ} {j j' : Jit}

/-- An outcome, or none if a wrong block would have run. -/
abbrev Watched (α : Type) := ExceptT Fault Option α

/-- An outcome that does not depend on handles. -/
def watched {α : Type} (x : Except Fault α) : Watched α := ExceptT.mk (some x)

/-- Run a block if its handle is live and its code was made for the pc. -/
def executeLive (cpu : Cpu σ) (code : Nat) (w : World σ) (j : Jit) : Watched (Exit × World σ) :=
  if (j.backend.image? code).map Image.guestAddr = some (w.get32 cpu.offsets.pc) then
    watched do j.backend.execute cpu.guest (← j.blockFuel code) code w
  else ExceptT.mk none

/-- `runBlocks`, with a watch on the handles. -/
def runBlocksLive (cpu : Cpu σ) (stop : Int) :
    Nat → UInt32 → Nat → World σ → Jit → Watched (World σ × Attempt Unit)
  | 0, _, _, _, _ => watched (.error .outOfFuel)
  | fuel + 1, addr, code, w, j => do
    let (exit, w) ← executeLive cpu code w j
    if cyclesLeft cpu w ≤ stop || w.get32 cpu.offsets.interrupts ≠ 0 then return (w, j, .ok ())
    else
      match ← watched (j.follow cpu w addr exit) with
      | (j, .ok code) => runBlocksLive cpu stop fuel (w.get32 cpu.offsets.pc) code w j
      | (j, .error e) => return (w, j, .error e)

/-- `runSlice`, with a watch on the handles. -/
def runSliceLive (cpu : Cpu σ) (w : World σ) (j : Jit) : Watched (World σ × Attempt Unit) := do
  let left := cyclesLeft cpu w
  let addr := w.get32 cpu.offsets.pc
  match ← watched (j.find cpu w addr) with
  | (j, .ok code) => runBlocksLive cpu (left - min left sliceCycles) (left.toNat + 1) addr code w j
  | (j, .error e) => return (w, j, .error e)

/-- `runSlices`, with a watch on the handles. -/
def runSlicesLive (cpu : Cpu σ) : Nat → World σ → Jit → Watched (World σ × Attempt Unit)
  | 0, _, _ => watched (.error .outOfFuel)
  | fuel + 1, w, j => do
    if cyclesLeft cpu w ≤ 0 then return (w, j, .ok ())
    else
      match ← runSliceLive cpu w j with
      | (w, j, .ok ()) => runSlicesLive cpu fuel (← watched (cpu.interruptCheck w)) j
      | failed => return failed

/-- `run`, with a watch on the handles. -/
def runLive (cpu : Cpu σ) (cycles : Int32) (w : World σ) (j : Jit) :
    Watched (World σ × Attempt Int) := do
  let w := w.set32 cpu.offsets.cycles cycles.toUInt32
  let w := w.set32 cpu.offsets.instrs 0
  match ← runSlicesLive cpu (cycles.toInt.toNat + 1) w j with
  | (w, j, .ok ()) => return (w, j, .ok (cycles.toInt - cyclesLeft cpu w))
  | (w, j, .error e) => return (w, j, .error e)

/-- A watched run that never finds a wrong block, and leaves cache and backend in step. -/
structure Safe (cpu : Cpu σ) {α : Type} (x : Watched (World σ × Attempt α))
    (y : Except Fault (World σ × Attempt α)) : Prop where
  watched_eq : x = watched y
  inStep : ∀ w j r, y = .ok (w, j, r) → InStep cpu j

theorem safe_error {α : Type} (e : Fault) :
    Safe cpu (watched (.error e) : Watched (World σ × Attempt α)) (.error e) :=
  ⟨rfl, fun _ _ _ h => (by cases h)⟩

theorem InStep.safe {α : Type} (h : InStep cpu j) (w : World σ) (r : Except Error α) :
    Safe cpu (pure (w, j, r)) (pure (w, j, r)) :=
  ⟨rfl, fun _ _ _ hr => (by cases hr; exact h)⟩

theorem safe_bind {α β : Type} {x : Except Fault β} {k : β → Watched (World σ × Attempt α)}
    {k' : β → Except Fault (World σ × Attempt α)} (h : ∀ a, x = .ok a → Safe cpu (k a) (k' a)) :
    Safe cpu (watched x >>= k) (x >>= k') := by
  cases x with
  | error e => exact safe_error e
  | ok a => exact h a rfl

theorem Safe.bind {α β : Type} {x : Watched (World σ × Attempt β)}
    {y : Except Fault (World σ × Attempt β)}
    {k : World σ × Attempt β → Watched (World σ × Attempt α)}
    {k' : World σ × Attempt β → Except Fault (World σ × Attempt α)} (hx : Safe cpu x y)
    (h : ∀ w j r, InStep cpu j → Safe cpu (k (w, j, r)) (k' (w, j, r))) :
    Safe cpu (x >>= k) (y >>= k') := by
  rw [hx.watched_eq]
  exact safe_bind fun (w, j, r) hy => h w j r (hx.inStep w j r hy)

theorem InStep.executeLive_eq (h : InStep cpu j) {code : Nat} {w : World σ}
    (hcode : j.cache.lookup (w.get32 cpu.offsets.pc) = some code) :
    executeLive cpu code w j =
      watched (do j.backend.execute cpu.guest (← j.blockFuel code) code w) := by
  obtain ⟨i, himage, haddr⟩ := h.guestAddr_eq hcode
  unfold executeLive
  rw [himage, Option.map_some, haddr, if_pos rfl]

theorem InStep.runBlocks (h : InStep cpu j) (stop : Int) (fuel : Nat) {code : Nat} {w : World σ}
    (hcode : j.cache.lookup (w.get32 cpu.offsets.pc) = some code) (addr : UInt32) :
    Safe cpu (runBlocksLive cpu stop fuel addr code w j)
      (Jit.runBlocks cpu stop fuel addr code w j) := by
  induction fuel generalizing j code w addr with
  | zero => exact safe_error .outOfFuel
  | succ fuel ih =>
    unfold runBlocksLive Jit.runBlocks
    rw [h.executeLive_eq hcode, ← bind_assoc]
    refine safe_bind fun (exit, w') _ => ?_
    by_cases hstop : (cyclesLeft cpu w' ≤ stop || w'.get32 cpu.offsets.interrupts ≠ 0) = true
    · simp only [hstop, if_true]
      exact h.safe w' (.ok ())
    · simp only [hstop, Bool.false_eq_true, if_false]
      refine safe_bind fun (j₁, r) hfollow => ?_
      obtain ⟨hstep, hnext⟩ := h.follow hfollow
      cases r with
      | error e => exact hstep.safe w' (.error e)
      | ok code' => exact ih hstep (hnext code' rfl) _

theorem InStep.runSlice (h : InStep cpu j) (w : World σ) :
    Safe cpu (runSliceLive cpu w j) (Jit.runSlice cpu w j) := by
  unfold runSliceLive Jit.runSlice
  refine safe_bind fun (j₁, r) hfind => ?_
  obtain ⟨hstep, hnext⟩ := h.find hfind
  cases r with
  | error e => exact hstep.safe w (.error e)
  | ok code => exact hstep.runBlocks _ _ (hnext code rfl) _

theorem InStep.runSlices (h : InStep cpu j) (fuel : Nat) (w : World σ) :
    Safe cpu (runSlicesLive cpu fuel w j) (Jit.runSlices cpu fuel w j) := by
  induction fuel generalizing j w with
  | zero => exact safe_error .outOfFuel
  | succ fuel ih =>
    unfold runSlicesLive Jit.runSlices
    by_cases hdone : cyclesLeft cpu w ≤ 0
    · simp only [hdone, if_true]
      exact h.safe w (.ok ())
    · simp only [hdone, if_false]
      refine (h.runSlice w).bind fun w₁ j₁ r hstep => ?_
      cases r with
      | error e => exact hstep.safe w₁ (.error e)
      | ok u => exact safe_bind fun w₂ _ => ih hstep w₂

theorem InStep.run (h : InStep cpu j) (cycles : Int32) (w : World σ) :
    Safe cpu (runLive cpu cycles w j) (Jit.run cpu cycles w j) := by
  unfold runLive Jit.run
  refine (h.runSlices _ _).bind fun w₁ j₁ r hstep => ?_
  cases r with
  | error e => exact hstep.safe w₁ (.error e)
  | ok u => exact hstep.safe w₁ _

/-! ### Requests -/

/-- A request to the recompiler, with the state of the guest that it looks at. -/
inductive Request (σ : Type) where
  | run (cycles : Int32) (w : World σ)
  | compile (w : World σ) (addr : UInt32)
  | invalidateRange (addr len : UInt32)
  | invalidateBlocks
  | freeBlocks
  | handleException (host : Nat)

/-- The recompiler after a request, whether it succeeds or fails with an error. -/
def Request.serve (cpu : Cpu σ) (j : Jit) : Request σ → Except Fault Jit
  | run cycles w => do return (← Jit.run cpu cycles w j).2.1
  | compile w addr => do return (← j.compile cpu w addr).1
  | invalidateRange addr len => return j.invalidateRange addr len
  | invalidateBlocks => return j.invalidateBlocks
  | freeBlocks => return j.freeBlocks
  | handleException host => do return (← j.handleException host).1

theorem InStep.serve (h : InStep cpu j) {r : Request σ} (hr : r.serve cpu j = .ok j') :
    InStep cpu j' := by
  cases r with
  | run cycles w =>
    obtain ⟨⟨w', j₁, r⟩, hrun, hr⟩ := Interp.bind_eq_ok hr
    cases hr
    exact (h.run cycles w).inStep w' j₁ r hrun
  | compile w addr =>
    obtain ⟨⟨j₁, r⟩, hcompile, hr⟩ := Interp.bind_eq_ok hr
    cases hr
    exact (h.compile hcompile).1
  | invalidateRange addr len =>
    cases hr
    exact h.invalidateRange addr len
  | invalidateBlocks =>
    cases hr
    exact h.invalidateBlocks
  | freeBlocks =>
    cases hr
    exact inStep_freeBlocks j
  | handleException host =>
    obtain ⟨⟨j₁, hit⟩, hhandle, hr⟩ := Interp.bind_eq_ok hr
    cases hr
    exact h.handleException hhandle

theorem InStep.serveAll (h : InStep cpu j) (rs : List (Request σ))
    (hrs : rs.foldlM (Request.serve cpu) j = .ok j') : InStep cpu j' := by
  induction rs generalizing j with
  | nil =>
    cases hrs
    exact h
  | cons r rs ih =>
    rw [List.foldlM_cons] at hrs
    obtain ⟨j₁, hr, hrs⟩ := Interp.bind_eq_ok hrs
    exact ih (h.serve hr) hrs

/-- After any requests to a new recompiler, each runnable block of the cache has a live handle with
the code of a fragment lifted at its address, no two blocks share a handle, and every live handle
belongs to a block. Hence a run from there never meets a handle that is not live or whose code was
made for another address than the pc. -/
theorem cache_in_step (config : Config) {backend : Backend} (files : Files)
    (hbackend : ∀ code, backend.image? code = none) (rs : List (Request σ))
    (hrs : rs.foldlM (Request.serve cpu) (ofConfig config backend files) = .ok j) :
    (∀ b ∈ j.cache.blocks, ∀ code, b.code = some code → ∃ f i, Lifted cpu b.addr f ∧
      j.backend.imageOf b.addr f = .ok i ∧ i.guestAddr = b.addr ∧ j.backend.image? code = some i) ∧
    (∀ b ∈ j.cache.blocks, ∀ b' ∈ j.cache.blocks, ∀ code, b.code = some code →
      b'.code = some code → b = b') ∧
    (∀ code i, j.backend.image? code = some i → ∃ b ∈ j.cache.blocks, b.code = some code) ∧
    ∀ cycles w, runLive cpu cycles w j = watched (Jit.run cpu cycles w j) := by
  have hstart : InStep cpu (ofConfig config backend files) :=
    inStep_empty rfl (Backend.packed_of_free hbackend) hbackend
  have h := hstart.serveAll rs hrs
  have hlookup : ∀ b ∈ j.cache.blocks, ∀ code, b.code = some code →
      j.cache.lookup b.addr = some code := fun b hb code hcode =>
    j.cache.lookup_eq_some_iff.mpr ⟨b, Cache.get?_of_mem h.nodup hb, hcode⟩
  refine ⟨?_, ?_, ?_, fun cycles w => (h.run cycles w).watched_eq⟩
  · intro b hb code hcode
    obtain ⟨f, i, hf, hi, himage⟩ := h.live b.addr code (hlookup b hb code hcode)
    exact ⟨f, i, hf, hi, Backend.guestAddr_imageOf hi, himage⟩
  · intro b hb b' hb' code hcode hcode'
    obtain ⟨i, himage, haddr⟩ := h.guestAddr_eq (hlookup b hb code hcode)
    obtain ⟨i', himage', haddr'⟩ := h.guestAddr_eq (hlookup b' hb' code hcode')
    rw [himage] at himage'
    cases himage'
    have hget := Cache.get?_of_mem h.nodup hb
    rw [← haddr, haddr', Cache.get?_of_mem h.nodup hb'] at hget
    exact (Option.some.inj hget).symm
  · intro code i hi
    obtain ⟨b, hb, hcode⟩ := j.cache.lookup_eq_some_iff.mp (h.cached code i hi)
    exact ⟨b, List.mem_of_find?_eq_some hb, hcode⟩

/-- A processor on which every block goes on to the next word. -/
def forward : Cpu Unit where
  name := "forward"
  offsets := ⟨0, 4, 8, 12⟩
  guest :=
    { read := fun _ _ w => (0, w), write := fun _ _ _ w => w, fallback := fun _ _ _ w => .ok w
      call := fun _ _ _ w => w, readHost := fun _ _ _ => 0, writeHost := fun _ _ _ w => w }
  fastMem _ := none
  interruptCheck w := .ok w
  step w := .ok w
  instrName _ := ""
  blockSize _ _ := .ok 4
  lift _ addr _ _ := do
    Build.sourceInfo addr 40
    Build.branch (← Build.i32 (addr + 4))
  disassemble _ _ _ := ""

/-- A recompiler that writes its blocks to files, the third of which cannot be opened. -/
def refusedOnce : Jit :=
  ofConfig { dumpDir := some "blocks" } (.interp { offsets := forward.offsets })
    { answers := fun n => if n = 2 then .refused else .done }

/-- Two blocks run, the second one is dropped, and compiled again until its file can be written. -/
def recompiled : List (Request Unit) :=
  [.run 60 ⟨Array.replicate 16 0, ()⟩, .invalidateRange 4 4, .compile ⟨Array.replicate 16 0, ()⟩ 4,
    .compile ⟨Array.replicate 16 0, ()⟩ 4]

theorem cache_in_step_recompiled : ∃ j,
    recompiled.foldlM (Request.serve forward) refusedOnce = .ok j ∧
    j.cache.lookup 4 = some 1 ∧ (∃ i, j.backend.image? 1 = some i ∧ i.guestAddr = 4) ∧
    ∀ cycles w, runLive forward cycles w j = watched (Jit.run forward cycles w j) := by
  have hrun : ((recompiled.foldlM (Request.serve forward) refusedOnce).toOption.map
      fun j => j.cache.lookup 4) = some (some 1) := by cbv
  obtain ⟨j, hj, hlookup⟩ := Option.map_eq_some_iff.mp hrun
  have hok : recompiled.foldlM (Request.serve forward) refusedOnce = .ok j := by
    cases hx : recompiled.foldlM (Request.serve forward) refusedOnce with
    | error e =>
      rw [hx] at hj
      cases hj
    | ok j' =>
      rw [hx] at hj
      cases hj
      rfl
  obtain ⟨hlive, -, -, hwatch⟩ := cache_in_step { dumpDir := some "blocks" }
    { answers := fun n => if n = 2 then .refused else .done } (fun _ => rfl) recompiled hok
  obtain ⟨b, hb, hcode⟩ := j.cache.lookup_eq_some_iff.mp hlookup
  obtain ⟨_, i, -, -, haddr, himage⟩ := hlive b (List.mem_of_find?_eq_some hb) 1 hcode
  exact ⟨j, hok, hlookup, ⟨i, himage, haddr.trans (j.cache.get?_addr hb)⟩, hwatch⟩

end Recompiler.Jit
