import Recompiler.Proofs.IR.Reaching

/-!
The calls that a fragment makes: which services of the guest it asks for, with which arguments and
on which context. They are what a guest has written down that does what another guest does.
-/
namespace Recompiler

/-- A service of a guest that generated code asks for, with its arguments. -/
inductive Service where
  | read (w : Width) (addr : UInt32)
  | write (w : Width) (addr : UInt32) (v : UInt64)
  | fallback (routine : UInt64) (addr instr : UInt32)
  | call (routine a b : UInt64)

/-- A call, and the context that it finds. -/
structure Call where
  service : Service
  ctx : Context

variable {σ : Type}

namespace World

/-- The world without what was written down. -/
def bare (w : World (σ × List Call)) : World σ := ⟨w.ctx, w.rest.1⟩

/-- The world `t` after the call of a service from `w`. -/
def note (w : World (σ × List Call)) (r : Service) (t : World σ) : World (σ × List Call) :=
  ⟨t.ctx, (t.rest, w.rest.2 ++ [⟨r, w.ctx⟩])⟩

/-- The world with nothing written down. -/
def fresh (w : World σ) : World (σ × List Call) := ⟨w.ctx, (w.rest, [])⟩

end World

/-- The guest that writes every call down. Access to host memory is not a call. -/
def Guest.recording (g : Guest σ) : Guest (σ × List Call) where
  read w a s := ((g.read w a s.bare).1, s.note (.read w a) (g.read w a s.bare).2)
  write w a v s := s.note (.write w a v) (g.write w a v s.bare)
  fallback a b c s := s.note (.fallback a b c) <$> g.fallback a b c s.bare
  call a b c s := s.note (.call a b c) (g.call a b c s.bare)
  readHost a w s := g.readHost a w s.bare
  writeHost a w v s :=
    ⟨(g.writeHost a w v s.bare).ctx, ((g.writeHost a w v s.bare).rest, s.rest.2)⟩

namespace Meaning

open IR Interp Machine Fragment

variable {g : Guest σ} {o : Offsets} {n : Nat} {f : Fragment}

/-- Evaluated from the world `w`, the fragment comes to make the calls. -/
def Makes (g : Guest σ) (o : Offsets) (f : Fragment) (w : World σ) (calls : List Call) : Prop :=
  ∃ w', Passes g.recording o f w.fresh w' ∧ w'.rest.2 = calls

theorem apart_recording (hg : g.Apart) : g.recording.Apart where
  readHost_ctx a w c c' r := hg.readHost_ctx a w c c' r.1
  readHost_lt a w s := hg.readHost_lt a w s.bare
  writeHost_ctx a w v s := hg.writeHost_ctx a w v s.bare
  writeHost_rest a w v c c' r := by
    have h := hg.writeHost_rest a w v c c' r.1
    simp only [Guest.recording, World.bare, h]
  read_size w a s := hg.read_size w a s.bare
  write_size w a v s := hg.write_size w a v s.bare
  fallback_size a b c s s' h := by
    simp only [Guest.recording] at h
    cases hcall : g.fallback a b c s.bare with
    | error e =>
      rw [hcall] at h
      cases h
    | ok t =>
      rw [hcall] at h
      cases h
      exact hg.fallback_size a b c s.bare t hcall
  call_size a b c s := hg.call_size a b c s.bare

/-! ### The same run -/

/-- The memory without what was written down. -/
def bareMemory (m : Memory (σ × List Call)) : Memory σ := ⟨m.locals, m.world.bare⟩

/-- The state without what was written down. -/
def bareConfig (c : Config Cells (σ × List Call)) : Config Cells σ :=
  ⟨c.point, c.store, bareMemory c.memory⟩

theorem perform_recording (op : Opcode) (ty aty bty : Ty) (a b c : UInt64)
    (m : Memory (σ × List Call)) :
    (perform g.recording o op ty aty bty a b c m).map (fun r => (r.1, bareMemory r.2)) =
      perform g o op ty aty bty a b c (bareMemory m) := by
  obtain ⟨r, hr⟩ : ∃ r, Eval.apply op ty aty bty a b c = r := ⟨_, rfl⟩
  cases op with
  | fallback =>
    simp only [perform, Guest.recording, bareMemory]
    cases g.fallback a b.toUInt32 c.toUInt32 m.world.bare <;> rfl
  | loadContext | storeContext =>
    simp only [perform, bareMemory]
    cases contextWidth ty <;> rfl
  | loadLocal =>
    by_cases hle : a.toNat + ty.bytes ≤ m.locals.size <;>
    · simp only [perform, Memory.readLocal, bareMemory, hle, if_true, if_false]
      rfl
  | storeLocal =>
    by_cases hle : a.toNat + ty.bytes ≤ m.locals.size <;>
    · simp only [perform, Memory.writeLocal, bareMemory, hle, if_true, if_false]
      rfl
  | _ => first
    | rfl
    | (simp only [perform, hr]
       cases r <;> rfl)

/-- The turn without what was written down. -/
def bareTurn : Turn (Config Cells (σ × List Call)) (Result (σ × List Call)) →
    Turn (Config Cells σ) (Result σ)
  | .go c => .go (bareConfig c)
  | .stop r => .stop (r.map fun r => (r.1, r.2.bare))

/-- The recording guest does what the guest does. -/
theorem step_recording (c : Config Cells (σ × List Call)) :
    step f cells g o (bareConfig c) = bareTurn (step f cells g.recording o c) := by
  obtain ⟨⟨code, blocks⟩, s, m⟩ := c
  cases code with
  | nil => cases blocks <;> rfl
  | cons i code =>
    change step f cells g o ⟨⟨i :: code, blocks⟩, s, bareMemory m⟩ = _
    rw [step_instr, step_instr, runInstr_eq, runInstr_eq]
    cases hop : (f.instr i).op.isBranch with
    | true =>
      simp only [if_true]
      split
      · unfold jump
        cases Exit.target? (f.instr i) with
        | none => rfl
        | some v =>
          dsimp only
          split
          · rfl
          · split <;> rfl
          · rfl
      · rfl
    | false =>
      have hperform := perform_recording (g := g) (o := o) (f.instr i).op (opTy f (f.instr i))
        (argTy f (f.instr i) 0) (argTy f (f.instr i) 1) (argBits f cells s (f.instr i) 0)
        (argBits f cells s (f.instr i) 1) (argBits f cells s (f.instr i) 2) m
      simp only [Bool.false_eq_true, if_false]
      change (performed g.recording o f i s m).map _ =
        performed g o f i s (bareMemory m) at hperform
      rw [← hperform]
      cases performed g.recording o f i s m <;> rfl

theorem endsIn_recording {k : Nat} {c : Config Cells (σ × List Call)} {r : Result (σ × List Call)}
    (h : EndsIn (step f cells g.recording o) k c r) :
    EndsIn (step f cells g o) k (bareConfig c) (r.map fun r => (r.1, r.2.bare)) := by
  induction h with
  | stop h => exact .stop (by rw [step_recording, h]; rfl)
  | go h _ ih => exact .go (by rw [step_recording, h]; rfl) ih

theorem evaluates_recording {w : World σ} {r : Result (σ × List Call)}
    (h : Evaluates g.recording o f w.fresh r) :
    Evaluates g o f w (r.map fun r => (r.1, r.2.bare)) := by
  obtain ⟨k, hk⟩ := h
  exact ⟨k, endsIn_recording hk⟩

theorem reached_recording {c : Config Cells (σ × List Call)} (h : Reached g.recording o n f c) :
    Reached g o n f (bareConfig c) := by
  induction h with
  | @start w hw => exact .start (w := w.bare) hw
  | next _ hstep ih => exact .next ih (by rw [step_recording, hstep]; rfl)

theorem contained_recording (h : Contained g o n f) : Contained g.recording o n f :=
  fun i code blocks s m hr => h i code blocks s (bareMemory m) (reached_recording hr)

end Meaning
end Recompiler
