import Recompiler.Proofs.Sh4.State

/-!
What does not depend on the pc: an instruction gets its address from its caller, and either writes
the pc or leaves it alone. Lifted code keeps no pc until it leaves, so it is followed up to the pc
and the counters.
-/
namespace Recompiler.Sh4

namespace Context

variable (c : Context) (p : UInt32)

/-- The context with another pc. -/
def moved : Context := set c .pc p

@[simp] theorem get_moved {f : Field} (h : f ≠ .pc) : get (moved c p) f = get c f :=
  get_set_ne c h p

@[simp] theorem set_moved {f : Field} (h : f ≠ .pc) (v : UInt32) :
    set (moved c p) f v = moved (set c f v) p := set_comm c h p v

@[simp] theorem set_pc_moved (v : UInt32) : set (moved c p) .pc v = set c .pc v := set_set c .pc p v

@[simp] theorem ite_moved (q : Prop) [Decidable q] (c c' : Context) :
    (if q then moved c p else moved c' p) = moved (if q then c else c') p :=
  (apply_ite (moved · p) q c c').symm

@[simp] theorem swapBanks_moved : swapBanks (moved c p) = moved (swapBanks c) p :=
  List.foldl_hom (moved · p) fun c _ => by simp [swap]

@[simp] theorem swapFloatBanks_moved : swapFloatBanks (moved c p) = moved (swapFloatBanks c) p :=
  List.foldl_hom (moved · p) fun c _ => by simp [swap]

@[simp] theorem srUpdated_moved (old : UInt32) :
    srUpdated (moved c p) old = moved (srUpdated c old) p := by
  simp [srUpdated]

@[simp] theorem setSr_moved (v : UInt32) : setSr (moved c p) v = moved (setSr c v) p := by
  simp [setSr]

@[simp] theorem fpscrUpdated_moved (old : UInt32) :
    fpscrUpdated (moved c p) old = moved (fpscrUpdated c old) p := by
  simp [fpscrUpdated]

@[simp] theorem setFpscr_moved (v : UInt32) : setFpscr (moved c p) v = moved (setFpscr c v) p := by
  simp [setFpscr]

@[simp] theorem t_moved : t (moved c p) = t c := by
  simp [t]

@[simp] theorem setT_moved (on : Bool) : setT (moved c p) on = moved (setT c on) p := by
  simp [setT]

@[simp] theorem enterException_moved (spc vector : UInt32) :
    enterException (moved c p) spc vector = enterException c spc vector := by
  simp [enterException]

end Context

open State

namespace State

/-- The state with another pc. -/
def moved (s : State) (p : UInt32) : State := { s with ctx := Context.moved s.ctx p }

theorem moved_eq (s : State) (p : UInt32) : s.moved p = s.set .pc p := rfl

theorem ctx_moved (s : State) (p : UInt32) : (s.moved p).ctx = Context.moved s.ctx p := by
  rw [moved]

theorem set_moved (s : State) (p : UInt32) {f : Field} (h : f ≠ .pc) (v : UInt32) :
    (s.moved p).set f v = (s.set f v).moved p := by
  unfold set moved
  rw [Context.set_moved s.ctx p h]

end State

variable {s t u : State} {op : Op}

/-- An instruction without a slot that does not write the pc keeps it. -/
theorem perform_moved (hop : op.has .storePc = false) (s : State) (addr raw p : UInt32) :
    perform op addr raw (s.moved p) = (perform op addr raw s).moved p := by
  cases op
  case bt | bf | btS | bfS | bra | bsr | braf | bsrf | jmp | jsr | rts | rte | trapa | invalid =>
    cases hop
  all_goals simp [perform, alu, test, loadReg, storeReg, move, State.modify, moved, State.set,
    State.get, State.write, State.read]

/-- An instruction without a slot that writes the pc does not read it. -/
theorem perform_moved_of_storePc (hop : op.has .storePc = true) (hslot : op.has .delayed = false)
    (s : State) (addr raw p : UInt32) :
    perform op addr raw (s.moved p) = perform op addr raw s := by
  cases op
  case bt | bf | trapa | invalid =>
    simp [perform, branchIf, State.modify, moved, State.set]
  case btS | bfS | bra | bsr | braf | bsrf | jmp | jsr | rts | rte => cases hslot
  all_goals cases hop

/-! ### States up to the pc and the counters -/

/-- The states differ in the pc and the counters only. -/
def Alike (s t : State) : Prop := ∃ p x y, s = (t.moved p).counted x y

theorem counted_moved (s : State) (p x y : UInt32) :
    (s.counted x y).moved p = (s.moved p).counted x y := by
  rw [moved_eq, moved_eq, set_counted s x y (by simp) (by simp)]

theorem moved_moved (s : State) (p q : UInt32) : (s.moved p).moved q = s.moved q := by
  rw [moved_eq, moved_eq, moved_eq, set_set]

namespace Alike

theorem refl (s : State) : Alike s s := by
  refine ⟨s.get .pc, s.get .cycles, s.get .instrs, ?_⟩
  have hpc : s.moved (s.get .pc) = s :=
    congrArg (fun c => { s with ctx := c }) (Context.set_get s.ctx .pc)
  rw [hpc, counted_get]

theorem trans (h : Alike s t) (h' : Alike t u) : Alike s u := by
  obtain ⟨p, x, y, rfl⟩ := h
  obtain ⟨p', x', y', rfl⟩ := h'
  exact ⟨p, x, y, by rw [counted_moved, moved_moved, counted_counted]⟩

theorem counted (h : Alike s t) (x y : UInt32) : Alike (s.counted x y) t := by
  obtain ⟨p, x', y', rfl⟩ := h
  exact ⟨p, x, y, by rw [counted_counted]⟩

theorem charge (h : Alike s t) (cycles : UInt32) : Alike (s.charge offsets cycles) t := by
  rw [charge_eq]
  exact h.counted _ _

theorem moved (h : Alike s t) (p : UInt32) : Alike (s.moved p) t := by
  obtain ⟨p', x, y, rfl⟩ := h
  exact ⟨p, x, y, by rw [counted_moved, moved_moved]⟩

theorem symm (h : Alike s t) : Alike t s := by
  obtain ⟨p, x, y, rfl⟩ := h
  obtain ⟨p', x', y', ht⟩ := Alike.refl t
  exact ⟨p', x', y', by rw [counted_moved, moved_moved, counted_counted, ← ht]⟩

theorem get (h : Alike s t) {r : Field} (hpc : r ≠ .pc) (hcycles : r ≠ .cycles)
    (hinstrs : r ≠ .instrs) : s.get r = t.get r := by
  obtain ⟨p, x, y, rfl⟩ := h
  rw [get_counted _ _ _ hcycles hinstrs, moved_eq, get_set_ne _ hpc]

theorem t_eq (h : Alike s t) : Context.t s.ctx = Context.t t.ctx := by
  obtain ⟨p, x, y, rfl⟩ := h
  rw [ctx_counted, Context.t_counted, ctx_moved, Context.t_moved]

theorem set (h : Alike s t) {r : Field} (hpc : r ≠ .pc) (hcycles : r ≠ .cycles)
    (hinstrs : r ≠ .instrs) (v : UInt32) : Alike (s.set r v) (t.set r v) := by
  obtain ⟨p, x, y, rfl⟩ := h
  exact ⟨p, x, y, by rw [set_counted _ _ _ hcycles hinstrs, set_moved t p hpc]⟩

/-- Once the pc is written, the counters are all that differs. -/
theorem set_pc (h : Alike s t) (v : UInt32) : ∃ x y, s.set .pc v = (t.set .pc v).counted x y := by
  obtain ⟨p, x, y, rfl⟩ := h
  refine ⟨x, y, ?_⟩
  rw [← moved_eq, counted_moved, moved_moved, moved_eq]

/-- An instruction that writes the pc leaves only the counters to differ. -/
theorem perform_storePc (h : Alike s t) (hop : op.has .storePc = true)
    (hslot : op.has .delayed = false) (addr raw : UInt32) :
    ∃ x y, perform op addr raw s = (perform op addr raw t).counted x y := by
  obtain ⟨p, x, y, rfl⟩ := h
  refine ⟨x, y, ?_⟩
  rw [perform_counted, perform_moved_of_storePc hop hslot]

/-- Alike states stay alike under an instruction without a slot. -/
theorem perform (h : Alike s t) (hslot : op.has .delayed = false) (addr raw : UInt32) :
    Alike (perform op addr raw s) (perform op addr raw t) := by
  cases hop : op.has .storePc with
  | true =>
    obtain ⟨x, y, heq⟩ := h.perform_storePc hop hslot addr raw
    rw [heq]
    exact (refl _).counted x y
  | false =>
    obtain ⟨p, x, y, rfl⟩ := h
    exact ⟨p, x, y, by rw [perform_counted, perform_moved hop]⟩

end Alike

end Recompiler.Sh4
