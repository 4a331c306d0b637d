import Recompiler.Proofs.Counters
import Recompiler.Proofs.Interp.Lowering
import Recompiler.Proofs.Sh4.Lifting

/-!
The counters of an SH4. The interpreter leaves them to its caller, and no routine of the guest
changes them.
-/
namespace Recompiler.Sh4

open IR State

variable {s t : State}

theorem placed_offsets : offsets.Placed (4 * Field.all.length) := by
  constructor <;> decide

/-- What has the counters of `s` has not changed them. -/
theorem spends_of_counted (hs : s.Sized) (ht : t.Sized)
    (h : t.counted (s.get .cycles) (s.get .instrs) = t) : Spends offsets s 0 0 t where
  size_eq := ht.trans hs.symm
  cycles_eq := by
    rw [UInt32.sub_zero]
    change Context.get t.ctx .cycles = s.get .cycles
    rw [← h, ctx_counted, Context.counted, Context.get_set_ne _ (by simp),
      Context.get_set_same _ ht]
  instrs_eq := by
    rw [UInt32.add_zero]
    change Context.get t.ctx .instrs = s.get .instrs
    rw [← h, ctx_counted, Context.counted, Context.get_set_same]
    rw [Context.size_set]
    exact ht

/-- What does the same whatever the counters are leaves them alone. -/
theorem spends_of_modify (hs : s.Sized) {k : Context → Context} (hsize : ∀ c, (k c).size = c.size)
    (hk : ∀ c x y, k (Context.counted c x y) = Context.counted (k c) x y) :
    Spends offsets s 0 0 (s.modify k) := by
  have ht : (s.modify k).Sized := by
    unfold Sized State.modify
    rw [hsize]
    exact hs
  apply spends_of_counted hs ht
  have hsame := congrArg (State.modify · k) (counted_get s)
  simp only [State.modify, State.counted, hk] at hsame ⊢
  exact hsame

theorem State.Sized.modify (hs : s.Sized) {k : Context → Context}
    (hsize : ∀ c, (k c).size = c.size) :
    (s.modify k).Sized := by
  unfold Sized State.modify
  rw [hsize]
  exact hs

/-! ### Interpretation -/

theorem State.Sized.runSlot {addr : UInt32} (hs : s.Sized) (h : runSlot addr s = .ok t) :
    t.Sized := by
  unfold Sh4.runSlot at h
  dsimp only at h
  split at h
  · cases h
  · rw [← Except.ok.inj h]
    exact Sized.perform hs _ _ _

theorem State.Sized.jump {addr target : UInt32} {link : Bool} (hs : s.Sized)
    (h : jump addr target link s = .ok t) : t.Sized := by
  unfold Sh4.jump at h
  obtain ⟨u, hu, h⟩ := Interp.bind_eq_ok h
  have hu := hs.runSlot hu
  have hend : (if link then u.set .pr (addr + 4) else u).set .pc target = t := Except.ok.inj h
  subst hend
  cases link with
  | true => exact (hu.set _ _).set _ _
  | false => exact hu.set _ _

theorem State.Sized.delayedBranchIf {addr raw : UInt32} {wanted : Bool} (hs : s.Sized)
    (h : delayedBranchIf addr raw wanted s = .ok t) : t.Sized := by
  unfold Sh4.delayedBranchIf at h
  obtain ⟨u, hu, h⟩ := Interp.bind_eq_ok h
  rw [← Except.ok.inj h]
  exact (hs.runSlot hu).set _ _

theorem interpret_eq {op : Op} (hslot : op.has .delayed = false) (addr raw : UInt32) (s : State) :
    interpret op addr raw s = .ok (perform op addr raw s) := by
  cases op
  case btS | bfS | bra | bsr | braf | bsrf | jmp | jsr | rts | rte => cases hslot
  all_goals rfl

theorem State.Sized.interpret {op : Op} {addr raw : UInt32} (hs : s.Sized)
    (h : interpret op addr raw s = .ok t) : t.Sized := by
  cases hdelayed : op.has .delayed with
  | false =>
    rw [interpret_eq hdelayed] at h
    rw [← Except.ok.inj h]
    exact Sized.perform hs _ _ _
  | true =>
    cases op
    case btS | bfS => exact hs.delayedBranchIf h
    case bra | bsr | braf | bsrf | jmp | jsr | rts => exact hs.jump h
    case rte =>
      unfold Sh4.interpret at h
      obtain ⟨u, hu, h⟩ := Interp.bind_eq_ok h
      rw [← Except.ok.inj h]
      exact ((hs.runSlot hu).modify fun c => Context.size_setSr c _).set _ _
    all_goals cases hdelayed

/-- Interpretation leaves the counters to its caller. -/
theorem interpret_spends {op : Op} {addr raw : UInt32} (hs : s.Sized)
    (h : interpret op addr raw s = .ok t) : Spends offsets s 0 0 t := by
  apply spends_of_counted hs (hs.interpret h)
  have hsame := interpret_counted s (s.get .cycles) (s.get .instrs) op addr raw
  rw [counted_get, h] at hsame
  exact (Except.ok.inj hsame).symm

theorem unmetered_guest : guest.Unmetered offsets (4 * Field.all.length) where
  read _ _ _ _ := .refl offsets _
  write _ _ _ _ _ := spends_of_ctx rfl
  fallback _ _ _ _ _ hs h := interpret_spends hs h
  call routine old b s hs := by
    rw [guest_call]
    split
    · exact spends_of_modify hs (fun c => Context.size_srUpdated c _)
        fun c x y => Context.srUpdated_counted c x y _
    · exact spends_of_modify hs (fun c => Context.size_fpscrUpdated c _)
        fun c x y => Context.fpscrUpdated_counted c x y _
  writeHost _ _ _ _ _ := spends_of_ctx rfl

end Recompiler.Sh4
