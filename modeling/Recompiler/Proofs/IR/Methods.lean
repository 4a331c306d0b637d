import Recompiler.Proofs.Context
import Recompiler.Proofs.IR.Building
import Recompiler.Proofs.Interp.Agreement

/-! What the code of each building method does, on 32-bit values. -/
namespace Recompiler.Meaning

open IR Fragment Interp

variable {σ : Type} {f : Fragment} {b : BlockId} {g : Guest σ} {o : Offsets} {s : Cells}
  {m : Memory σ}

/-- The memory with another guest. -/
def withWorld (m : Memory σ) (w : World σ) : Memory σ := { m with world := w }

@[simp] theorem world_withWorld (m : Memory σ) (w : World σ) : (withWorld m w).world = w := rfl

@[simp] theorem locals_withWorld (m : Memory σ) (w : World σ) :
  (withWorld m w).locals = m.locals := rfl

@[simp] theorem withWorld_withWorld (m : Memory σ) (w w' : World σ) :
    withWorld (withWorld m w) w' = withWorld m w' := rfl

/-- The value holds a 32-bit word. -/
abbrev Holds32 (f : Fragment) (s : Cells) (v : ValueId) (x : UInt32) : Prop :=
  Holds f s v .i32 x.toUInt64

theorem fit_i32 (x : UInt64) : fit .i32 x = x.toUInt32.toUInt64 := toUInt32_and_low x

theorem emits_i32 (x : UInt32) : Emits g o (Build.i32 x) f s m fun v f' s' m' =>
    m' = m ∧ Holds32 f' s' v x := by
  refine (emits_constant (.i32 x)).mono ?_
  rintro v f' s' m' - ⟨-, hm, hv⟩
  exact ⟨hm, hv⟩

theorem emits_i64 (x : UInt64) : Emits g o (Build.i64 x) f s m fun v f' s' m' =>
    m' = m ∧ Holds f' s' v .i64 x := by
  refine (emits_constant (.i64 x)).mono ?_
  rintro v f' s' m' - ⟨-, hm, hv⟩
  exact ⟨hm, hv⟩

theorem emits_sourceInfo (addr cycles : UInt32) :
    Emits g o (Build.sourceInfo addr cycles) f s m fun _ _ _ m' =>
      m' = withWorld m (m.world.charge o cycles) := by
  unfold Build.sourceInfo
  refine (emits_i32 addr).bind ?_
  rintro a f₁ s₁ m₁ - ⟨rfl, ha⟩
  refine (emits_i32 cycles).bind ?_
  rintro c f₂ s₂ m₂ hkeep ⟨rfl, hc⟩
  have hdone : perform g o .sourceInfo .i32 .i32 .i32 addr.toUInt64 cycles.toUInt64 0 m₂ =
      .ok (none, withWorld m₂ (m₂.world.charge o cycles.toUInt64.toUInt32)) := rfl
  rw [UInt32.toUInt32_toUInt64] at hdone
  refine (emits_effect [(.i32, addr.toUInt64), (.i32, cycles.toUInt64)] rfl (by simp)
    (.cons (hkeep ha) (.cons hc .nil)) hdone).mono ?_
  rintro _ f₃ s₃ m₃ - ⟨-, hm⟩
  exact hm

theorem emits_fallback (routine : UInt64) (addr raw : UInt32) {w : World σ}
    (h : g.fallback routine addr raw m.world = .ok w) :
    Emits g o (Build.fallback routine addr raw) f s m fun _ _ _ m' => m' = withWorld m w := by
  unfold Build.fallback
  refine (emits_i64 routine).bind ?_
  rintro a f₁ s₁ m₁ - ⟨rfl, ha⟩
  refine (emits_i32 addr).bind ?_
  rintro c f₂ s₂ m₂ hkeep₁ ⟨rfl, hc⟩
  refine (emits_i32 raw).bind ?_
  rintro d f₃ s₃ m₃ hkeep₂ ⟨rfl, hd⟩
  have hdone : perform g o .fallback .i32 .i64 .i32 routine addr.toUInt64 raw.toUInt64 m₃ =
      .ok (none, withWorld m₃ w) := by
    unfold perform
    simp only [UInt32.toUInt32_toUInt64, h]
    rfl
  refine (emits_effect [(.i64, routine), (.i32, addr.toUInt64), (.i32, raw.toUInt64)] rfl
    (by simp) (.cons (hkeep₂ (hkeep₁ ha)) (.cons (hkeep₂ hc) (.cons hd .nil))) hdone).mono ?_
  rintro _ f₄ s₄ m₄ - ⟨-, hm⟩
  exact hm

/-- The offset of a word of the context, as code has it. -/
theorem toInt_offset {n : Nat} (h : 4 * n < 2 ^ 31) :
    (Int32.ofInt (4 * n : Nat)).toUInt32.toUInt64.toUInt32.toInt32.toInt = (4 * n : Nat) := by
  rw [UInt32.toUInt32_toUInt64, Int32.toInt32_toUInt32]
  exact Int32.toInt_ofInt_of_le (by omega) (by omega)

theorem emits_loadContext {n : Nat} (hn : 4 * n < 2 ^ 31) :
    Emits g o (Build.loadContext (4 * n : Nat) .i32) f s m fun v f' s' m' =>
      m' = m ∧ Holds32 f' s' v (m.world.get32 (4 * n : Nat)) := by
  unfold Build.loadContext
  refine (emits_i32 (Int32.ofInt (4 * n : Nat)).toUInt32).bind ?_
  rintro a f₁ s₁ m₁ - ⟨rfl, ha⟩
  have hdone : perform g o .loadContext .i32 .i32 .i64 (Int32.ofInt (4 * n : Nat)).toUInt32.toUInt64
      0 0 m₁ = .ok (some (m₁.world.ctx.get (4 * n : Nat) .w32), m₁) := by
    unfold perform
    rw [toInt_offset hn]
    rfl
  refine (emits_value [(.i32, (Int32.ofInt (4 * n : Nat)).toUInt32.toUInt64)] rfl (by simp)
    (.cons ha .nil) hdone).mono ?_
  rintro v f₂ s₂ m₂ - ⟨hm, hv⟩
  rw [fit_i32] at hv
  exact ⟨hm, hv⟩

theorem emits_storeContext {n : Nat} {v : ValueId} {x : UInt32} (hn : 4 * n < 2 ^ 31)
    (hv : Holds32 f s v x) : Emits g o (Build.storeContext (4 * n : Nat) v) f s m fun _ _ _ m' =>
      m' = withWorld m (m.world.set32 (4 * n : Nat) x) := by
  unfold Build.storeContext
  refine (emits_i32 (Int32.ofInt (4 * n : Nat)).toUInt32).bind ?_
  rintro a f₁ s₁ m₁ hkeep ⟨rfl, ha⟩
  have hdone :
    perform g o .storeContext .i32 .i32 .i32 (Int32.ofInt (4 * n : Nat)).toUInt32.toUInt64
      x.toUInt64 0 m₁ = .ok (none, withWorld m₁ (m₁.world.set32 (4 * n : Nat) x)) := by
    unfold perform
    rw [toInt_offset hn]
    rfl
  refine (emits_effect
    [(.i32, (Int32.ofInt (4 * n : Nat)).toUInt32.toUInt64), (.i32, x.toUInt64)] rfl (by simp)
    (.cons ha (.cons (hkeep hv) .nil)) hdone).mono ?_
  rintro _ f₂ s₂ m₂ - ⟨-, hm⟩
  exact hm

/-! ### Leaving -/

theorem mem_statics {a : UInt32} {i : InstrId} (hi : i ∈ f.allInstrs)
    (ha : Exit.address? f i = some a) : a ∈ Exit.statics f := by
  -- what is in the list stays in it, and each address is in it once it has been met
  have hadd : ∀ (as exits : List UInt32), (a ∈ as ∨ a ∈ exits) →
      a ∈ as.foldl (fun exits a => if exits.contains a then exits else exits ++ [a]) exits := by
    intro as
    induction as with
    | nil => simp
    | cons c as ih =>
      intro exits h
      refine ih _ ?_
      rw [List.mem_cons, or_assoc] at h
      beta_reduce
      split
      case isTrue hc =>
        obtain rfl | h := h
        · exact .inr (List.contains_iff_mem.mp hc)
        · exact h
      case isFalse =>
        obtain rfl | h | h := h
        · exact .inr (by simp)
        · exact .inl h
        · exact .inr (List.mem_append_left _ h)
  exact hadd _ _ (.inl (List.mem_filterMap.mpr ⟨i, hi, ha⟩))

theorem slot_ok {exits : List UInt32} {a : UInt32} (h : a ∈ exits) :
    ∃ n, Exit.slot exits a = .ok n := by
  unfold Exit.slot
  cases hn : exits.idxOf? a with
  | none => exact absurd h (List.idxOf?_eq_none_iff.mp hn)
  | some n => exact ⟨n, rfl⟩

/-- A taken branch to a word leaves the fragment for it, be it a constant or computed. -/
theorem jump_leaves {v : ValueId} {x : UInt32} {i : InstrId} (hi : i ∈ f.allInstrs)
    (htarget : Exit.target? (f.instr i) = some v) (hv : Holds32 f s v x) :
    ∃ exit, jump f cells o s m (Exit.target? (f.instr i)) =
      .stop (.ok (exit, m.world.set32 o.pc x)) := by
  have hbits := hv.bits_eq
  unfold bits at hbits
  rw [htarget]
  unfold jump
  cases horigin : (f.value v).origin with
  | result j =>
    simp only [horigin] at hbits ⊢
    refine ⟨.dynamic, ?_⟩
    rw [hbits, UInt32.toUInt32_toUInt64]
  | constant c =>
    have hty := hv.constant_ty c horigin
    cases c with
    | i32 a =>
      have ha : Exit.address? f i = some a := by
        unfold Exit.address? Value.constant?
        simp [htarget, horigin]
      obtain ⟨n, hn⟩ := slot_ok (mem_statics hi ha)
      have hword : ((Constant.i32 a).bits?.getD 0).toUInt32 = a := by simp [Constant.bits?]
      have hax : a = x := by
        simp only [horigin] at hbits
        rw [← hword, hbits, UInt32.toUInt32_toUInt64]
      refine ⟨.static n, ?_⟩
      simp only [horigin, hword, hn]
      rw [hax]
    | _ => simp [Constant.ty] at hty

end Recompiler.Meaning
