import Recompiler.Proofs.Allocation.Simulation
import Recompiler.Proofs.Interp.Lowering

/-!
Register allocation of a straight-line fragment succeeds, its result is register code, and that does
what the fragment does with a cell for each value.
-/
namespace Recompiler.Pass.Allocation

open IR IR.Fragment Interp Machine Meaning

variable {f : Fragment} {b : BlockId} {regs : Array Register} {s₀ last : State}

/-! ### The visit of the only block -/

/-- Nothing is allocated yet. -/
theorem Prepared.reached (h : Prepared f b regs s₀)
    (hpacked : s₀.bins.packed = Array.replicate regs.size none) :
    Reached f b regs s₀ [] (f.blockInstrs b) [] s₀ := by
  have hr := h.recorded
  have hempty : ∀ bin, s₀.bins.packed.getD bin none = none := by
    intro bin
    rw [hpacked, Array.getD_eq_getD_getElem?, Array.getElem?_replicate]
    split <;> rfl
  have hvalue : ∀ t u, (temp s₀ t).value ≠ some u := by
    intro t u
    rw [hr.value_eq t]
    simp
  have hslot : ∀ t l, (temp s₀ t).slot ≠ some l := by
    intro t l
    rw [hr.slot_eq t]
    simp
  have hcoded : Coded f b regs [] (f.blockInstrs b) s₀.fragment := by
    rw [hr.fragment_eq]
    exact ⟨h.chain, rfl, Nat.le_refl _, Nat.le_refl _, fun _ _ => rfl, fun _ _ => rfl,
      fun _ _ => rfl, fun _ _ => rfl, by simp⟩
  refine ⟨rfl, hcoded, ⟨rfl, by rw [hpacked, Array.size_replicate], rfl, fun _ _ => rfl, ?_, ?_, ?_,
    ?_, fun t => ⟨[], rfl, by simp⟩, hr.nonempty, ?_, ?_, ?_, ?_⟩, ?_, ?_, rfl⟩
  · intro bin t hbin
    rw [hempty bin] at hbin
    cases hbin
  · intro t u _ hu
    exact absurd hu (hvalue t u)
  · intro t l hl
    exact absurd hl (hslot t l)
  · intro t t' l l' _ hl
    exact absurd hl (hslot t l)
  · intro t _ hm
    exact absurd hm List.not_mem_nil
  · intro t _ _
    exact ⟨hr.slot_eq t, fun _ => hr.value_eq t⟩
  · exact Int.le_of_eq (by rw [hr.fragment_eq])
  · rw [hr.fragment_eq]
    omega
  · intro t u hu
    exact absurd hu (hvalue t u)
  · intro j _
    rw [hr.fragment_eq]

section
variable {D : List InstrId} {g : Fragment} {j : InstrId} (h : Final regs D g j)
include h

end

theorem Allocated.localsSize_le (h : Allocated f b regs s₀ last) :
    f.localsSize ≤ last.fragment.localsSize ∧ last.fragment.localsSize ≤ maxLocalsSize := by
  obtain ⟨D, hR, -⟩ := h.final
  refine ⟨hR.packed.size_ge, ?_⟩
  have hcount : spilled last ≤ last.bins.temps.size := by
    rw [spilled]
    exact Nat.le_trans List.countP_le_length (Nat.le_of_eq List.length_range)
  have hsize := hR.packed.size_le
  have hroom := h.prepared.enough.room
  rw [hR.packed.size_eq, h.prepared.recorded.size_eq] at hcount
  omega

/-- The allocated code ends as the fragment does. -/
theorem Allocated.ends_iff {σ : Type} (h : Allocated f b regs s₀ last) (g : Guest σ) (o : Offsets)
    (w : World σ) (r : Result σ) :
    Ends (step last.fragment (Meaning.registers last.fragment) g o)
        (Meaning.start last.fragment (Array.replicate regs.size 0) w) r ↔ Evaluates g o f w r := by
  have hr := h.prepared.recorded
  obtain ⟨hlow, hhigh⟩ := h.localsSize_le
  have hzero : ∀ n i : Nat, (Array.replicate n (0 : UInt8)).getD i 0 = 0 := by
    intro n i
    rw [Array.getD_eq_getD_getElem?, Array.getElem?_replicate]
    split <;> rfl
  have hholds : Holds f b regs s₀ none (fun _ => 0) (Array.replicate regs.size 0)
      (Array.replicate last.fragment.localsSize.toNat 0)
      (Array.replicate f.localsSize.toNat 0) := by
    refine ⟨Array.size_replicate, Array.size_replicate, ?_, ?_, fun i _ => ?_, fun v _ => ?_,
      fun t u _ hu => ?_, fun t l hl => ?_⟩
    · rw [hr.fragment_eq, Array.size_replicate]
      omega
    · rw [Array.size_replicate]
      omega
    · rw [hzero, hzero]
    · rw [Eval.truncate, UInt64.zero_and]
    · rw [hr.value_eq] at hu
      cases hu
    · rw [hr.slot_eq] at hl
      cases hl
  have hrel := h.related_start hholds (Int.le_of_eq (by rw [hr.fragment_eq]))
    Array.size_replicate w
  obtain ⟨hforth, hback⟩ := simulation (h.advance g o) hrel
  -- Both runs enter the block first.
  have hleft : GoesIn (step f Meaning.cells g o) 1 (Meaning.start f (fun _ => 0) w)
      ⟨startOf f b, fun _ => 0, ⟨Array.replicate f.localsSize.toNat 0, w⟩⟩ := by
    rw [h.startOf_eq.1, Meaning.start, h.prepared.straight.order_eq]
    exact .single (step_enter ..)
  have hright : GoesIn (step last.fragment (Meaning.registers last.fragment) g o) 1
      (Meaning.start last.fragment (Array.replicate regs.size 0) w)
      ⟨startOf last.fragment b, Array.replicate regs.size 0,
        ⟨Array.replicate last.fragment.localsSize.toNat 0, w⟩⟩ := by
    rw [h.startOf_eq.2, Meaning.start, h.order_eq]
    exact .single (step_enter ..)
  rw [Evaluates, hleft.ends_iff, hright.ends_iff]
  constructor
  · intro hend
    obtain ⟨_, hend', rfl⟩ := hback r hend
    exact hend'
  · intro hend
    obtain ⟨_, hend', rfl⟩ := hforth r hend
    exact hend'

/-- Two registers, so that one of three loaded values is spilled. -/
def pair : Array Register := #[⟨"r0", [.i32]⟩, ⟨"r1", [.i32]⟩]

end Recompiler.Pass.Allocation
