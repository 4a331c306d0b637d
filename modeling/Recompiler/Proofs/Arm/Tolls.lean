import Recompiler.Proofs.Arm.Blocks
import Recompiler.Proofs.IR.Tidying

/-!
Blocks pay a toll: twelve cycles an instruction.
-/
namespace Recompiler.Arm

open IR Meaning State Fragment

variable {s : State} {begin : UInt32} {f : Fragment}

theorem blockSizeFrom_le (s : State) (begin : UInt32) (fuel start : Nat) :
    blockSizeFrom s begin fuel start ≤ start + 4 * fuel := by
  induction fuel generalizing start with
  | zero => exact Nat.le_refl start
  | succ fuel ih =>
    have hrest := ih (start + 4)
    unfold blockSizeFrom
    dsimp only
    split <;> omega

theorem adds_words (code : UInt32 → UInt32) (addrs : List UInt32) :
    Adds (addrs.forM fun addr => do
      Build.sourceInfo addr Op.cycles
      Build.fallback Lift.Routine.interpret.address addr (code addr)) f fun _ f' l =>
        Metered offsets f' l (addrs.map (·, Op.cycles)) := by
  induction addrs generalizing f with
  | nil => exact adds_pure .nil
  | cons addr addrs ih =>
    rw [List.forM_eq_forM, List.forM_cons, bind_assoc]
    refine (adds_sourceInfo (o := offsets) addr Op.cycles).bind fun _ f₁ l _ hl => ?_
    refine (idles_fallback (o := offsets) _ addr (code addr) f₁).bind fun _ f₂ l' hgrows hidle => ?_
    refine ih.mono fun _ f₃ l'' hgrows' hl'' => ?_
    have hword := ((hl.grows hgrows).append (metered_of_idle hidle)).grows hgrows'
    rw [← List.append_assoc]
    exact hword.append hl''

theorem tidies_lift (s : State) (begin : UInt32) (size : Nat) : Tidies (lift s begin size) := by
  have hwords : ∀ addrs : List UInt32, Tidies (addrs.forM fun addr => do
      Build.sourceInfo addr Op.cycles
      Build.fallback Lift.Routine.interpret.address addr (s.read32 addr)) := by
    intro addrs
    induction addrs with
    | nil => exact tidies_pure ()
    | cons addr addrs ih =>
      rw [List.forM_eq_forM, List.forM_cons, bind_assoc]
      exact (tidies_sourceInfo addr _).bind fun _ => (tidies_fallback _ addr _).bind fun _ => ih
  exact (hwords _).bind fun _ => (tidies_loadContext _ rfl).bind fun v => tidies_branch v

/-- The fragment of a block is tidy and pays for each of its words. -/
theorem tolled_lift {size : Nat} (hsize : blockSize s begin = size)
    (hlift : lift s begin size Fragment.empty = .ok ((), f)) : ∃ b l,
      Tolled offsets f b l ((addresses begin size).map (·, Op.cycles)) := by
  have htidy := tidies_lift s begin size _ _ _ tidy_empty hlift
  obtain ⟨n, hn, -⟩ := blockSize_spec s begin
  obtain rfl : size = 4 * (n + 1) := hsize.symm.trans hn
  -- the first charge opens the block
  have hopened : lift s begin (4 * (n + 1)) Fragment.empty = lift s begin (4 * (n + 1)) opened := by
    unfold lift
    rw [addresses_succ, List.forM_eq_forM, List.forM_cons, bind_assoc, bind_assoc]
    exact sourceInfo_empty _ _ _
  have hcode : Adds (lift s begin (4 * (n + 1))) opened fun _ f' l => ∃ l₁ l₂, l = l₁ ++ l₂ ∧
      Metered offsets f' l₁ ((addresses begin (4 * (n + 1))).map (·, Op.cycles)) ∧
        Closes offsets f' l₂ .branch := by
    refine (adds_words s.read32 _).bind fun _ f₁ l _ hl => ?_
    have hload :
      Emits guest offsets (Build.loadContext pc.offset .i32) f₁ (fun _ => 0) ⟨#[], s⟩ _ :=
      emits_loadContext (n := 15) (by decide)
    have hleave : Adds (Build.loadContext pc.offset .i32 >>= Build.branch) f₁ fun _ f' l =>
        Closes offsets f' l .branch := by
      refine (((idles_loadContext (o := offsets) _ _ f₁).and hload).mono ?_).branch
      intro v f₂ l' _ ⟨hidle, cells, _, _, hv⟩
      exact ⟨hidle, cells, _, hv⟩
    exact hleave.mono fun _ f₂ l' hgrows hcloses => ⟨l, l', rfl, hl.grows hgrows, hcloses⟩
  rw [hopened] at hlift
  obtain ⟨_, hext, l₁, l₂, rfl, hl₁, l', i, rfl, hidle, hleaves, hop⟩ :=
    hcode ⟨0⟩ [] [] open_opened _ f hlift
  have hsingle := single_opened.append hext
  exact ⟨⟨0⟩, _, htidy, hsingle.order_eq, hsingle.chain,
    htidy.toll hl₁ (exits_of_idle hidle) hleaves hop⟩

end Recompiler.Arm
