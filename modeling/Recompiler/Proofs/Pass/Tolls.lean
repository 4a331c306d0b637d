import Recompiler.Proofs.IR.Tolls
import Recompiler.Proofs.Pass.DeadRemoval
import Recompiler.Proofs.Pass.Folding

/-!
The passes before allocation keep the toll of a fragment. They visit instructions one at a time; a
visit may take its instruction out, and does so only if that neither charges nor branches.
-/
namespace Recompiler.Pass

open IR Fragment Interp Meaning

variable {o : Offsets} {f f' f'' : Fragment} {b : BlockId} {i j : InstrId} {l : List InstrId}
  {cs : List (UInt32 × UInt32)} {S : Type}

/-! ### Visits -/

/-- The fragment has the toll, and in its code are the instructions of a list other than `i`. -/
def Sheds (o : Offsets) (b : BlockId) (cs : List (UInt32 × UInt32)) (l : List InstrId) (i : InstrId)
    (f' : Fragment) : Prop := ∃ l', Tolled o f' b l' cs ∧ ∀ j ∈ l, j ≠ i → j ∈ l'

theorem sheds_none (h : Tolled o f b l cs) : Sheds o b cs l i f := ⟨l, h, fun _ hj _ => hj⟩

theorem sheds_removeInstr (h : Tolled o f b l cs) (hi : i ∈ l) (hop : (f.instr i).op ≠ .sourceInfo)
    (hbranch : (f.instr i).op.isBranch = false) (hremove : f.removeInstr i = .ok f') :
    Sheds o b cs l i f' := by
  obtain ⟨l₁, l₂, rfl⟩ := List.append_of_mem hi
  refine ⟨l₁ ++ l₂, h.removeInstr hop hbranch hremove, fun j hj hji => ?_⟩
  rw [List.mem_append, List.mem_cons] at hj
  rw [List.mem_append]
  exact hj.imp_right fun hj => hj.resolve_left hji

/-- Visiting different instructions of the code. -/
theorem tolled_foldlM (fragment : S → Fragment) {step : S → InstrId → Except Fault S}
    (hstep : ∀ s i s' l, Tolled o (fragment s) b l cs → i ∈ l → step s i = .ok s' →
      Sheds o b cs l i (fragment s'))
    {is : List InstrId} (hnodup : is.Nodup) {s s' : S} (h : Tolled o (fragment s) b l cs)
    (hsub : is ⊆ l) (hvisit : is.foldlM step s = .ok s') :
    ∃ l', Tolled o (fragment s') b l' cs := by
  induction is generalizing l s with
  | nil =>
    cases hvisit
    exact ⟨l, h⟩
  | cons i is ih =>
    rw [List.nodup_cons] at hnodup
    rw [List.foldlM_cons] at hvisit
    obtain ⟨s₁, hs₁, hvisit⟩ := Interp.bind_eq_ok hvisit
    obtain ⟨l₁, h₁, hkept⟩ := hstep s i s₁ l h (hsub List.mem_cons_self) hs₁
    refine ih hnodup.2 h₁ (fun j hj => ?_) hvisit
    refine hkept j (hsub (List.mem_cons_of_mem i hj)) ?_
    rintro rfl
    exact hnodup.1 hj

/-- Visiting the only block. -/
theorem tolled_order (fragment : S → Fragment) {step : S → BlockId → Except Fault S} {s s' : S}
    (hstep : ∀ s', step s b = .ok s' → ∃ l', Tolled o (fragment s') b l' cs)
    (horder : f.order = [b]) (hrun : f.order.foldlM step s = .ok s') :
    ∃ l', Tolled o (fragment s') b l' cs := by
  rw [horder, List.foldlM_cons] at hrun
  obtain ⟨s₁, hs₁, hrun⟩ := Interp.bind_eq_ok hrun
  cases hrun
  exact hstep s' hs₁

theorem resultOf_ok {v : ValueId} (h : f.resultOf i = .ok v) : (f.instr i).result = some v := by
  unfold resultOf at h
  split at h
  next hv => cases h; exact hv
  next => cases h

/-! ### Context reuse -/

namespace ContextReuse

theorem tolled_forwardInstr (s : State) (i : InstrId) (s' : State) (l : List InstrId)
    (h : Tolled o s.fragment b l cs) (hi : i ∈ l) (hstep : forwardInstr s i = .ok s') :
    Sheds o b cs l i s'.fragment := by
  unfold forwardInstr at hstep
  dsimp only at hstep
  split at hstep
  case h_1 hop =>
    obtain ⟨r, hr, hstep⟩ := Interp.bind_eq_ok hstep
    obtain ⟨offset, -, hstep⟩ := Interp.bind_eq_ok hstep
    cases offset with
    | none => cases hstep; exact sheds_none h
    | some offset =>
      dsimp only at hstep
      split at hstep
      · obtain ⟨f₁, hreplace, hstep⟩ := Interp.bind_eq_ok hstep
        obtain ⟨f₂, hremove, hstep⟩ := Interp.bind_eq_ok hstep
        cases hstep
        have hop₁ : (f₁.instr i).op = .loadContext := by
          obtain ⟨hswaps, -⟩ := h.tidy.cited.swaps hreplace
          exact (hswaps.instr i).op_eq.trans hop
        refine sheds_removeInstr (h.replaceUses (resultOf_ok hr) hreplace) hi ?_ ?_ hremove
        · rw [hop₁]
          decide
        · rw [hop₁]
          rfl
      · obtain ⟨_, -, hstep⟩ := Interp.bind_eq_ok hstep
        cases hstep
        exact sheds_none h
  case h_2 =>
    obtain ⟨offset, -, hstep⟩ := Interp.bind_eq_ok hstep
    cases offset with
    | none => cases hstep; exact sheds_none h
    | some offset =>
      dsimp only at hstep
      split at hstep
      · obtain ⟨_, -, hstep⟩ := Interp.bind_eq_ok hstep
        cases hstep
        exact sheds_none h
      · cases hstep
        exact sheds_none h
  case h_3 =>
    cases hstep
    split <;> exact sheds_none h

theorem tolled_backwardInstr (s : State) (i : InstrId) (s' : State) (l : List InstrId)
    (h : Tolled o s.fragment b l cs) (hi : i ∈ l) (hstep : backwardInstr s i = .ok s') :
    Sheds o b cs l i s'.fragment := by
  unfold backwardInstr at hstep
  dsimp only at hstep
  split at hstep
  case h_1 =>
    obtain ⟨r, -, hstep⟩ := Interp.bind_eq_ok hstep
    obtain ⟨offset, -, hstep⟩ := Interp.bind_eq_ok hstep
    cases offset with
    | none => cases hstep; exact sheds_none h
    | some offset =>
      obtain ⟨_, -, hstep⟩ := Interp.bind_eq_ok hstep
      cases hstep
      exact sheds_none h
  case h_2 hop =>
    obtain ⟨offset, -, hstep⟩ := Interp.bind_eq_ok hstep
    cases offset with
    | none => cases hstep; exact sheds_none h
    | some offset =>
      dsimp only at hstep
      split at hstep
      · cases hstep
        exact sheds_none h
      split at hstep
      · obtain ⟨f₁, hremove, hstep⟩ := Interp.bind_eq_ok hstep
        cases hstep
        refine sheds_removeInstr h hi ?_ ?_ hremove
        · rw [hop]
          decide
        · rw [hop]
          rfl
      · obtain ⟨_, -, hstep⟩ := Interp.bind_eq_ok hstep
        cases hstep
        exact sheds_none h
  case h_3 =>
    cases hstep
    split <;> exact sheds_none h

theorem tolled_run {n m : Nat} (h : Tolled o f b l cs) (hrun : run f = .ok (f', n, m)) :
    ∃ l', Tolled o f' b l' cs := by
  obtain ⟨loads, hloads, hrun⟩ := Interp.bind_eq_ok hrun
  obtain ⟨stores, hstores, hrun⟩ := Interp.bind_eq_ok hrun
  cases hrun
  obtain ⟨l₁, h₁⟩ := tolled_order State.fragment (fun s' hs' => by
    unfold forwardBlock at hs'
    rw [h.chain.blockInstrs_eq] at hs'
    exact tolled_foldlM State.fragment tolled_forwardInstr h.chain.nodup h (List.Subset.refl l) hs')
    h.order_eq hloads
  refine tolled_order State.fragment (fun s' hs' => ?_) h₁.order_eq hstores
  unfold backwardBlock at hs'
  rw [h₁.chain.blockInstrsBackward_eq] at hs'
  exact tolled_foldlM State.fragment tolled_backwardInstr (List.nodup_reverse.mpr h₁.chain.nodup)
    (s := { fragment := loads.fragment }) h₁ (List.reverse_subset.mpr (List.Subset.refl l₁)) hs'

end ContextReuse

/-! ### Constant propagation and simplification -/

theorem tolled_addScalar {ty : Ty} {bits : UInt64} {v : ValueId} (h : Tolled o f b l cs)
    (hty : ty.isInt = true) (hadd : f.addScalar ty bits = .ok (f', v)) :
    Tolled o f' b l cs ∧ ∀ i, f'.instr i = f.instr i := by
  obtain ⟨c, hc, hcty, -⟩ := bits_ofBits hty bits
  unfold Fragment.addScalar at hadd
  rw [hc] at hadd
  cases hadd
  exact ⟨h.addConstant (hcty ▸ hty), fun _ => rfl⟩

namespace Fold

/-- No rule is about charges or branches. -/
theorem op_of_rule {rule : Rule} (h : rule ∈ rules) :
    rule.op ≠ .sourceInfo ∧ rule.op.isBranch = false := by
  have hall : ∀ rule ∈ rules, rule.op ≠ .sourceInfo ∧ rule.op.isBranch = false := by decide
  exact hall rule h

theorem tolled_replacement {v : ValueId} (h : Tolled o f b l cs)
    (hv : replacement? f i = .ok (some (f', v))) : Tolled o f' b l cs ∧
      (f'.instr i).op ≠ .sourceInfo ∧ (f'.instr i).op.isBranch = false := by
  unfold replacement? at hv
  dsimp only at hv
  split at hv
  case h_2 => cases hv
  case h_1 r rule hr hrule =>
  have hop : (f.instr i).op ≠ .sourceInfo ∧ (f.instr i).op.isBranch = false := by
    obtain ⟨hmem, hop, -⟩ := lookup_spec hrule
    rw [← hop]
    exact op_of_rule hmem
  split at hv
  case isFalse => cases hv
  case isTrue =>
    split at hv
    case h_1 bits _ =>
      cases hadd : f.addScalar (f.ty r) bits with
      | error e =>
        rw [hadd] at hv
        cases hv
      | ok p =>
        rw [hadd] at hv
        cases hv
        obtain ⟨h', hinstr⟩ := tolled_addScalar h (h.tidy.isInt r) hadd
        rw [hinstr]
        exact ⟨h', hop⟩
    case h_2 n _ =>
      cases harg : (f.instr i).arg n with
      | none =>
        rw [harg] at hv
        cases hv
      | some u =>
        rw [harg] at hv
        cases hv
        exact ⟨h, hop⟩

theorem tolled_foldInstr (s : Fragment × Nat) (i : InstrId) (s' : Fragment × Nat) (l : List InstrId)
    (h : Tolled o s.1 b l cs) (hi : i ∈ l) (hstep : foldInstr s i = .ok s') :
    Sheds o b cs l i s'.1 := by
  obtain ⟨new, hnew, hstep⟩ := Interp.bind_eq_ok hstep
  cases new with
  | none =>
    cases hstep
    exact sheds_none h
  | some new =>
    obtain ⟨f₁, v⟩ := new
    obtain ⟨h₁, hop, hbranch⟩ := tolled_replacement h hnew
    obtain ⟨r, hr, hstep⟩ := Interp.bind_eq_ok hstep
    dsimp only at hstep
    split at hstep
    · obtain ⟨f₂, hsame, hstep⟩ := Interp.bind_eq_ok hstep
      cases hsame
      obtain ⟨f₃, hremove, hstep⟩ := Interp.bind_eq_ok hstep
      cases hstep
      exact sheds_removeInstr h₁ hi hop hbranch hremove
    · obtain ⟨f₂, hreplace, hstep⟩ := Interp.bind_eq_ok hstep
      obtain ⟨f₃, hremove, hstep⟩ := Interp.bind_eq_ok hstep
      cases hstep
      obtain ⟨hswaps, -⟩ := h₁.tidy.cited.swaps hreplace
      rw [← (hswaps.instr i).op_eq] at hop hbranch
      exact sheds_removeInstr (h₁.replaceUses (resultOf_ok hr) hreplace) hi hop hbranch hremove

theorem tolled_run {n : Nat} (h : Tolled o f b l cs) (hrun : run f = .ok (f', n)) :
    ∃ l', Tolled o f' b l' cs := by
  refine tolled_order Prod.fst (fun s' hs' => ?_) h.order_eq hrun
  unfold foldBlock at hs'
  rw [h.chain.blockInstrs_eq] at hs'
  exact tolled_foldlM Prod.fst tolled_foldInstr h.chain.nodup (s := (f, 0)) h
    (List.Subset.refl l) hs'

end Fold

namespace Simplify

theorem tolled_replacement {v : ValueId} (h : Tolled o f b l cs)
    (hv : replacement? f i = .ok (some (f', v))) : Tolled o f' b l cs := by
  unfold replacement? at hv
  dsimp only at hv
  split at hv
  case h_2 => cases hv
  case h_1 r lhs rhs hr _ _ =>
  split at hv
  case isFalse => cases hv
  case isTrue =>
    split at hv
    case h_1 =>
      cases hadd : f.addScalar (f.ty r) 0 with
      | error e =>
        rw [hadd] at hv
        cases hv
      | ok p =>
        rw [hadd] at hv
        cases hv
        exact (tolled_addScalar h (h.tidy.isInt r) hadd).1
    case h_2 =>
      split at hv <;> cases hv
      exact h
    case h_3 => cases hv

theorem tolled_bypass (s : Fragment × Nat) (i : InstrId) (s' : Fragment × Nat) (l : List InstrId)
    (h : Tolled o s.1 b l cs) (_ : i ∈ l) (hstep : bypass s i = .ok s') :
    Sheds o b cs l i s'.1 := by
  obtain ⟨new, hnew, hstep⟩ := Interp.bind_eq_ok hstep
  cases new with
  | none =>
    cases hstep
    exact sheds_none h
  | some new =>
    obtain ⟨f₁, v⟩ := new
    have h₁ := tolled_replacement h hnew
    obtain ⟨r, hr, hstep⟩ := Interp.bind_eq_ok hstep
    split at hstep
    · cases hstep
      exact sheds_none h₁
    · obtain ⟨f₂, hreplace, hstep⟩ := Interp.bind_eq_ok hstep
      cases hstep
      exact sheds_none (h₁.replaceUses (resultOf_ok hr) hreplace)

theorem tolled_run {n : Nat} (h : Tolled o f b l cs) (hrun : run f = .ok (f', n)) :
    ∃ l', Tolled o f' b l' cs := by
  have hall : f.allInstrs = l := by
    unfold allInstrs
    rw [h.order_eq, List.flatMap_singleton, h.chain.blockInstrs_eq]
  unfold run at hrun
  rw [hall] at hrun
  exact tolled_foldlM Prod.fst tolled_bypass h.chain.nodup (s := (f, 0)) h (List.Subset.refl l) hrun

end Simplify

/-! ### Dead code -/

namespace DeadCode

theorem tolled_sweepInstr (s : Fragment × Nat) (i : InstrId) (s' : Fragment × Nat)
    (l : List InstrId) (h : Tolled o s.1 b l cs) (hi : i ∈ l) (hstep : sweepInstr s i = .ok s') :
    Sheds o b cs l i s'.1 := by
  unfold sweepInstr at hstep
  split at hstep
  case isTrue hdead =>
    obtain ⟨f₁, hremove, hstep⟩ := Interp.bind_eq_ok hstep
    cases hstep
    obtain ⟨hsilent, -⟩ := isDead_iff.mp hdead
    refine sheds_removeInstr h hi ?_ (isBranch_of_silent hsilent) hremove
    intro hop
    rw [hop] at hsilent
    cases hsilent
  case isFalse =>
    cases hstep
    exact sheds_none h

theorem tolled_run {n : Nat} (h : Tolled o f b l cs) (hrun : run f = .ok (f', n)) :
    ∃ l', Tolled o f' b l' cs := by
  refine tolled_order Prod.fst (fun s' hs' => ?_) h.order_eq hrun
  unfold sweepBlock at hs'
  rw [h.chain.blockInstrsBackward_eq] at hs'
  exact tolled_foldlM Prod.fst tolled_sweepInstr (List.nodup_reverse.mpr h.chain.nodup)
    (s := (f, 0)) h
    (List.reverse_subset.mpr (List.Subset.refl l)) hs'

end DeadCode

end Recompiler.Pass
