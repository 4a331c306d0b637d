import Recompiler.Proofs.IR.Typing

/-!
Passes that go over the instructions once and replace results. The fragment at each stage is a
justified rewriting of the one at the start; a step offers a value for the result of one instruction
and puts it in place.
-/
namespace Recompiler.Pass

open IR Fragment Interp Meaning

variable {f f' f₁ : Fragment} {ρ : ValueId → ValueId} {gone done : List InstrId} {i : InstrId}
  {r v w : ValueId}

/-- The value `w` of `f₁`, which may have a constant more than `f'`, can be put for the result `r`
of `i`. -/
structure Offers (f f' : Fragment) (ρ : ValueId → ValueId) (gone : List InstrId) (i : InstrId)
    (r : ValueId) (f₁ : Fragment) (w : ValueId) : Prop where
  rewrites : Rewrites f f₁ ρ gone
  origin_eq : ∀ v : ValueId, v.index < f'.values.size →
    (f₁.value v).origin = (f'.value v).origin
  stands : Stands f f₁ gone i r w
  ne : w ≠ r
  justifies : ∀ {σ : Type} (g : Guest σ) (o : Offsets), Justifies g o (Fits f) f f₁ ρ i r w

theorem offers_constant (h : Rewrites f f' ρ gone) (hf : WellFormed f) (hi : i ∈ f.allInstrs)
    (hr : (f.instr i).result = some r) {c : Constant} {x : UInt64} (hty : c.ty = f.ty r)
    (hbits : c.bits? = some x)
    (hx : ∀ {σ : Type} (g : Guest σ) (o : Offsets) code blocks s s' m,
      Fits f (⟨⟨i :: code, blocks⟩, s, m⟩ : Config Cells σ) →
        Agrees f f' ρ ⟨i :: code, blocks⟩ s s' → Computes g o f i r s m x) :
    Offers f f' ρ gone i r (f'.addConstant c).1 (f'.addConstant c).2 := by
  have hold : ∀ v : ValueId, v.index < f'.values.size →
      (f'.addConstant c).1.value v = f'.value v := fun v hv => value_addValue_lt _ hv
  have hnew : (f'.addConstant c).1.value ⟨f'.values.size⟩ = ⟨c.ty, .constant c, none, []⟩ :=
    value_addValue_new _
  refine ⟨h.addConstant c, fun v hv => by rw [hold v hv], ?_, ?_, fun g o => ?_⟩
  · refine .constant (congrArg Value.origin hnew) (by rw [hbits]; rfl) ?_
      ((congrArg Value.ty hnew).trans hty)
    simp [Fragment.addConstant, addValue]
  · intro e
    have hlt := (hf.result i hi r hr).1
    have hle := h.values_le
    rw [← e] at hlt
    exact absurd (Nat.lt_of_lt_of_le hlt hle) (Nat.lt_irrefl _)
  · intro code blocks s s' m hfits ha
    have hb : bits (f'.addConstant c).1 cells s' (f'.addConstant c).2 = x := by
      change bits (f'.addConstant c).1 cells s' ⟨f'.values.size⟩ = x
      rw [bits, hnew]
      simp [hbits]
    rw [hb]
    refine hx g o code blocks s s' m hfits fun k hk u hu hdom => ?_
    rw [← ha k hk u hu hdom, bits, bits, hold _ (h.stands_ty hf hk hu (h.map_result k hk u hu)).1]

theorem offers_arg (h : Rewrites f f' ρ gone) (hf : WellFormed f) (ho : Ordered f)
    (hi : i ∈ f.allInstrs) (hr : (f.instr i).result = some r) {n : Slot}
    (hv : (f.instr i).arg n = some v) (hty : f.ty v = f.ty r)
    (hscalar : (f.ty r).isInt || (f.ty r).isFloat)
    (hx : ∀ {σ : Type} (g : Guest σ) (o : Offsets) code blocks s s' m,
      Fits f (⟨⟨i :: code, blocks⟩, s, m⟩ : Config Cells σ) →
        Agrees f f' ρ ⟨i :: code, blocks⟩ s s' →
          Computes g o f i r s m (argBits f cells s (f.instr i) n)) :
    Offers f f' ρ gone i r f' (ρ v) := by
  obtain ⟨hstands, hne⟩ := h.stands_arg hf ho hi hr hv hty hscalar
  refine ⟨h, fun _ _ => rfl, hstands, hne, fun g o code blocks s s' m hfits ha => ?_⟩
  have hb : argBits f cells s (f.instr i) n = bits f' cells s' (ρ v) := by
    rw [h.arg_bits hf ho hi ha hv, argBits, hv]
  rw [← hb]
  exact hx g o code blocks s s' m hfits ha

/-- The fragment of a pass that has visited the instructions of `done`: a justified rewriting in
which no other results are replaced. -/
def Stage (f : Fragment) (done : List InstrId) (f' : Fragment) : Prop :=
  ∃ ρ gone, Rewrites f f' ρ gone ∧
    (∀ {σ : Type} (g : Guest σ) (o : Offsets), Justified g o (Fits f) f f' ρ) ∧
    ∀ i ∈ f.allInstrs, ∀ v, (f.instr i).result = some v → i ∉ done → ρ v = v

theorem stage_start (hf : WellFormed f) (hu : f.UseLists) : Stage f [] f :=
  ⟨id, [], rewrites_self hf hu, fun _ _ => justified_id, fun _ _ _ _ _ => rfl⟩

theorem Stage.mono {done' : List InstrId} (h : Stage f done f') (hsub : done ⊆ done') :
    Stage f done' f' := by
  obtain ⟨ρ, gone, hrw, hJ, hfree⟩ := h
  exact ⟨ρ, gone, hrw, hJ, fun i hi v hv hd => hfree i hi v hv fun hm => hd (hsub hm)⟩

/-- At the end of a pass the meaning is that of the start. -/
theorem Stage.sameMeaning (h : Stage f done f') (hf : WellFormed f) (ho : Ordered f)
    (ht : Typed f) {σ : Type} (g : Guest σ) (o : Offsets) : SameMeaning g o f f' := by
  obtain ⟨ρ, gone, hrw, hJ, -⟩ := h
  exact hrw.sameMeaning hf ho (ht.targets hf) fits_invariant (hJ g o)

/-- A constant that is made and not put anywhere changes nothing. -/
theorem Offers.unplaced (hoffer : Offers f f' ρ gone i r f₁ w) (hf : WellFormed f)
    (h : Rewrites f f' ρ gone)
    (hJ : ∀ {σ : Type} (g : Guest σ) (o : Offsets), Justified g o (Fits f) f f' ρ)
    (hfree : ∀ i ∈ f.allInstrs, ∀ v, (f.instr i).result = some v → i ∉ done → ρ v = v) :
    Stage f done f₁ :=
  ⟨ρ, gone, hoffer.rewrites, fun g o => (hJ g o).congr fun k hk v hv =>
    hoffer.origin_eq _ (h.stands_ty hf hk hv (h.map_result k hk v hv)).1, hfree⟩

section
variable (hf : WellFormed f) (ho : Ordered f) (hi : i ∈ f.allInstrs)
  (hr : (f.instr i).result = some r)
include hf ho hi hr

/-- Putting the offered value for the result makes the next stage, with the instruction or
without. -/
theorem Offers.place (h : Rewrites f f' ρ gone)
    (hJ : ∀ {σ : Type} (g : Guest σ) (o : Offsets), Justified g o (Fits f) f f' ρ)
    (hfree : ∀ i ∈ f.allInstrs, ∀ v, (f.instr i).result = some v → i ∉ done → ρ v = v)
    (hd : i ∉ done) (hoffer : Offers f f' ρ gone i r f₁ w) :
    ∃ f₂, f₁.replaceUses r w = .ok f₂ ∧ Stage f (i :: done) f₂ ∧
      ∃ f₃, f₂.removeInstr i = .ok f₃ ∧ Stage f (i :: done) f₃ := by
  have hρ : ρ r = r := hfree i hi r hr hd
  have hJ₁ : ∀ {σ : Type} (g : Guest σ) (o : Offsets), Justified g o (Fits f) f f₁
      fun v => subst r w (ρ v) := by
    intro σ g o
    have hsame : Justified g o (Fits f) f f₁ ρ := (hJ g o).congr fun k hk v hv =>
      hoffer.origin_eq _ (h.stands_ty hf hk hv (h.map_result k hk v hv)).1
    exact hsame.subst hf hoffer.rewrites hi hr hρ hoffer.ne (hoffer.justifies g o)
  have hfree' : ∀ j ∈ f.allInstrs, ∀ v, (f.instr j).result = some v → j ∉ i :: done →
      subst r w (ρ v) = v := by
    intro j hj v hv hjd
    rw [List.mem_cons, not_or] at hjd
    have hvr : v ≠ r := by
      rintro rfl
      exact hjd.1 (hf.result_inj hj hi hv hr)
    rw [hfree j hj v hv hjd.2, subst, if_neg hvr]
  obtain ⟨f₂, hreplace, hrep, hrw₂⟩ :=
    hoffer.rewrites.replace hf ho hi hr hρ hoffer.stands hoffer.ne
  have hJ₂ : ∀ {σ : Type} (g : Guest σ) (o : Offsets), Justified g o (Fits f) f f₂
      fun v => subst r w (ρ v) := fun g o => (hJ₁ g o).congr fun _ _ _ _ => hrep.values.origin_eq _
  have hmoved : ∀ v, subst r w v ≠ r := by
    intro v
    unfold subst
    split
    · exact hoffer.ne
    · assumption
  obtain ⟨f₃, hremove, ⟨_, _, _, hrem⟩, hrw₃⟩ :=
    hrw₂.remove hf hi (hoffer.rewrites.not_gone hr hρ) hr
    (hmoved _) (fun _ _ _ _ => hmoved _) hrep.unused
  exact ⟨f₂, hreplace, ⟨_, _, hrw₂, hJ₂, hfree'⟩, f₃, hremove,
    ⟨_, _, hrw₃, fun g o => (hJ₂ g o).congr fun _ _ _ _ => hrem.values.origin_eq _, hfree'⟩⟩

end

/-- Visiting instructions that were not visited before. -/
theorem Stage.foldlM {step : Fragment × Nat → InstrId → Except Fault (Fragment × Nat)}
    (hstep : ∀ done s i, Stage f done s.1 → i ∈ f.allInstrs → i ∉ done →
      ∃ s', step s i = .ok s' ∧ Stage f (i :: done) s'.1)
    (l : List InstrId) (hl : l ⊆ f.allInstrs) (hnodup : l.Nodup) {s : Fragment × Nat}
    (h : Stage f done s.1) (hd : ∀ i ∈ l, i ∉ done) :
    ∃ s', l.foldlM step s = .ok s' ∧ Stage f (l ++ done) s'.1 := by
  induction l generalizing done s with
  | nil => exact ⟨s, rfl, h⟩
  | cons i l ih =>
    rw [List.nodup_cons] at hnodup
    obtain ⟨s₁, hs₁, h₁⟩ := hstep done s i h (hl (by simp)) (hd i (by simp))
    obtain ⟨s', hs', h'⟩ := ih (fun j hj => hl (List.mem_cons_of_mem _ hj)) hnodup.2 h₁ (by
      intro j hj hm
      rcases List.mem_cons.mp hm with rfl | hm
      · exact hnodup.1 hj
      · exact hd j (List.mem_cons_of_mem _ hj) hm)
    refine ⟨s', ?_, h'.mono (by simp)⟩
    rw [List.foldlM_cons, hs₁]
    exact hs'

end Recompiler.Pass
