import Recompiler.Proofs.Allocation.Packing

/-! Bins whose temporaries are over are freed before each instruction. -/
namespace Recompiler.Pass.Allocation

open IR IR.Fragment Interp Machine Meaning

variable {f : Fragment} {b : BlockId} {regs : Array Register} {s₀ s : State} {pre : List InstrId}
  {pos : Int} {D : List InstrId} {bin : Nat}

theorem dropUses_suffix (pos : Int) (us : List Int) :
    ∃ dropped, us = dropped ++ dropUses pos us ∧ ∀ u ∈ dropped, u < pos := by
  induction us with
  | nil => exact ⟨[], rfl, by simp⟩
  | cons u us ih =>
    cases us with
    | nil => exact ⟨[], rfl, by simp⟩
    | cons v us =>
      rw [dropUses]
      split
      · next hu =>
        obtain ⟨dropped, hd, hlt⟩ := ih
        refine ⟨u :: dropped, by rw [List.cons_append, ← hd], fun w hw => ?_⟩
        rcases List.mem_cons.mp hw with rfl | hw
        · exact hu
        · exact hlt w hw
      · exact ⟨[], rfl, by simp⟩

theorem dropUses_ne_nil {us : List Int} (h : us ≠ []) : dropUses pos us ≠ [] := by
  induction us with
  | nil => exact absurd rfl h
  | cons u us ih =>
    cases us with
    | nil => simp [dropUses]
    | cons v us =>
      rw [dropUses]
      split
      · exact ih (by simp)
      · simp

/-- Only a last use before the position is left. -/
theorem dropUses_head_lt {us rest : List Int} {u : Int} (h : dropUses pos us = u :: rest)
    (hu : u < pos) : rest = [] := by
  induction us with
  | nil => cases h
  | cons v us ih =>
    cases us with
    | nil =>
      cases h
      rfl
    | cons w us =>
      rw [dropUses] at h
      split at h
      · exact ih h
      · next hv =>
        cases h
        exact absurd hu hv

/-- The temporary `t` with the uses before the position forgotten. -/
def forget (pos : Int) (t : Nat) (s : State) : State :=
  modifyTemp s t fun tmp => { tmp with uses := dropUses pos (temp s t).uses }

theorem temp_forget (pos : Int) (s : State) (t x : Nat) :
    temp (forget pos t s) x = { temp s x with
      uses := if x = t then dropUses pos (temp s x).uses else (temp s x).uses } := by
  rw [forget, temp_modifyTemp]
  by_cases e : x = t
  · subst e
    by_cases hx : x < s.bins.temps.size
    · simp [hx]
    · have : temp s x = default := by
        rw [temp, Array.getD_eq_getD_getElem?, Array.getElem?_eq_none (by omega)]
        rfl
      rw [if_neg fun h => hx h.2, if_pos rfl, this]
      rfl
  · simp [e, Ne.symm e]

/-- Forgetting uses before the position. -/
theorem Packed.forget (h : Packed f b regs s₀ pre pos pos none D s) (t : Nat) :
    Packed f b regs s₀ pre pos pos none D (forget pos t s) := by
  have htemp := temp_forget pos s t
  have hsize : (Allocation.forget pos t s).bins.temps.size = s.bins.temps.size :=
    size_temps_modifyTemp ..
  have hvalue : ∀ x, (temp (Allocation.forget pos t s) x).value = (temp s x).value :=
    fun x => by rw [htemp]
  have hslot : ∀ x, (temp (Allocation.forget pos t s) x).slot = (temp s x).slot :=
    fun x => by rw [htemp]
  refine ⟨hsize.trans h.size_eq, h.packed_size, h.positions_eq, h.tempOf_eq, ?_, ?_, ?_, ?_, ?_, ?_,
    ?_, ?_, h.size_ge, ?_⟩
  · intro k x hk
    rw [hvalue]
    exact h.held k x hk
  · intro x u hl hu
    rw [hvalue] at hu
    exact h.located x u hl hu
  · intro x l hl
    exact h.slot x l ((hslot x).symm.trans hl)
  · intro x x' l l' hne hl hl'
    exact h.disjoint x x' l l' hne ((hslot x).symm.trans hl) ((hslot x').symm.trans hl')
  · intro x
    obtain ⟨dropped, hd, hlt⟩ := h.uses x
    rw [htemp]
    dsimp only
    split
    · obtain ⟨dropped', hd', hlt'⟩ := dropUses_suffix pos (temp s x).uses
      refine ⟨dropped ++ dropped', by rw [List.append_assoc, ← hd', hd], fun u hu => ?_⟩
      exact (List.mem_append.mp hu).elim (hlt u) (hlt' u)
    · exact ⟨dropped, hd, hlt⟩
  · intro x hx
    rw [htemp]
    dsimp only
    split
    · exact dropUses_ne_nil (h.nonempty x (hsize ▸ hx))
    · exact h.nonempty x (hsize ▸ hx)
  · intro x hx hhome huse
    rw [hslot, hvalue]
    exact h.kept x (hsize ▸ hx) hhome huse
  · intro x hx hhome
    rw [hslot, hvalue]
    exact h.pending x (hsize ▸ hx) hhome
  · have : spilled (Allocation.forget pos t s) = spilled s := by
      rw [spilled, spilled, hsize]
      simp only [hslot]
    rw [this]
    exact h.size_le

theorem Holds.forget {loading : Option Nat} {cells : Cells} {rf : Array UInt64}
    {area base : Array UInt8} (h : Holds f b regs s loading cells rf area base) (t : Nat) :
    Holds f b regs (forget pos t s) loading cells rf area base := by
  have htemp := temp_forget pos s t
  refine ⟨h.regs_size, h.base_size, h.area_size, h.area_le, h.shared, h.fits,
    fun x u hl hu r hr => ?_, fun x l hl => ?_⟩
  · rw [htemp] at hu
    exact h.value x u hl hu r hr
  · rw [htemp] at hl
    exact h.slot x l hl

/-- What the bins below `n` hold is used from the position on. -/
def Live (pos : Int) (n : Nat) (s : State) : Prop :=
  ∀ bin < n, ∀ t, s.bins.packed.getD bin none = some t → ∀ u, (temp s t).uses.head? = some u →
    pos ≤ u

/-- Expiry finds a bin empty, empties it as its temporary is over, or only forgets uses. -/
theorem expireBin_cases (pos : Int) (s : State) (bin : Nat) :
    (s.bins.packed.getD bin none = none ∧ expireBin pos s bin = s) ∨
    ∃ t, s.bins.packed.getD bin none = some t ∧
      ((expireBin pos s bin = pack bin none (forget pos t s) ∧
          ∀ u ∈ dropUses pos (temp s t).uses, u < pos) ∨
        (expireBin pos s bin = forget pos t s ∧
          ∀ u, (dropUses pos (temp s t).uses).head? = some u → pos ≤ u)) := by
  cases hb : s.bins.packed.getD bin none with
  | none => exact .inl ⟨rfl, by rw [expireBin, hb]⟩
  | some t =>
    refine .inr ⟨t, rfl, ?_⟩
    simp only [expireBin, hb, forget]
    cases hdrop : dropUses pos (temp s t).uses with
    | nil => exact .inl ⟨rfl, by simp⟩
    | cons u rest =>
      dsimp only
      split
      · next hu =>
        obtain rfl := dropUses_head_lt hdrop hu
        exact .inl ⟨rfl, by simpa using hu⟩
      · next hu =>
        refine .inr ⟨rfl, fun w hw => ?_⟩
        obtain rfl : u = w := by simpa using hw
        omega

theorem lt_of_packed {t : Nat} (h : s.bins.packed.getD bin none = some t) :
    bin < s.bins.packed.size := by
  by_contra hle
  rw [Array.getD_eq_getD_getElem?, Array.getElem?_eq_none (by omega)] at h
  cases h

/-- One more bin holds nothing that is over, if its temporary is in no other bin. -/
theorem Live.expireBin (h : Live pos bin s)
    (hunique : ∀ k t, s.bins.packed.getD k none = some t → s.bins.packed.getD bin none = some t →
      k = bin) : Live pos (bin + 1) (expireBin pos s bin) := by
  intro k hk x hx u hu
  rcases expireBin_cases pos s bin with ⟨hb, heq⟩ | ⟨t, hb, hcase⟩
  · rw [heq] at hx hu
    refine h k ?_ x hx u hu
    have hne : k ≠ bin := by
      rintro rfl
      rw [hb] at hx
      cases hx
    omega
  · -- The temporary of a bin below is another one, so its uses stay.
    have hbelow : ∀ k < bin, ∀ x, s.bins.packed.getD k none = some x →
        ∀ u, (temp (forget pos t s) x).uses.head? = some u → pos ≤ u := by
      intro k hk x hx u hu
      have hne : x ≠ t := by
        rintro rfl
        have := hunique k x hx hb
        omega
      rw [temp_forget] at hu
      simp only [hne, if_false] at hu
      exact h k hk x hx u hu
    rcases hcase with ⟨heq, -⟩ | ⟨heq, hhead⟩
    · rw [heq] at hx hu
      obtain ⟨temps, hpack, -, -⟩ := pack_none_eq (forget pos t s) bin
      rw [hpack] at hx
      dsimp only at hx
      rw [getD_setIfInBounds] at hx
      have hne : k ≠ bin := by
        rintro rfl
        rw [if_pos ⟨rfl, lt_of_packed hb⟩] at hx
        cases hx
      rw [if_neg fun e => hne e.1.symm] at hx
      rw [temp_pack_none] at hu
      refine hbelow k (by omega) x hx u ?_
      split at hu <;> exact hu
    · rw [heq] at hx hu
      by_cases e : k = bin
      · subst e
        obtain rfl : t = x := Option.some.inj (hb.symm.trans hx)
        rw [temp_forget] at hu
        exact hhead u (by simpa using hu)
      · exact hbelow k (by omega) x hx u hu

/-- What expiry of a bin keeps. -/
structure Expired (f : Fragment) (b : BlockId) (regs : Array Register) (s₀ : State)
    (pre : List InstrId) (pos : Int) (D : List InstrId) (n : Nat) (s s' : State) : Prop where
  packed : Packed f b regs s₀ pre pos pos none D s'
  fragment_eq : s'.fragment = s.fragment
  tempOf_eq : s'.tempOf = s.tempOf
  value_of : ∀ t u, (temp s' t).value = some u → (temp s t).value = some u
  live : Live pos n s'
  holds : ∀ cells rf area base, Holds f b regs s none cells rf area base →
    Holds f b regs s' none cells rf area base

theorem expireBin_spec (hregs : regs.size ≤ 256) (h : Packed f b regs s₀ pre pos pos none D s)
    (hlive : Live pos bin s) :
    Expired f b regs s₀ pre pos D (bin + 1) s (expireBin pos s bin) := by
  have hlive' := hlive.expireBin fun k t hk hb => h.bin_unique hregs hk hb
  rcases expireBin_cases pos s bin with ⟨-, heq⟩ | ⟨t, hb, ⟨heq, hover⟩ | ⟨heq, -⟩⟩
  · rw [heq] at hlive' ⊢
    exact ⟨h, rfl, rfl, fun _ _ hu => hu, hlive', fun _ _ _ _ h => h⟩
  · rw [heq] at hlive' ⊢
    have hforget := h.forget t
    obtain ⟨temps, hs, -, -⟩ := pack_none_eq (forget pos t s) bin
    have hall : ∀ u ∈ (temp s₀ t).uses, u < pos := by
      obtain ⟨dropped, hd, hlt⟩ := hforget.uses t
      rw [temp_forget, if_pos rfl] at hd
      intro u hu
      rw [hd] at hu
      exact (List.mem_append.mp hu).elim (hlt u) (hover u)
    refine ⟨hforget.evict hregs fun x hx => .inr ?_, by rw [hs]; rfl, by rw [hs]; rfl,
      fun x u hu => ?_, hlive', fun cells rf area base hh => (hh.forget t).evict bin⟩
    · obtain rfl : t = x := Option.some.inj (hb.symm.trans hx)
      exact hall
    · rw [temp_pack_none] at hu
      split at hu
      · cases hu
      · rw [temp_forget] at hu
        exact hu
  · rw [heq] at hlive' ⊢
    refine ⟨h.forget t, rfl, rfl, fun x w hw => ?_, hlive', fun _ _ _ _ hh => hh.forget t⟩
    rw [temp_forget] at hw
    exact hw

/-- Expiry before the instruction at a position. -/
theorem expire_spec (hregs : regs.size ≤ 256) (h : Packed f b regs s₀ pre pos pos none D s) :
    Expired f b regs s₀ pre pos D regs.size s (expire pos s) := by
  have hstep : ∀ n, Expired f b regs s₀ pre pos D n s ((List.range n).foldl (expireBin pos) s) := by
    intro n
    induction n with
    | zero =>
      exact ⟨h, rfl, rfl, fun _ _ hu => hu, fun k hk =>
        absurd hk (Nat.not_lt_zero k), fun _ _ _ _ hh => hh⟩
    | succ n ih =>
      rw [List.range_succ, List.foldl_append, List.foldl_cons, List.foldl_nil]
      have hlast := expireBin_spec hregs ih.packed ih.live
      exact ⟨hlast.packed, hlast.fragment_eq.trans ih.fragment_eq,
        hlast.tempOf_eq.trans ih.tempOf_eq,
        fun t u hu => ih.value_of t u (hlast.value_of t u hu), hlast.live,
        fun cells rf area base hh => hlast.holds _ _ _ _ (ih.holds _ _ _ _ hh)⟩
  rw [expire, h.packed_size]
  exact hstep regs.size

end Recompiler.Pass.Allocation
