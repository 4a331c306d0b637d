import Recompiler.Proofs.Allocation.Insertion

/-! What the operations on bins keep of the invariant. -/
namespace Recompiler.Pass.Allocation

open IR IR.Fragment Interp Machine Meaning

variable {f g g' : Fragment} {b : BlockId} {regs : Array Register} {s₀ s : State}
  {pre pre' : List InstrId} {pos pos' cut cut' : Int} {loading : Option Nat}
  {D D' R : List InstrId} {t bin : Nat} {v : ValueId}

/-! ### Frames -/

theorem Holder.keeps {u : ValueId} (h : Holder f b regs D g t u bin) (hk : Keeps D g g')
    (hD : D ⊆ D') : Holder f b regs D' g' t u bin := by
  obtain ⟨j, hj, hu⟩ := h.defined
  have hm := mentions_result hj hu
  exact ⟨h.lt, by rw [hk.reg_eq u hm]; exact h.reg_eq, by rw [hk.ty_eq u hm]; exact h.ty_eq,
    j, hD hj, by rw [hk.result_eq j hj]; exact hu⟩

theorem InArea.widens {l : LocalId} (h : InArea f b g t l) (hw : Widens g g') :
    InArea f b g' t l := by
  have hslot := hw.localSlot_eq l h.lt
  exact ⟨Nat.lt_of_lt_of_le h.lt hw.locals_le, by rw [hslot]; exact h.ty_eq,
    by rw [hslot]; exact h.offset_le, by rw [hslot]; exact Int.le_trans h.le_size hw.localsSize_le⟩

/-- The fragment may change in what final code does not refer to. -/
theorem Packed.widen (h : Packed f b regs s₀ pre pos cut loading D s) (hk : Keeps D s.fragment g')
    (hw : Widens s.fragment g') (hsize : g'.localsSize = s.fragment.localsSize) (hD : D ⊆ D') :
    Packed f b regs s₀ pre pos cut loading D' { s with fragment := g' } where
  size_eq := h.size_eq
  packed_size := h.packed_size
  positions_eq := h.positions_eq
  tempOf_eq := h.tempOf_eq
  held bin t hbin := by
    obtain ⟨hl, u, hu, hh⟩ := h.held bin t hbin
    exact ⟨hl, u, hu, hh.keeps hk hD⟩
  located := h.located
  slot t l hl := (h.slot t l hl).widens hw
  disjoint t t' l l' hne hl hl' := by
    have := h.disjoint t t' l l' hne hl hl'
    dsimp only
    rwa [hw.localSlot_eq l (h.slot t l hl).lt, hw.localSlot_eq l' (h.slot t' l' hl').lt]
  uses := h.uses
  nonempty := h.nonempty
  kept := h.kept
  pending := h.pending
  size_ge := by
    dsimp only
    rw [hsize]
    exact h.size_ge
  size_le := by
    dsimp only
    rw [hsize]
    exact h.size_le

theorem Packed.mono (h : Packed f b regs s₀ pre pos cut loading D s) (hpos : pos ≤ pos')
    (hcut : cut ≤ cut') : Packed f b regs s₀ pre pos' cut' loading D s where
  size_eq := h.size_eq
  packed_size := h.packed_size
  positions_eq := h.positions_eq
  tempOf_eq := h.tempOf_eq
  held := h.held
  located := h.located
  slot := h.slot
  disjoint := h.disjoint
  uses t := by
    obtain ⟨dropped, hd, hlt⟩ := h.uses t
    exact ⟨dropped, hd, fun u hu => Int.lt_of_lt_of_le (hlt u hu) hpos⟩
  nonempty := h.nonempty
  kept t ht hhome := fun ⟨u, hu, hle⟩ => h.kept t ht hhome ⟨u, hu, Int.le_trans hcut hle⟩
  pending := h.pending
  size_ge := h.size_ge
  size_le := h.size_le

theorem Holds.widen {cells : Cells} {rf : Array UInt64} {area base : Array UInt8}
    (h : Holds f b regs s loading cells rf area base)
    (hp : Packed f b regs s₀ pre pos cut loading D s) (hk : Keeps D s.fragment g')
    (hw : Widens s.fragment g') (harea : g'.localsSize.toNat ≤ area.size) :
    Holds f b regs { s with fragment := g' } loading cells rf area base where
  regs_size := h.regs_size
  base_size := h.base_size
  area_size := harea
  area_le := h.area_le
  shared := h.shared
  fits := h.fits
  value t u hl hu r hr := by
    obtain ⟨bin, hbin⟩ := hp.located t u hl hu
    obtain ⟨-, u', hu', hh⟩ := hp.held bin t hbin
    obtain ⟨j, hj, hres⟩ := hh.defined
    have e : u' = u := Option.some.inj (hu'.symm.trans hu)
    rw [e] at hres
    dsimp only at hr
    rw [hk.reg_eq u (mentions_result hj hres)] at hr
    exact h.value t u hl hu r hr
  slot t l hl := by
    have := h.slot t l hl
    dsimp only
    rwa [hw.localSlot_eq l (hp.slot t l hl).lt]

/-! ### Emptying a bin -/

theorem pack_none_eq (s : State) (bin : Nat) : ∃ temps : Array Temp,
    pack bin none s = { s with bins := ⟨s.bins.packed.setIfInBounds bin none, temps⟩ } ∧
      temps.size = s.bins.temps.size ∧ ∀ x, temps.getD x default =
        if s.bins.packed.getD bin none = some x then { temp s x with value := none }
        else temp s x := by
  rw [pack]
  cases hb : s.bins.packed.getD bin none with
  | none => exact ⟨s.bins.temps, rfl, rfl, fun x => rfl⟩
  | some t =>
    refine ⟨_, rfl, size_temps_modifyTemp .., fun x => ?_⟩
    refine (temp_modifyTemp s t x _).trans ?_
    by_cases e : t = x
    · subst e
      rw [if_pos rfl]
      split
      · rfl
      · next h =>
        have : temp s t = default := by
          rw [temp, Array.getD_eq_getD_getElem?, Array.getElem?_eq_none (by omega)]
          rfl
        rw [this]
        rfl
    · rw [if_neg fun h => e h.1, if_neg fun h => e (Option.some.inj h)]

theorem temp_pack_none (s : State) (bin x : Nat) :
    temp (pack bin none s) x =
      if s.bins.packed.getD bin none = some x then { temp s x with value := none }
      else temp s x := by
  obtain ⟨temps, hs, -, htemp⟩ := pack_none_eq s bin
  rw [hs]
  exact htemp x

/-- A temporary is in one bin only: its value has one register. -/
theorem Packed.bin_unique (h : Packed f b regs s₀ pre pos cut loading D s)
    (hregs : regs.size ≤ 256) {bin' : Nat} (hb : s.bins.packed.getD bin none = some t)
    (hb' : s.bins.packed.getD bin' none = some t) : bin = bin' := by
  obtain ⟨-, u, hu, hh⟩ := h.held bin t hb
  obtain ⟨-, u', hu', hh'⟩ := h.held bin' t hb'
  obtain rfl : u = u' := Option.some.inj (hu.symm.trans hu')
  have e : bin.toUInt8 = bin'.toUInt8 := Option.some.inj (hh.reg_eq.symm.trans hh'.reg_eq)
  have hlt := hh.lt
  have hlt' := hh'.lt
  have : bin % 2 ^ 8 = bin' % 2 ^ 8 := congrArg UInt8.toNat e
  omega

/-- A bin may be emptied if its temporary has a slot or is not needed any more. -/
theorem Packed.evict (h : Packed f b regs s₀ pre pos cut loading D s) (hregs : regs.size ≤ 256)
    (hsafe : ∀ t, s.bins.packed.getD bin none = some t →
      (temp s t).slot.isSome ∨ ∀ u ∈ (temp s₀ t).uses, u < cut) :
    Packed f b regs s₀ pre pos cut loading D (pack bin none s) := by
  have htemp := temp_pack_none s bin
  obtain ⟨temps, hs, hsize, -⟩ := pack_none_eq s bin
  rw [hs] at htemp ⊢
  have hslot : ∀ x, (temp { s with bins := ⟨s.bins.packed.setIfInBounds bin none, temps⟩ } x).slot =
      (temp s x).slot := by
    intro x
    rw [htemp]
    split <;> rfl
  have huses : ∀ x, (temp { s with bins := ⟨s.bins.packed.setIfInBounds bin none, temps⟩ } x).uses =
      (temp s x).uses := by
    intro x
    rw [htemp]
    split <;> rfl
  have hvalue :
    ∀ x u, (temp { s with bins := ⟨s.bins.packed.setIfInBounds bin none, temps⟩ } x).value
      = some u → (temp s x).value = some u ∧ s.bins.packed.getD bin none ≠ some x := by
    intro x u hu
    rw [htemp] at hu
    split at hu
    · cases hu
    · next e => exact ⟨hu, e⟩
  refine ⟨hsize.trans h.size_eq, by simpa using h.packed_size, h.positions_eq, h.tempOf_eq, ?_, ?_,
    ?_, ?_, ?_, ?_, ?_, ?_, h.size_ge, ?_⟩
  · intro k x hk
    dsimp only at hk
    rw [getD_setIfInBounds] at hk
    split at hk
    · cases hk
    · next e =>
      obtain ⟨hl, u, hu, hh⟩ := h.held k x hk
      refine ⟨hl, u, ?_, hh⟩
      rw [htemp, if_neg]
      · exact hu
      · intro hx
        have hk' := h.bin_unique hregs hx hk
        have hlt := hh.lt
        rw [← h.packed_size] at hlt
        exact e ⟨hk', hlt⟩
  · intro x u hl hu
    obtain ⟨hu', hne⟩ := hvalue x u hu
    obtain ⟨k, hk⟩ := h.located x u hl hu'
    refine ⟨k, ?_⟩
    dsimp only
    rw [getD_setIfInBounds, if_neg]
    · exact hk
    · rintro ⟨rfl, -⟩
      exact hne hk
  · intro x l hl
    exact h.slot x l ((hslot x).symm.trans hl)
  · intro x x' l l' hne hl hl'
    exact h.disjoint x x' l l' hne ((hslot x).symm.trans hl) ((hslot x').symm.trans hl')
  · intro x
    rw [huses]
    exact h.uses x
  · intro x hx
    rw [huses]
    exact h.nonempty x (hsize ▸ hx)
  · intro x hx hhome huse
    rw [hslot]
    have hx' : x < s.bins.temps.size := hsize ▸ hx
    by_cases e : s.bins.packed.getD bin none = some x
    · refine .inr ((hsafe x e).elim id fun hno => ?_)
      obtain ⟨u, hu, hle⟩ := huse
      exact absurd (hno u hu) (Int.not_lt.mpr hle)
    · rw [htemp, if_neg e]
      exact h.kept x hx' hhome huse
  · intro x hx hhome
    have hx' : x < s.bins.temps.size := hsize ▸ hx
    obtain ⟨hs', hv⟩ := h.pending x hx' hhome
    refine ⟨by rw [hslot]; exact hs', fun hl => ?_⟩
    rw [htemp]
    split
    · rfl
    · exact hv hl
  · have : spilled { s with bins := ⟨s.bins.packed.setIfInBounds bin none, temps⟩ } =
      spilled s := by
      rw [spilled, spilled]
      dsimp only
      rw [hsize]
      simp only [hslot]
    rw [this]
    exact h.size_le

theorem Holds.evict {cells : Cells} {rf : Array UInt64} {area base : Array UInt8}
    (h : Holds f b regs s loading cells rf area base) (bin : Nat) :
    Holds f b regs (pack bin none s) loading cells rf area base := by
  have htemp := temp_pack_none s bin
  have hfrag : (pack bin none s).fragment = s.fragment := by
    obtain ⟨temps, hs, -⟩ := pack_none_eq s bin
    rw [hs]
  refine ⟨h.regs_size, h.base_size, by rw [hfrag]; exact h.area_size, h.area_le, h.shared, h.fits,
    fun t u hl hu r hr => ?_, fun t l hl => ?_⟩
  · rw [htemp] at hu
    rw [hfrag] at hr
    split at hu
    · cases hu
    · exact h.value t u hl hu r hr
  · rw [hfrag]
    refine h.slot t l ?_
    rw [← hl, htemp]
    split <;> rfl

/-! ### Filling a bin -/

/-- The temporary `t` is loaded into value `v`. -/
def setValue (t : Nat) (v : ValueId) (s : State) : State :=
  modifyTemp s t ({ · with value := some v })

theorem temp_setValue (ht : t < s.bins.temps.size) (v : ValueId) (x : Nat) :
    temp (setValue t v s) x = if x = t then { temp s t with value := some v } else temp s x := by
  rw [setValue, temp_modifyTemp]
  by_cases e : x = t
  · subst e
    simp [ht]
  · simp [e, Ne.symm e]

theorem Packed.setValue (h : Packed f b regs s₀ pre pos cut none D s) (ht : t < s.bins.temps.size)
    (hnone : (temp s t).value = none) (v : ValueId) :
    Packed f b regs s₀ pre pos cut (some t) D (setValue t v s) := by
  have htemp := temp_setValue ht v
  have hsize : (Allocation.setValue t v s).bins.temps.size = s.bins.temps.size :=
    size_temps_modifyTemp ..
  have hslot : ∀ x, (temp (Allocation.setValue t v s) x).slot = (temp s x).slot := by
    intro x
    rw [htemp]
    split
    · next e => rw [e]
    · rfl
  have huses : ∀ x, (temp (Allocation.setValue t v s) x).uses = (temp s x).uses := by
    intro x
    rw [htemp]
    split
    · next e => rw [e]
    · rfl
  refine ⟨hsize.trans h.size_eq, h.packed_size, h.positions_eq, h.tempOf_eq, ?_, ?_, ?_, ?_, ?_, ?_,
    ?_, ?_, h.size_ge, ?_⟩
  · intro k x hk
    obtain ⟨-, u, hu, hh⟩ := h.held k x hk
    have hne : x ≠ t := by
      rintro rfl
      rw [hnone] at hu
      cases hu
    exact ⟨by simpa using Ne.symm hne, u, by rw [htemp, if_neg hne]; exact hu, hh⟩
  · intro x u hl hu
    have hne : x ≠ t := by
      rintro rfl
      exact hl rfl
    rw [htemp, if_neg hne] at hu
    exact h.located x u (by simp) hu
  · intro x l hl
    exact h.slot x l ((hslot x).symm.trans hl)
  · intro x x' l l' hne hl hl'
    exact h.disjoint x x' l l' hne ((hslot x).symm.trans hl) ((hslot x').symm.trans hl')
  · intro x
    rw [huses]
    exact h.uses x
  · intro x hx
    rw [huses]
    exact h.nonempty x (hsize ▸ hx)
  · intro x hx hhome huse
    rw [hslot, htemp]
    split
    · exact .inl rfl
    · exact h.kept x (hsize ▸ hx) hhome huse
  · intro x hx hhome
    obtain ⟨hs', hv⟩ := h.pending x (hsize ▸ hx) hhome
    refine ⟨by rw [hslot]; exact hs', fun hl => ?_⟩
    rw [htemp, if_neg]
    · exact hv (by simp)
    · rintro rfl
      exact hl rfl
  · have : spilled (Allocation.setValue t v s) = spilled s := by
      rw [spilled, spilled, hsize]
      simp only [hslot]
    rw [this]
    exact h.size_le

theorem Holds.setValue {cells : Cells} {rf : Array UInt64} {area base : Array UInt8}
    (h : Holds f b regs s none cells rf area base) (ht : t < s.bins.temps.size) (v : ValueId) :
    Holds f b regs (setValue t v s) (some t) cells rf area base := by
  have htemp := temp_setValue ht v
  refine ⟨h.regs_size, h.base_size, h.area_size, h.area_le, h.shared, h.fits,
    fun x u hl hu r hr => ?_, fun x l hl => ?_⟩
  · have hne : x ≠ t := by
      rintro rfl
      exact hl rfl
    rw [htemp, if_neg hne] at hu
    exact h.value x u (by simp) hu r hr
  · refine h.slot x l ?_
    rw [← hl, htemp]
    split
    · next e => rw [e]
    · rfl

/-- The temporary `t` with value `v` goes into an empty bin. -/
def install (bin t : Nat) (v : ValueId) (s : State) : State :=
  { s with
    fragment := s.fragment.modifyValue v ({ · with reg := some bin.toUInt8 })
    bins := { s.bins with packed := s.bins.packed.setIfInBounds bin (some t) } }

theorem pack_some_eq (hv : (temp s t).value = some v)
    (hne : s.bins.packed.getD bin none ≠ some t) :
    pack bin (some t) s = install bin t v (pack bin none s) := by
  have hset : ∀ a b : Option Nat, (s.bins.packed.setIfInBounds bin a).setIfInBounds bin b =
      s.bins.packed.setIfInBounds bin b := fun a b => Array.setIfInBounds_setIfInBounds ..
  rw [pack, pack]
  cases hb : s.bins.packed.getD bin none with
  | none =>
    simp only [Option.bind_some, Option.bind_none, hv, install, hset]
  | some old =>
    have hne' : old ≠ t := by
      rintro rfl
      exact hne hb
    have hv' : (temp (modifyTemp s old ({ · with value := none })) t).value = some v := by
      rw [temp_modifyTemp, if_neg fun h => hne' h.1]
      exact hv
    simp only [Option.bind_some, Option.bind_none, hv', install]
    rw [modifyTemp]
    simp only [hset]

/-- Instruction `j` is about to define `v`, the value that temporary `t` is loaded into. -/
structure Defines (f : Fragment) (b : BlockId) (D : List InstrId) (g : Fragment) (j : InstrId)
    (t : Nat) (v : ValueId) : Prop where
  not_mem : j ∉ D
  result_eq : (g.instr j).result = some v
  value_lt : v.index < g.values.size
  origin_eq : (g.value v).origin = .result j
  ty_eq : (g.value v).ty = f.ty (home f b t)

theorem Packed.install {j : InstrId} (h : Packed f b regs s₀ pre pos cut (some t) D s)
    (hc : Coded f b regs D R s.fragment) (hlt : bin < regs.size)
    (hfree : s.bins.packed.getD bin none = none) (hv : (temp s t).value = some v)
    (hd : Defines f b D s.fragment j t v) (hpre : ∀ u ∈ results f pre, u ∈ results f pre')
    (hnew : ∀ x < s.bins.temps.size, home f b x ∈ results f pre' →
      x = t ∨ home f b x ∈ results f pre) (ht : home f b t ∈ results f pre') :
    Packed f b regs s₀ pre' pos cut none (D ++ [j]) (install bin t v s) := by
  have hk := keeps_setReg (hc.not_mentions hd.not_mem hd.origin_eq) (some bin.toUInt8)
  have hw := widens_setReg s.fragment v (some bin.toUInt8)
  have hD : D ⊆ D ++ [j] := List.subset_append_left D [j]
  have hbin : bin < s.bins.packed.size := by
    rw [h.packed_size]
    exact hlt
  have hval : (s.fragment.modifyValue v ({ · with reg := some bin.toUInt8 })).value v =
      { s.fragment.value v with reg := some bin.toUInt8 } := by
    rw [value_modifyValue, if_pos ⟨rfl, hd.value_lt⟩]
  have hpacked : ∀ k, (Allocation.install bin t v s).bins.packed.getD k none =
      if k = bin then some t else s.bins.packed.getD k none := by
    intro k
    rw [Allocation.install, getD_setIfInBounds]
    by_cases e : k = bin
    · simp [e, hbin]
    · simp [e, Ne.symm e]
  refine ⟨h.size_eq, ?_, h.positions_eq, h.tempOf_eq, ?_, ?_, ?_, ?_, h.uses, h.nonempty, ?_, ?_,
    h.size_ge, h.size_le⟩
  · exact (Array.size_setIfInBounds ..).trans h.packed_size
  · intro k x hk'
    rw [hpacked] at hk'
    refine ⟨by simp, ?_⟩
    by_cases e : k = bin
    · rw [if_pos e] at hk'
      cases hk'
      refine ⟨v, hv, e ▸ hlt, ?_, ?_, j, by simp, hd.result_eq⟩
      · rw [e, Allocation.install]
        dsimp only
        rw [hval]
      · rw [Allocation.install]
        dsimp only
        rw [hval]
        exact hd.ty_eq
    · rw [if_neg e] at hk'
      obtain ⟨-, u, hu, hh⟩ := h.held k x hk'
      exact ⟨u, hu, hh.keeps hk hD⟩
  · intro x u _ hu
    by_cases e : x = t
    · exact ⟨bin, by rw [hpacked, if_pos rfl, e]⟩
    · obtain ⟨k, hk'⟩ := h.located x u (by simpa using Ne.symm e) hu
      refine ⟨k, ?_⟩
      rw [hpacked, if_neg]
      · exact hk'
      · rintro rfl
        rw [hfree] at hk'
        cases hk'
  · intro x l hl
    exact (h.slot x l hl).widens hw
  · intro x x' l l' hne hl hl'
    exact h.disjoint x x' l l' hne hl hl'
  · intro x hx hhome huse
    rcases hnew x hx hhome with rfl | hhome
    · exact .inl (Option.isSome_of_eq_some hv)
    · exact h.kept x hx hhome huse
  · intro x hx hhome
    obtain ⟨hs', hv'⟩ := h.pending x hx fun hm => hhome (hpre _ hm)
    refine ⟨hs', fun _ => hv' ?_⟩
    rintro ⟨⟩
    exact hhome ht

theorem Holds.install {cells : Cells} {rf : Array UInt64} {area base : Array UInt8} {j : InstrId}
    (h : Holds f b regs s (some t) cells rf area base)
    (hp : Packed f b regs s₀ pre pos cut (some t) D s) (hc : Coded f b regs D R s.fragment)
    (hd : Defines f b D s.fragment j t v) (bin : Nat) :
    Holds f b regs (install bin t v s) (some t) cells rf area base := by
  have hk := keeps_setReg (hc.not_mentions hd.not_mem hd.origin_eq) (some bin.toUInt8)
  have hw := widens_setReg s.fragment v (some bin.toUInt8)
  have hwide := h.widen hp hk hw h.area_size
  exact ⟨hwide.regs_size, hwide.base_size, hwide.area_size, hwide.area_le, hwide.shared, hwide.fits,
    hwide.value, hwide.slot⟩

/-- The arguments of `j` are constants and results of `D`. -/
def Ready (D : List InstrId) (g : Fragment) (j : InstrId) : Prop :=
  ∀ n u, (g.instr j).arg n = some u →
    (u.index < g.values.size ∧ ∃ c, (g.value u).origin = .constant c ∧ (g.value u).ty = c.ty ∧
      c.ty ≠ .str) ∨ ∃ k ∈ D, (g.instr k).result = some u

theorem Coded.install {j : InstrId} (hc : Coded f b regs D (j :: R) s.fragment)
    (hd : Defines f b D s.fragment j t v) (hlt : bin < regs.size) (hregs : regs.size ≤ 256)
    (hty : IsScalar (f.ty (home f b t)))
    (harg : Ready D s.fragment j)
    (hltf : ∀ i ∈ f.blockInstrs b, i.index < f.instrs.size) :
    Coded f b regs (D ++ [j]) R (install bin t v s).fragment := by
  have hk := keeps_setReg (hc.not_mentions hd.not_mem hd.origin_eq) (some bin.toUInt8)
  have hw := widens_setReg s.fragment v (some bin.toUInt8)
  have hchain : (s.fragment.modifyValue v ({ · with reg := some bin.toUInt8 })).Chain b
      (D ++ j :: R) := hc.chain.congr hc.chain.block_lt rfl rfl hc.chain.lt
        fun _ _ => ⟨rfl, rfl, rfl, rfl⟩
  have hval : (s.fragment.modifyValue v ({ · with reg := some bin.toUInt8 })).value v =
      { s.fragment.value v with reg := some bin.toUInt8 } := by
    rw [value_modifyValue, if_pos ⟨rfl, hd.value_lt⟩]
  refine (hc.widen hk hw hchain hltf).push ⟨fun n u hu => ?_, fun u hu => ?_⟩
  · rcases harg n u hu with ⟨hult, c, hco, hcty, hstr⟩ | ⟨k, hkD, hku⟩
    · refine .inl ⟨Nat.lt_of_lt_of_le hult hw.values_le, c, ?_, ?_, hstr⟩
      · exact (hw.origin_eq u hult).trans hco
      · exact (hw.ty_eq u hult).trans hcty
    · obtain ⟨hreg, horigin⟩ := (hc.final k hkD).result u hku
      have hm := mentions_result hkD hku
      exact .inr ⟨hreg.keeps hk hw hm, k, hkD, (hk.origin_eq u hm).trans horigin⟩
  · have e : u = v := Option.some.inj (hu.symm.trans hd.result_eq)
    subst e
    refine ⟨⟨by simpa using hd.value_lt, ?_, bin.toUInt8, by rw [hval], ?_⟩, ?_⟩
    · rw [Fragment.ty, hval]
      dsimp only
      rw [hd.ty_eq]
      exact hty
    · have : bin.toUInt8.toNat = bin % 2 ^ 8 := rfl
      omega
    · rw [hval]
      exact hd.origin_eq

end Recompiler.Pass.Allocation
