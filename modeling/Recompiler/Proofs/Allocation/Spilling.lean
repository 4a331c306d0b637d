import Recompiler.Proofs.Allocation.Packing

/-! A temporary that gives way is stored to a slot of its own, before the instruction that needs its
register. -/
namespace Recompiler.Pass.Allocation

open IR IR.Fragment Interp Machine Meaning

variable {f g g' : Fragment} {b : BlockId} {regs : Array Register} {s₀ s : State}
  {pre : List InstrId} {pos cut : Int} {loading : Option Nat} {D R : List InstrId} {t bin : Nat}
  {j : InstrId}

/-- A straight-line fragment with enough registers, recorded. -/
structure Prepared (f : Fragment) (b : BlockId) (regs : Array Register) (s₀ : State) : Prop where
  straight : StraightLine f b
  enough : Enough regs f b
  recorded : Recorded f (f.blockInstrs b) s₀
  positions_eq : s₀.positions = number f [b]

namespace Prepared

variable (h : Prepared f b regs s₀)
include h

theorem mem_order : b ∈ f.order := by simp [h.straight.order_eq]

theorem chain : f.Chain b (f.blockInstrs b) := h.straight.wellFormed.chain b h.mem_order

theorem mem_allInstrs {i : InstrId} (hi : i ∈ f.blockInstrs b) : i ∈ f.allInstrs :=
  WellFormed.mem_allInstrs h.mem_order hi

theorem instr_lt : ∀ i ∈ f.blockInstrs b, i.index < f.instrs.size := h.chain.lt

theorem getElem?_results (ht : t < s₀.bins.temps.size) :
    (results f (f.blockInstrs b))[t]? = some (home f b t) := by
  rw [h.recorded.size_eq] at ht
  rw [home, List.getD_eq_getElem?_getD, List.getElem?_eq_getElem ht]
  rfl

theorem home_mem (ht : t < s₀.bins.temps.size) : home f b t ∈ results f (f.blockInstrs b) :=
  List.mem_of_getElem? (h.getElem?_results ht)

theorem scalar (ht : t < s₀.bins.temps.size) : IsScalar (f.ty (home f b t)) := by
  obtain ⟨i, hi, hv⟩ := mem_results.mp (h.home_mem ht)
  exact h.straight.scalar i hi _ hv

theorem tempOf_home (ht : t < s₀.bins.temps.size) : s₀.tempOf[home f b t]? = some t :=
  (h.recorded.tempOf_iff _ t).mpr (h.getElem?_results ht)

theorem home_eq {v : ValueId} (hv : s₀.tempOf[v]? = some t) : home f b t = v := by
  have ht := (h.recorded.tempOf_iff v t).mp hv
  rw [home, List.getD_eq_getElem?_getD, ht]
  rfl

theorem tempOf_lt {v : ValueId} (hv : s₀.tempOf[v]? = some t) : t < s₀.bins.temps.size := by
  rw [h.recorded.size_eq]
  exact results_getElem?_lt ((h.recorded.tempOf_iff v t).mp hv)

theorem home_inj {t' : Nat} (ht : t < s₀.bins.temps.size) (ht' : t' < s₀.bins.temps.size)
    (e : home f b t = home f b t') : t = t' := by
  have := h.tempOf_home ht
  rw [e, h.tempOf_home ht'] at this
  exact (Option.some.inj this).symm

end Prepared

/-! ### Room -/

theorem countP_range_update {p q : Nat → Bool} {t n : Nat} (ht : t < n) (hp : p t = false)
    (hp' : q t = true) (hother : ∀ x, x ≠ t → q x = p x) :
    (List.range n).countP q = (List.range n).countP p + 1 := by
  induction n with
  | zero => exact absurd ht (Nat.not_lt_zero t)
  | succ n ih =>
    rw [List.range_succ, List.countP_append, List.countP_append, List.countP_singleton,
      List.countP_singleton]
    by_cases e : t = n
    · subst e
      have hsame : (List.range t).countP q = (List.range t).countP p := by
        refine List.countP_congr fun x hx => ?_
        rw [hother x (Nat.ne_of_lt (List.mem_range.mp hx))]
      rw [hsame, hp, hp']
      simp
    · rw [ih (by omega), hother n (Ne.symm e)]
      omega

theorem value_lt_size {u : ValueId} (h : (temp s t).value = some u) : t < s.bins.temps.size := by
  rw [temp, Array.getD_eq_getD_getElem?] at h
  by_cases ht : t < s.bins.temps.size
  · exact ht
  · rw [Array.getElem?_eq_none (by omega)] at h
    cases h

/-- A temporary without a slot leaves room for one. -/
theorem spilled_lt (ht : t < s.bins.temps.size) (hslot : (temp s t).slot = none) :
    spilled s < s.bins.temps.size := by
  have hp : (fun x => (temp s x).slot.isSome) t = false := by simp [hslot]
  have := countP_range_update (p := fun x => (temp s x).slot.isSome)
    (q := fun x => (temp s x).slot.isSome || x == t) ht hp (by simp) fun x hx => by simp [hx]
  have hle := List.countP_le_length (p := fun x => (temp s x).slot.isSome || x == t)
    (l := List.range s.bins.temps.size)
  rw [List.length_range] at hle
  rw [spilled]
  omega

theorem slotOffset_bounds (g : Fragment) {ty : Ty} (h : IsScalar ty) :
    g.localsSize ≤ slotOffset g ty ∧ slotOffset g ty + ty.bytes ≤ g.localsSize + 16 := by
  obtain ⟨h₀, h₈⟩ := bytes_of_scalar h
  have hle := le_alignUp g.localsSize ty.bytes (by omega)
  have hlt := alignUp_lt g.localsSize ty.bytes (by omega)
  rw [slotOffset]
  omega

/-! ### A new slot -/

/-- The temporary `t` has the slot `l`. -/
def setSlot (t : Nat) (l : LocalId) (s : State) : State :=
  modifyTemp s t ({ · with slot := some l })

theorem temp_setSlot (ht : t < s.bins.temps.size) (l : LocalId) (x : Nat) :
    temp (setSlot t l s) x = if x = t then { temp s t with slot := some l } else temp s x := by
  rw [setSlot, temp_modifyTemp]
  by_cases e : x = t
  · subst e
    simp [ht]
  · simp [e, Ne.symm e]

theorem Packed.stored (h : Packed f b regs s₀ pre pos cut loading D s) (hp : Prepared f b regs s₀)
    {u : ValueId} {k : InstrId} (hs : StoredNew s.fragment g' b D R u k)
    (hk : Keeps D s.fragment g') (hu : (temp s t).value = some u)
    (hty : s.fragment.ty u = f.ty (home f b t)) (hslot : (temp s t).slot = none)
    (hhome : home f b t ∈ results f pre) :
    Packed f b regs s₀ pre pos cut loading (D ++ [k])
      (setSlot t ⟨s.fragment.locals.size⟩ { s with fragment := g' }) := by
  have ht : t < s.bins.temps.size := value_lt_size hu
  have hscalar : IsScalar (f.ty (home f b t)) := hp.scalar (h.size_eq ▸ ht)
  have hbytes := bytes_of_scalar hscalar
  have hw : Widens s.fragment g' := hs.widens (by rw [hty]; exact hbytes.1)
  have hoff := slotOffset_bounds s.fragment hscalar
  have htemp := temp_setSlot (s := { s with fragment := g' }) ht ⟨s.fragment.locals.size⟩
  have hsize : (setSlot t ⟨s.fragment.locals.size⟩ { s with fragment := g' }).bins.temps.size =
      s.bins.temps.size := size_temps_modifyTemp ..
  have hnew : g'.localSlot ⟨s.fragment.locals.size⟩ =
      { ty := f.ty (home f b t), offset := slotOffset s.fragment (f.ty (home f b t)) } := by
    rw [localSlot, hs.locals_eq, hty]
    exact getD_push_self _ _ _
  have hD : D ⊆ D ++ [k] := List.subset_append_left D [k]
  have hvalue : ∀ x, (temp (setSlot t ⟨s.fragment.locals.size⟩ { s with fragment := g' }) x).value =
      (temp s x).value := by
    intro x
    rw [htemp]
    split
    · next e => rw [e]; rfl
    · rfl
  have huses : ∀ x, (temp (setSlot t ⟨s.fragment.locals.size⟩ { s with fragment := g' }) x).uses =
      (temp s x).uses := by
    intro x
    rw [htemp]
    split
    · next e => rw [e]; rfl
    · rfl
  -- Only the new slot is not an old one.
  have hslots : ∀ x l,
      (temp (setSlot t ⟨s.fragment.locals.size⟩ { s with fragment := g' }) x).slot = some l →
      (x = t ∧ l = ⟨s.fragment.locals.size⟩) ∨ (x ≠ t ∧ (temp s x).slot = some l) := by
    intro x l hl
    rw [htemp] at hl
    split at hl
    · next e => exact .inl ⟨e, (Option.some.inj hl).symm⟩
    · next e => exact .inr ⟨e, hl⟩
  have hbelow : ∀ x l, (temp s x).slot = some l → (g'.localSlot l).offset +
      (f.ty (home f b x)).bytes ≤ slotOffset s.fragment (f.ty (home f b t)) := by
    intro x l hl
    have harea := h.slot x l hl
    rw [hw.localSlot_eq l harea.lt]
    have := harea.le_size
    omega
  refine ⟨hsize.trans h.size_eq, h.packed_size, h.positions_eq, h.tempOf_eq, ?_, ?_, ?_, ?_, ?_, ?_,
    ?_, ?_, Int.le_trans h.size_ge hw.localsSize_le, ?_⟩
  · intro n x hn
    obtain ⟨hl, u', hu', hh⟩ := h.held n x hn
    exact ⟨hl, u', by rw [hvalue]; exact hu', hh.keeps hk hD⟩
  · intro x u' hl hu'
    rw [hvalue] at hu'
    exact h.located x u' hl hu'
  · intro x l hl
    rcases hslots x l hl with ⟨rfl, rfl⟩ | ⟨-, hl⟩
    · have hge := h.size_ge
      refine ⟨?_, by rw [setSlot]; exact congrArg Local.ty hnew, ?_, ?_⟩
      · change s.fragment.locals.size < g'.locals.size
        simp [hs.locals_eq, withSlot]
      · change f.localsSize ≤ (g'.localSlot ⟨s.fragment.locals.size⟩).offset
        rw [hnew]
        dsimp only
        omega
      · change (g'.localSlot ⟨s.fragment.locals.size⟩).offset + _ ≤ g'.localsSize
        exact Int.le_of_eq (by rw [hnew, hs.localsSize_eq, hty])
    · exact (h.slot x l hl).widens hw
  · intro x x' l l' hne hl hl'
    change (g'.localSlot l).offset + _ ≤ (g'.localSlot l').offset ∨ _
    rcases hslots x l hl with ⟨rfl, rfl⟩ | ⟨-, hold⟩
    · rcases hslots x' l' hl' with ⟨rfl, rfl⟩ | ⟨-, hold'⟩
      · exact absurd rfl hne
      · refine .inr ?_
        change (g'.localSlot l').offset + _ ≤ (g'.localSlot ⟨s.fragment.locals.size⟩).offset
        rw [hnew]
        exact hbelow x' l' hold'
    · rcases hslots x' l' hl' with ⟨rfl, rfl⟩ | ⟨-, hold'⟩
      · rw [hnew]
        exact .inl (hbelow x l hold)
      · have := h.disjoint x x' l l' hne hold hold'
        change _ ∨ (g'.localSlot l').offset + _ ≤ (g'.localSlot l).offset
        rwa [hw.localSlot_eq l (h.slot x l hold).lt, hw.localSlot_eq l' (h.slot x' l' hold').lt]
  · intro x
    rw [huses]
    exact h.uses x
  · intro x hx
    rw [huses]
    exact h.nonempty x (hsize ▸ hx)
  · intro x hx hh huse
    rw [hvalue, htemp]
    split
    · exact .inr rfl
    · exact h.kept x (hsize ▸ hx) hh huse
  · intro x hx hh
    obtain ⟨hs', hv⟩ := h.pending x (hsize ▸ hx) hh
    refine ⟨?_, fun hl => by rw [hvalue]; exact hv hl⟩
    rw [htemp, if_neg]
    · exact hs'
    · rintro rfl
      exact hh hhome
  · have hcount : spilled (setSlot t ⟨s.fragment.locals.size⟩ { s with fragment := g' }) =
        spilled s + 1 := by
      rw [spilled, spilled, hsize]
      refine countP_range_update ht (by simp [hslot]) (by simp [htemp]) fun x hx => ?_
      simp only [htemp, hx, if_false]
      rfl
    rw [hcount]
    change g'.localsSize ≤ _
    have := h.size_le
    rw [hs.localsSize_eq, hty]
    omega

/-- The code `chunk` stores temporaries: wherever it ends up, what holds in `s` before it holds in
`s'` behind it, on the same registers. -/
def Stores (f : Fragment) (b : BlockId) (regs : Array Register) (loading : Option Nat) (s : State)
    (chunk : List InstrId) (s' : State) (out : Fragment) : Prop :=
  ∀ {σ : Type} (gs : Guest σ) (o : Offsets) (rest : List InstrId) (cells : Cells)
    (rf : Array UInt64) (area base : Array UInt8) (w : World σ),
    area.size = out.localsSize.toNat → Holds f b regs s loading cells rf area base →
    ∃ n area', GoesIn (Meaning.step out (Meaning.registers out) gs o) n
        ⟨⟨chunk ++ rest, []⟩, rf, ⟨area, w⟩⟩ ⟨⟨rest, []⟩, rf, ⟨area', w⟩⟩ ∧
      area'.size = area.size ∧ Holds f b regs s' loading cells rf area' base

/-- A step of allocation that adds the stores `chunk` to the final code. -/
structure Adds (f : Fragment) (b : BlockId) (regs : Array Register) (loading : Option Nat)
    (D chunk R : List InstrId) (s s' : State) : Prop where
  coded : Coded f b regs (D ++ chunk) R s'.fragment
  keeps : Keeps D s.fragment s'.fragment
  widens : Widens s.fragment s'.fragment
  args : ∀ i : InstrId, i.index < s.fragment.instrs.size →
    (s'.fragment.instr i).args = (s.fragment.instr i).args
  plain : ∀ k ∈ chunk, (s'.fragment.instr k).op.isBranch = false
  stores : ∀ out, Keeps (D ++ chunk) s'.fragment out →
    s'.fragment.localsSize ≤ out.localsSize → Stores f b regs loading s chunk s' out

theorem Adds.refl (hc : Coded f b regs D R s.fragment) : Adds f b regs loading D [] R s s where
  coded := by simpa using hc
  keeps := .refl D _
  widens := .refl _
  args _ _ := rfl
  plain := by simp
  stores _ _ _ := fun _ _ _ _ _ area _ _ _ hh => ⟨0, area, GoesIn.refl _, rfl, hh⟩

theorem Packed.home_mem (h : Packed f b regs s₀ pre pos cut loading D s)
    (hb : s.bins.packed.getD bin none = some t) : home f b t ∈ results f pre := by
  obtain ⟨hl, u, hu, -⟩ := h.held bin t hb
  have ht := value_lt_size hu
  by_cases hm : home f b t ∈ results f pre
  · exact hm
  · rw [(h.pending t ht hm).2 hl] at hu
    cases hu

/-- The counters of spills do not matter. -/
theorem Packed.congr {s' : State} (h : Packed f b regs s₀ pre pos cut loading D s)
    (hf : s'.fragment = s.fragment) (hb : s'.bins = s.bins) (hp : s'.positions = s.positions)
    (ht : s'.tempOf = s.tempOf) : Packed f b regs s₀ pre pos cut loading D s' := by
  cases s
  cases s'
  cases hf
  cases hb
  cases hp
  cases ht
  exact ⟨h.size_eq, h.packed_size, h.positions_eq, h.tempOf_eq, h.held, h.located, h.slot,
    h.disjoint, h.uses, h.nonempty, h.kept, h.pending, h.size_ge, h.size_le⟩

theorem Holds.congr {s' : State} {cells : Cells} {rf : Array UInt64} {area base : Array UInt8}
    (h : Holds f b regs s loading cells rf area base) (hf : s'.fragment = s.fragment)
    (hb : s'.bins = s.bins) : Holds f b regs s' loading cells rf area base := by
  cases s
  cases s'
  cases hf
  cases hb
  exact ⟨h.regs_size, h.base_size, h.area_size, h.area_le, h.shared, h.fits, h.value, h.slot⟩

/-- Storing a temporary to its new slot. -/
theorem Holds.stored (hp : Prepared f b regs s₀) (h : Packed f b regs s₀ pre pos cut loading D s)
    {u : ValueId} {k : InstrId} (hs : StoredNew s.fragment g' b D R u k)
    (hk : Keeps D s.fragment g') (hb : s.bins.packed.getD bin none = some t)
    (hu : (temp s t).value = some u) (hslot : (temp s t).slot = none) {out : Fragment}
    (hout : g'.localsSize ≤ out.localsSize) {cells : Cells} {rf : Array UInt64}
    {area base : Array UInt8} (harea : area.size = out.localsSize.toNat)
    (hh : Holds f b regs s loading cells rf area base) :
    let offset := slotOffset s.fragment (f.ty (home f b t))
    Holds f b regs (setSlot t ⟨s.fragment.locals.size⟩ { s with fragment := g' }) loading cells rf
      (Bytes.write area offset.toNat (f.ty (home f b t)).bytes (rf.getD bin.toUInt8.toNat 0))
      base := by
  intro offset
  have ht : t < s.bins.temps.size := value_lt_size hu
  obtain ⟨hl, u', hu', hholder⟩ := h.held bin t hb
  obtain rfl : u' = u := Option.some.inj (hu'.symm.trans hu)
  have hty : s.fragment.ty u' = f.ty (home f b t) := hholder.ty_eq
  have hscalar : IsScalar (f.ty (home f b t)) := hp.scalar (h.size_eq ▸ ht)
  have hoff := slotOffset_bounds s.fragment hscalar
  have hw : Widens s.fragment g' := hs.widens (by rw [hty]; exact (bytes_of_scalar hscalar).1)
  have hsize := hs.localsSize_eq
  rw [hty] at hsize
  have hge := h.size_ge
  have hf₀ := hp.straight.wellFormed.localsSize_nonneg
  have hwide := hh.widen h hk hw (by omega)
  have htemp := temp_setSlot (s := { s with fragment := g' }) ht ⟨s.fragment.locals.size⟩
  refine ⟨hh.regs_size, hh.base_size, ?_, ?_, ?_, hh.fits, ?_, ?_⟩
  · rw [Bytes.size_write]
    exact hwide.area_size
  · rw [Bytes.size_write]
    exact hh.area_le
  · intro i hi
    rw [Bytes.getD_write_of_outside]
    · exact hh.shared i hi
    · rw [hh.base_size] at hi
      exact .inl (by omega)
  · intro x v hx hv r hr
    refine hwide.value x v hx ?_ r hr
    rw [htemp] at hv
    split at hv
    · next e => rw [e]; exact hv
    · exact hv
  · intro x l hx
    rw [htemp] at hx
    change Agree _ _ (Bytes.read _ (g'.localSlot l).offset.toNat _)
    split at hx
    · next e =>
      cases hx
      subst e
      have hnew : g'.localSlot ⟨s.fragment.locals.size⟩ =
          { ty := f.ty (home f b x), offset := slotOffset s.fragment (f.ty (home f b x)) } := by
        rw [localSlot, hs.locals_eq, hty]
        exact getD_push_self _ _ _
      rw [hnew]
      refine Agree.read_write hscalar (hh.fits _) ?_ (by omega)
      exact hh.value x u' hl hu _ hholder.reg_eq
    · next e =>
      have hx' : (temp s x).slot = some l := hx
      have hold := h.slot x l hx'
      have hr := hwide.slot x l hx
      have hle := hold.le_size
      have hge' := hold.offset_le
      change Agree _ _ (Bytes.read area (g'.localSlot l).offset.toNat _) at hr
      rw [hw.localSlot_eq l hold.lt] at hr ⊢
      rw [Bytes.read_write_of_disjoint]
      · exact hr
      · exact .inl (by omega)

theorem insertBefore_eq {α : Type} {m : Build α} {a : α}
    (h : m (s.fragment.beforeInstr j) = .ok (a, g')) :
    insertBefore j m s = .ok (a, { s with fragment := g'.setPoint s.fragment.point }) := by
  simp only [insertBefore, h, bind, Except.bind, pure, Except.pure]

/-- Spilling the temporary of a bin. -/
theorem spill_ok (hp : Prepared f b regs s₀) (hc : Coded f b regs D (j :: R) s.fragment)
    (h : Packed f b regs s₀ pre pos cut loading D s)
    (hb : s.bins.packed.getD bin none = some t) :
    ∃ s' chunk, spill bin j s = .ok (true, s') ∧ Adds f b regs loading D chunk (j :: R) s s' ∧
      Packed f b regs s₀ pre pos cut loading (D ++ chunk) s' ∧ s'.tempOf = s.tempOf ∧
      s'.bins.packed = s.bins.packed ∧ (temp s' t).slot.isSome ∧
      ∀ x, (temp s' x).value = (temp s x).value ∧ (temp s' x).uses = (temp s x).uses ∧
        (∀ l, (temp s x).slot = some l → (temp s' x).slot = some l) ∧
        (x ≠ t → (temp s' x).slot = (temp s x).slot) := by
  obtain ⟨hl, u, hu, hholder⟩ := h.held bin t hb
  cases hslot : (temp s t).slot with
  | some l =>
    refine ⟨s, [], ?_, .refl hc, by simpa using h, rfl, rfl, by simp [hslot],
      fun _ => ⟨rfl, rfl, fun _ h => h, fun _ => rfl⟩⟩
    simp only [spill, get, getThe, MonadStateOf.get, StateT.get, bind, StateT.bind,
      Except.bind, pure,
      StateT.pure, Except.pure, hb, hslot]
  | none =>
    have ht := value_lt_size hu
    have hty : s.fragment.ty u = f.ty (home f b t) := hholder.ty_eq
    have hscalar : IsScalar (s.fragment.ty u) := by
      rw [hty]
      exact hp.scalar (h.size_eq ▸ ht)
    have hoff := slotOffset_bounds s.fragment hscalar
    have hbytes := bytes_of_scalar hscalar
    have hroom : slotOffset s.fragment (s.fragment.ty u) + (s.fragment.ty u).bytes ≤
        maxLocalsSize := by
      have h₁ := spilled_lt ht hslot
      have h₂ := h.size_le
      have h₃ := hp.enough.room
      rw [h.size_eq, hp.recorded.size_eq] at h₁
      omega
    obtain ⟨g', k, hstore, hs⟩ := storeNew_ok hc.chain hbytes.1 hroom s.fragment.point
    have hk := hc.keeps_of_grows hs.grows
    have hstored := h.stored hp hs hk hu hty hslot (h.home_mem hb)
    generalize hg : g'.setPoint s.fragment.point = g'' at *
    have hs' : ∃ s', spill bin j s = .ok (true, s') ∧ s'.fragment = g'' ∧
        s'.bins = (setSlot t ⟨s.fragment.locals.size⟩ { s with fragment := g'' }).bins ∧
        s'.positions = s.positions ∧ s'.tempOf = s.tempOf := by
      have hins := insertBefore_eq hstore
      rw [hg] at hins
      simp only [spill, get, getThe, MonadStateOf.get, StateT.get, bind, StateT.bind, Except.bind,
        pure, StateT.pure, Except.pure, hb, hslot, hu, hins, modify, modifyGet,
        MonadStateOf.modifyGet, StateT.modifyGet]
      refine ⟨_, rfl, ?_⟩
      split <;> exact ⟨rfl, rfl, rfl, rfl⟩
    obtain ⟨s', hspill, hf', hb', hp', ht'⟩ := hs'
    have htemp : ∀ x, temp s' x =
        temp (setSlot t ⟨s.fragment.locals.size⟩ { s with fragment := g'' }) x := by
      intro x
      rw [temp, hb', temp]
    have hset := temp_setSlot (s := { s with fragment := g'' }) ht ⟨s.fragment.locals.size⟩
    refine ⟨s', [k], hspill, ⟨?_, ?_, ?_, ?_, ?_, ?_⟩, hstored.congr hf' hb' hp' ht',
      ht', ?_, ?_, ?_⟩
    · rw [hf']
      exact hs.coded hc hbytes.1 hholder.defined hp.instr_lt
    · rw [hf']
      exact hk
    · rw [hf']
      exact hs.widens hbytes.1
    · rw [hf']
      exact hs.grows.args_eq
    · intro i hi
      rw [List.mem_singleton.mp hi, hf', hs.isAccess.op_eq]
      rfl
    · intro out hout hsize σ gs o rest cells rf area base w harea hh
      rw [hf'] at hout hsize
      have hkD : k ∈ D ++ [k] := by simp
      have hm := mentions_result hholder.defined.choose_spec.1 hholder.defined.choose_spec.2
      have hle : slotOffset s.fragment (s.fragment.ty u) + (s.fragment.ty u).bytes ≤ area.size := by
        have := hs.localsSize_eq
        have := hp.straight.wellFormed.localsSize_nonneg
        have := h.size_ge
        omega
      have htyg : g''.ty u = s.fragment.ty u := hk.ty_eq u hm
      have hrun := hs.isAccess.runInstr_store gs o ⟨rest, []⟩ rf area w hs.result_eq
        (by have := hp.straight.wellFormed.localsSize_nonneg
            have := h.size_ge
            omega)
        (by rw [htyg]; exact hle) hh.area_le
        (by
          obtain ⟨i, hi, hres⟩ := hholder.defined
          exact ⟨i, by rw [hk.origin_eq u hm]; exact ((hc.final i hi).result u hres).2⟩)
        ((hk.reg_eq u hm).trans hholder.reg_eq)
      have hstep : Meaning.step out (Meaning.registers out) gs o ⟨⟨k :: rest, []⟩, rf, ⟨area, w⟩⟩ =
          .go ⟨⟨rest, []⟩, rf, ⟨Bytes.write area (slotOffset s.fragment (s.fragment.ty u)).toNat
            (g''.ty u).bytes (rf.getD bin.toUInt8.toNat 0), w⟩⟩ := by
        rw [step_instr, hout.runInstr_eq hkD (by rw [hs.isAccess.op_eq]; rfl)]
        exact hrun
      rw [htyg, hty] at hstep
      refine ⟨1, _, .single hstep, Bytes.size_write .., ?_⟩
      exact (Holds.stored hp h hs hk hb hu hslot hsize harea hh).congr hf' hb'
    · rw [hb']
      rfl
    · rw [htemp, hset, if_pos rfl]
      rfl
    · intro x
      rw [htemp, hset]
      split
      · next e =>
        rw [e]
        refine ⟨rfl, rfl, fun l hl => ?_, fun hne => absurd rfl hne⟩
        rw [hslot] at hl
        cases hl
      · exact ⟨rfl, rfl, fun _ h => h, fun _ => rfl⟩

end Recompiler.Pass.Allocation
