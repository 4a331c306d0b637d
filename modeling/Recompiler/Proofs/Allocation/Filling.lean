import Recompiler.Proofs.Allocation.Assignment
import Recompiler.Proofs.Allocation.Expiry

/-!
Arguments are made to refer to the values that hold their temporaries. A temporary that was spilled
is filled from its slot first; it may take the register of another one, but not of an argument.
-/
namespace Recompiler.Pass.Allocation

open IR IR.Fragment Interp Machine Meaning

variable {f : Fragment} {b : BlockId} {regs : Array Register} {s₀ s s' s'' : State}
  {pre post : List InstrId} {pos cut : Int} {D chunk chunk' R : List InstrId}
  {t bin : Nat} {i j : InstrId} {v : ValueId} {ty : Ty} {n : Slot}

/-- A step of allocation that adds `chunk` to the final code. -/
structure Moves (f : Fragment) (b : BlockId) (regs : Array Register) (D chunk : List InstrId)
    (s s' : State) : Prop where
  keeps : Keeps D s.fragment s'.fragment
  widens : Widens s.fragment s'.fragment
  plain : ∀ k ∈ chunk, (s'.fragment.instr k).op.isBranch = false
  runs : ∀ out, Keeps (D ++ chunk) s'.fragment out → s'.fragment.localsSize ≤ out.localsSize →
    Runs f b regs s chunk s' none out

theorem Moves.of_holds (hk : Keeps D s.fragment s'.fragment) (hw : Widens s.fragment s'.fragment)
    (h : ∀ cells rf area base, Holds f b regs s none cells rf area base →
      Holds f b regs s' none cells rf area base) : Moves f b regs D [] s s' where
  keeps := hk
  widens := hw
  plain := by simp
  runs _ _ _ := fun _ _ _ cells rf area base _ _ hh =>
    ⟨0, rf, area, GoesIn.refl _, rfl, h cells rf area base hh⟩

theorem Moves.trans (h : Moves f b regs D chunk s s')
    (h' : Moves f b regs (D ++ chunk) chunk' s' s'') :
    Moves f b regs D (chunk ++ chunk') s s'' where
  keeps := h.keeps.trans (h'.keeps.mono (List.subset_append_left D chunk))
  widens := h.widens.trans h'.widens
  plain k hk := by
    rcases List.mem_append.mp hk with hk | hk
    · rw [h'.keeps.op_eq k (List.mem_append_right D hk)]
      exact h.plain k hk
    · exact h'.plain k hk
  runs out hout hle := by
    intro σ gs o rest cells rf area base w harea hh
    rw [← List.append_assoc] at hout
    have hout' : Keeps (D ++ chunk) s'.fragment out :=
      h'.keeps.trans (hout.mono (List.subset_append_left _ _))
    have hle' := Int.le_trans h'.widens.localsSize_le hle
    obtain ⟨m, rf₁, area₁, hgo₁, hsz₁, hh₁⟩ :=
      h.runs out hout' hle' gs o (chunk' ++ rest) cells rf area base w harea hh
    obtain ⟨n, rf₂, area₂, hgo₂, hsz₂, hh₂⟩ :=
      h'.runs out hout hle gs o rest cells rf₁ area₁ base w (hsz₁.trans harea) hh₁
    refine ⟨m + n, rf₂, area₂, ?_, hsz₂.trans hsz₁, hh₂⟩
    rw [List.append_assoc]
    exact hgo₁.trans hgo₂

/-- The arguments of instruction `i` are being placed. -/
structure Placing (f : Fragment) (b : BlockId) (regs : Array Register) (s₀ : State)
    (pre : List InstrId) (i : InstrId) (post : List InstrId) (D : List InstrId) (s : State) :
    Prop where
  split : f.blockInstrs b = pre ++ i :: post
  coded : Coded f b regs D (i :: post) s.fragment
  packed : Packed f b regs s₀ pre (stride * pre.length) (stride * pre.length) none D s
  /-- What is in a bin is used later, or an argument. -/
  live : ∀ k x, s.bins.packed.getD k none = some x → home f b x ∈ inputs f i ∨
    ∀ u, (temp s x).uses.head? = some u → stride * pre.length < u
  mapped : ∀ t u, (temp s t).value = some u → s.tempOf[u]? = some t
  constants : ∀ m, (∀ a, (f.instr i).arg m = some a → f.isConstant a = true) →
    (s.fragment.instr i).arg m = (f.instr i).arg m
  later : ∀ j ∈ post, (s.fragment.instr j).args = (f.instr j).args

/-- Position `n` of `i` refers to the value that holds its temporary. -/
def Placed (f : Fragment) (s₀ : State) (i : InstrId) (s : State) (n : Slot) : Prop :=
  ∀ a, (f.instr i).arg n = some a → f.isConstant a = false → ∀ t, s₀.tempOf[a]? = some t →
    ∃ u, (temp s t).value = some u ∧ (s.fragment.instr i).arg n = some u

/-- The inputs of the current instruction have temporaries that are defined and needed. -/
theorem Placing.variable (hp : Prepared f b regs s₀) (h : Placing f b regs s₀ pre i post D s)
    (hv : v ∈ inputs f i) : ∃ t < s.bins.temps.size, s₀.tempOf[v]? = some t ∧
      s.tempOf[v]? = some t ∧ home f b t = v ∧ v ∈ results f pre ∧
      stride * pre.length ∈ (temp s₀ t).uses := by
  obtain ⟨j, hj, hres⟩ := hp.straight.defined pre i post h.split v hv
  have hpre : v ∈ results f pre := mem_results.mpr ⟨j, hj, hres⟩
  have hmem : v ∈ results f (f.blockInstrs b) :=
    mem_results.mpr ⟨j, by rw [h.split]; exact List.mem_append_left _ hj, hres⟩
  obtain ⟨t, ht⟩ := List.getElem?_of_mem hmem
  have hmap := (hp.recorded.tempOf_iff v t).mpr ht
  have hlt : v.index < f.values.size :=
    (hp.straight.wellFormed.result j
      (hp.mem_allInstrs (by rw [h.split]; exact List.mem_append_left _ hj)) v hres).1
  refine ⟨t, ?_, hmap, ?_, hp.home_eq hmap, hpre, ?_⟩
  · rw [h.packed.size_eq]
    exact hp.tempOf_lt hmap
  · rw [h.packed.tempOf_eq v hlt]
    exact hmap
  · exact hp.recorded.covered pre i post h.split v hv t hmap

/-- A use at the position is not forgotten, so the next use is not later. -/
theorem Packed.head_le (h : Packed f b regs s₀ pre pos cut none D s) (hp : Prepared f b regs s₀)
    (hu : pos ∈ (temp s₀ t).uses) {u : Int} (hhead : (temp s t).uses.head? = some u) : u ≤ pos := by
  obtain ⟨dropped, hd, hlt⟩ := h.uses t
  have hsorted := hp.recorded.sorted t
  rw [hd] at hu hsorted
  rcases List.mem_append.mp hu with hm | hm
  · exact absurd (hlt pos hm) (Int.lt_irrefl _)
  · cases huses : (temp s t).uses with
    | nil =>
      rw [huses] at hm
      cases hm
    | cons w ws =>
      rw [huses] at hm hhead hsorted
      obtain rfl : w = u := Option.some.inj hhead
      rcases List.mem_cons.mp hm with rfl | hm
      · exact Int.le_refl _
      · exact (List.pairwise_cons.mp (List.pairwise_append.mp hsorted).2.1).1 pos hm

/-- The bins whose registers have a property. -/
theorem countP_eq_length (regs : Array Register) (p : Register → Bool) :
    regs.countP p = ((List.range regs.size).filter fun k => p (regs.getD k default)).length := by
  have hlist : regs.toList = (List.range regs.size).map fun k => regs.getD k default := by
    apply List.ext_getElem
    · simp
    · intro k h₁ h₂
      have hk : k < regs.size := by simpa using h₁
      simp [Array.getD_eq_getD_getElem?, hk]
  rw [← Array.countP_toList, hlist, List.countP_map, List.countP_eq_length_filter]
  rfl

/-- An argument is not evicted for another one: there is a bin for the type whose temporary is not
an argument. -/
theorem Placing.not_furthest (hp : Prepared f b regs s₀) (h : Placing f b regs s₀ pre i post D s)
    (hv : v ∈ inputs f i) (ht : s₀.tempOf[v]? = some t) (hnone : (temp s t).value = none)
    {x : Nat} (hx : home f b x ∈ inputs f i) :
    ¬ ∃ bin, Furthest regs s (f.ty v) bin x ∧ ∀ k < regs.size,
      (regs.getD k default).holds (f.ty v) → ∃ y, s.bins.packed.getD k none = some y := by
  rintro ⟨bin, hfur, hfull⟩
  have hregs := hp.enough.size_le
  obtain ⟨y, hy, hmapy, -, hhomey, -, husey⟩ := h.variable hp hx
  have hxy : x = y := by
    obtain ⟨-, u, hu, -⟩ := h.packed.held bin x hfur.packed_eq
    have hlt := value_lt_size hu
    exact hp.home_inj (h.packed.size_eq ▸ hlt) (h.packed.size_eq ▸ hy) hhomey.symm
  subst hxy
  -- Every bin for the type holds an argument, and not the one that is to be filled.
  have hbins : ∀ k < regs.size, (regs.getD k default).holds (f.ty v) → ∃ z,
      s.bins.packed.getD k none = some z ∧ home f b z ∈ inputs f i ∧ home f b z ≠ v := by
    intro k hk hty
    obtain ⟨z, hz⟩ := hfull k hk hty
    obtain ⟨-, u, hu, -⟩ := h.packed.held k z hz
    have hzlt := value_lt_size hu
    refine ⟨z, hz, ?_, fun e => ?_⟩
    · refine (h.live k z hz).elim id fun hlater => ?_
      cases huses : (temp s z).uses with
      | nil => exact absurd huses (h.packed.nonempty z hzlt)
      | cons w ws =>
        have hw : (temp s z).uses.head? = some w := by rw [huses]; rfl
        obtain ⟨m, hm, hle⟩ := hfur.le k hk hty z hz w hw
        have := hlater w hw
        have := h.packed.head_le hp husey hm
        omega
    · have hzt := hp.tempOf_home (h.packed.size_eq ▸ hzlt)
      rw [e, ht] at hzt
      obtain rfl : t = z := Option.some.inj hzt
      rw [hnone] at hu
      cases hu
  let held (k : Nat) : ValueId := home f b ((s.bins.packed.getD k none).getD 0)
  let bins := (List.range regs.size).filter fun k => (regs.getD k default).holds (f.ty v)
  have hmem : ∀ k ∈ bins, k < regs.size ∧ (regs.getD k default).holds (f.ty v) := by
    intro k hk
    obtain ⟨h₁, h₂⟩ := List.mem_filter.mp hk
    exact ⟨List.mem_range.mp h₁, h₂⟩
  have hnodup : (bins.map held).Nodup := by
    rw [List.Nodup, List.pairwise_map]
    refine (List.nodup_range.filter _).imp_of_mem fun {k k'} hk hk' hne e => hne ?_
    obtain ⟨z, hz, -, -⟩ := hbins k (hmem k hk).1 (hmem k hk).2
    obtain ⟨z', hz', -, -⟩ := hbins k' (hmem k' hk').1 (hmem k' hk').2
    simp only [held, hz, hz', Option.getD_some] at e
    obtain ⟨-, u, hu, -⟩ := h.packed.held k z hz
    obtain ⟨-, u', hu', -⟩ := h.packed.held k' z' hz'
    obtain rfl := hp.home_inj (h.packed.size_eq ▸ value_lt_size hu)
      (h.packed.size_eq ▸ value_lt_size hu') e
    exact h.packed.bin_unique hregs hz hz'
  have hsub : bins.map held ⊆ (inputs f i).erase v := by
    intro w hw
    obtain ⟨k, hk, rfl⟩ := List.mem_map.mp hw
    obtain ⟨z, hz, hz₁, hz₂⟩ := hbins k (hmem k hk).1 (hmem k hk).2
    simp only [held, hz, Option.getD_some]
    exact (List.mem_erase_of_ne hz₂).mpr hz₁
  have hle := hnodup.length_le_of_subset hsub
  have hcount : regs.countP (·.holds (f.ty v)) = bins.length := countP_eq_length regs _
  rw [List.length_map, List.length_erase_of_mem hv] at hle
  have hpos := List.length_pos_of_mem hv
  have := hp.enough.inputs i (by rw [h.split]; simp) v hv
  omega

theorem bind_ok {α β : Type} {m : Alloc α} {k : α → Alloc β} {a : α} (h : m s = .ok (a, s')) :
    (m >>= k : Alloc β) s = k a s' := by
  simp only [bind, StateT.bind, h, Except.bind]

/-- The temporary that was being loaded is in its register. -/
theorem Holds.loaded {cells cells' : Cells} {rf : Array UInt64}
    {area base : Array UInt8} {r : UInt8}
    {u : ValueId} {y : UInt64} (h : Holds f b regs s (some t) cells rf area base)
    (hregs : regs.size ≤ 256) (hp : Packed f b regs s₀ pre pos cut none D s)
    (hu : (temp s t).value = some u)
    (hr : (s.fragment.value u).reg = some r)
    (hy : Agree (f.ty (home f b t)) (cells' (home f b t)) y)
    (hcells : ∀ x < s.bins.temps.size, x ≠ t → cells' (home f b x) = cells (home f b x))
    (hslot : ∀ l, (temp s t).slot = some l → cells' (home f b t) = cells (home f b t))
    (hfits : ∀ v, (f.ty v).isInt → Eval.truncate (f.ty v) (cells' v) = cells' v) :
    Holds f b regs s none cells' (rf.setIfInBounds r.toNat y) area base := by
  obtain ⟨bin, hbin⟩ := hp.located t u (by simp) hu
  obtain ⟨-, u', hu', hh⟩ := hp.held bin t hbin
  obtain rfl : u' = u := Option.some.inj (hu'.symm.trans hu)
  have hrlt : r.toNat < rf.size := by
    obtain rfl : r = bin.toUInt8 := Option.some.inj (hr.symm.trans hh.reg_eq)
    have : bin.toUInt8.toNat = bin % 2 ^ 8 := rfl
    have := hh.lt
    rw [h.regs_size]
    omega
  refine ⟨by rw [Array.size_setIfInBounds]; exact h.regs_size, h.base_size, h.area_size, h.area_le,
    h.shared, hfits, fun x w _ hw r' hr' => ?_, fun x l hl => ?_⟩
  · rw [getD_setIfInBounds]
    by_cases e : x = t
    · subst e
      obtain rfl : w = u' := Option.some.inj (hw.symm.trans hu)
      obtain rfl : r' = r := Option.some.inj (hr'.symm.trans hr)
      rw [if_pos ⟨rfl, hrlt⟩]
      exact hy
    · have hne : r.toNat ≠ r'.toNat := by
        intro hrr
        obtain ⟨k, hk⟩ := hp.located x w (by simp) hw
        obtain ⟨-, w', hw', hh'⟩ := hp.held k x hk
        obtain rfl : w' = w := Option.some.inj (hw'.symm.trans hw)
        have h₁ : r = bin.toUInt8 := Option.some.inj (hr.symm.trans hh.reg_eq)
        have h₂ : r' = k.toUInt8 := Option.some.inj (hr'.symm.trans hh'.reg_eq)
        have h₃ : bin.toUInt8.toNat = bin % 2 ^ 8 := rfl
        have h₄ : k.toUInt8.toNat = k % 2 ^ 8 := rfl
        have hlt := hh.lt
        have hlt' := hh'.lt
        rw [h₁, h₂] at hrr
        obtain rfl : bin = k := by omega
        exact e (Option.some.inj (hk.symm.trans hbin))
      rw [if_neg fun h => hne h.1, hcells x (value_lt_size hw) e]
      exact h.value x w (by simpa using Ne.symm e) hw r' hr'
  · by_cases e : x = t
    · subst e
      rw [hslot l hl]
      exact h.slot x l hl
    · have hx : x < s.bins.temps.size := by
        rw [temp, Array.getD_eq_getD_getElem?] at hl
        by_cases hlt : x < s.bins.temps.size
        · exact hlt
        · rw [Array.getElem?_eq_none (by omega)] at hl
          cases hl
      rw [hcells x hx e]
      exact h.slot x l hl

/-- A load from a slot stays one. -/
theorem IsAccess.widens {g g' : Fragment} {k : InstrId} {op : Opcode} {offset : Int}
    {w : Option ValueId} (h : IsAccess g k op offset w) (hw : Widens g g')
    (hk : k.index < g.instrs.size) (hargs : (g'.instr k).args = (g.instr k).args) :
    IsAccess g' k op offset w := by
  obtain ⟨c, hc, hlt, hty, ho⟩ := h.arg_zero
  refine ⟨(hw.op_eq k hk).trans h.op_eq, ⟨c, ?_, Nat.lt_of_lt_of_le hlt hw.values_le,
    (hw.ty_eq c hlt).trans hty, (hw.origin_eq c hlt).trans ho⟩, ?_, ?_⟩
  · rw [Instr.arg, hargs]
    exact hc
  · rw [Instr.arg, hargs]
    exact h.arg_one
  · rw [Instr.arg, hargs]
    exact h.arg_two

theorem Assigned.fill_moves {g : Fragment} {k : InstrId} {u : ValueId} {l : LocalId}
    {tempOf : Std.HashMap ValueId Nat} (hp : Prepared f b regs s₀)
    (h : Packed f b regs s₀ pre pos cut none D s) (hc : Coded f b regs D R s.fragment)
    (hl : (temp s t).slot = some l) (hL : Loaded s.fragment g b D R l k u)
    (hA : Assigned f b regs s₀ pre pos cut D chunk R k t u
    { s with fragment := g, tempOf := tempOf }
      s') : Moves f b regs D (chunk ++ [k]) s s' := by
  have hk := hc.keeps_of_grows hL.grows
  have hw := hL.widens
  have hkD : k ∈ D ++ (chunk ++ [k]) := by simp
  have hklt : k.index < g.instrs.size := hL.chain.lt k (by simp)
  have hplain : ∀ j ∈ chunk ++ [k], (s'.fragment.instr j).op.isBranch = false := by
    intro j hj
    rcases List.mem_append.mp hj with hj | hj
    · exact hA.plain j hj
    · rw [List.mem_singleton.mp hj, hA.widens.op_eq k hklt, hL.isAccess.op_eq]
      rfl
  refine ⟨hk.trans hA.keeps, hw.trans hA.widens, hplain, ?_⟩
  intro out hout hle σ gs o rest cells rf area base w harea hh
  have hsize : g.localsSize.toNat ≤ area.size := by
    have h₁ := hA.widens.localsSize_le
    change g.localsSize ≤ s'.fragment.localsSize at h₁
    omega
  have hh₁ : Holds f b regs { s with fragment := g, tempOf := tempOf } none cells rf area base :=
    (hh.widen h hk hw hsize).congr rfl rfl
  have hout' : Keeps (D ++ chunk) s'.fragment out :=
    hout.mono (by rw [← List.append_assoc]; exact List.subset_append_left _ _)
  obtain ⟨n, area', hgo, hsz, hh₂⟩ :=
    hA.stores out hout' hle gs o (k :: rest) cells rf area base w harea hh₁
  have hslot := h.slot t l hl
  obtain ⟨bin, hbin⟩ := hA.packed.located t u (by simp) hA.value_eq
  obtain ⟨-, u', hu', hh'⟩ := hA.packed.held bin t hbin
  obtain rfl : u' = u := Option.some.inj (hu'.symm.trans hA.value_eq)
  have hacc : IsAccess s'.fragment k .loadLocal (s.fragment.localSlot l).offset none :=
    hL.isAccess.widens hA.widens hklt (hA.args k hklt)
  have hres : (s'.fragment.instr k).result = some u' :=
    (hA.widens.result_eq k hklt).trans hL.result_eq
  have hty : s'.fragment.ty u' = f.ty (home f b t) := hh'.ty_eq
  have hnonneg := hp.straight.wellFormed.localsSize_nonneg
  have hoff := hslot.offset_le
  have harea' : (s.fragment.localSlot l).offset + (f.ty (home f b t)).bytes ≤ area'.size := by
    have h₁ := hslot.le_size
    have h₂ := (hw.trans hA.widens).localsSize_le
    omega
  have hrun := hacc.runInstr_load gs o ⟨rest, []⟩ rf area' w hres (by omega)
    (by rw [hty]; exact harea') (by rw [hsz]; exact hh.area_le) hh'.reg_eq
  have hstep : Meaning.step out (Meaning.registers out) gs o ⟨⟨k :: rest, []⟩, rf, ⟨area', w⟩⟩ =
      .go ⟨⟨rest, []⟩, rf.setIfInBounds bin.toUInt8.toNat (fit (f.ty (home f b t))
        (Bytes.read area' (s.fragment.localSlot l).offset.toNat (f.ty (home f b t)).bytes)),
        ⟨area', w⟩⟩ := by
    rw [step_instr, hout.runInstr_eq hkD (by rw [hacc.op_eq]; rfl), hrun, hty]
  have hread := hh₂.slot t l (hA.slot_eq t l hl)
  rw [hA.widens.localSlot_eq l (hslot.widens hw).lt, hw.localSlot_eq l hslot.lt] at hread
  have hfit := hread.fit
  rw [fit_eq (hh.fits _)] at hfit
  have hgo' := hgo.trans (.single hstep)
  rw [← List.singleton_append, ← List.append_assoc] at hgo'
  exact ⟨n + 1, _, area', hgo', hsz, hh₂.loaded hp.enough.size_le hA.packed hA.value_eq hh'.reg_eq
    hfit (fun _ _ _ => rfl) (fun _ _ => rfl) hh.fits⟩

/-- Loading a temporary from its slot. -/
theorem fill_ok (hp : Prepared f b regs s₀) (h : Placing f b regs s₀ pre i post D s)
    (hv : v ∈ inputs f i) (ht : s₀.tempOf[v]? = some t) (hnone : (temp s t).value = none)
    {l : LocalId} (hl : (temp s t).slot = some l) :
    ∃ s' chunk, fill regs i t l s = .ok ((), s') ∧
      Placing f b regs s₀ pre i post (D ++ chunk) s' ∧ Moves f b regs D chunk s s' ∧
      (∃ u, (temp s' t).value = some u) ∧
      (s'.fragment.instr i).args = (s.fragment.instr i).args ∧
      ∀ x, home f b x ∈ inputs f i → x ≠ t → (temp s' x).value = (temp s x).value := by
  obtain ⟨t', htlt, ht', htmap, hhome, hpre, huse⟩ := h.variable hp hv
  obtain rfl : t' = t := Option.some.inj (ht'.symm.trans ht)
  have hi : i ∈ f.blockInstrs b := by rw [h.split]; simp
  have hilt : i.index < s.fragment.instrs.size := h.coded.chain.lt i (by simp)
  obtain ⟨g', k, u, hload, hL⟩ := loadLocal_ok h.coded.chain l s.fragment.point
  have hins := insertBefore_eq hload
  generalize g'.setPoint s.fragment.point = g at hins hL
  -- The state with the load in the code, before it has a register.
  let s₁ : State := { s with fragment := g, tempOf := s.tempOf.insert u t' }
  have harea := h.packed.slot t' l hl
  have hu : f.values.size ≤ u.index := Nat.le_trans h.coded.values_le hL.value_new
  have hk := h.coded.keeps_of_grows hL.grows
  have hw := hL.widens
  have hkD : k ∉ D := fun hm => Nat.not_lt.mpr hL.new (h.coded.lt hm)
  have hc₁ : Coded f b regs D (k :: i :: post) s₁.fragment :=
    h.coded.widen hk hw hL.chain hp.instr_lt
  have hp₁ : Packed f b regs s₀ pre (stride * pre.length) (stride * pre.length) none D s₁ := by
    have hwide := h.packed.widen hk hw hL.localsSize_eq (List.Subset.refl D)
    refine ⟨hwide.size_eq, hwide.packed_size, hwide.positions_eq, fun w hw' => ?_, hwide.held,
      hwide.located, hwide.slot, hwide.disjoint, hwide.uses, hwide.nonempty, hwide.kept,
      hwide.pending, hwide.size_ge, hwide.size_le⟩
    change (s.tempOf.insert u t')[w]? = _
    rw [Std.HashMap.getElem?_insert, if_neg]
    · exact h.packed.tempOf_eq w hw'
    · rw [beq_iff_eq]
      rintro rfl
      omega
  have hd : Defines f b D s₁.fragment k t' u :=
    ⟨hkD, hL.result_eq, hL.value_lt, hL.origin_eq, hL.ty_eq.trans harea.ty_eq⟩
  have hr : Ready D s₁.fragment k := by
    intro m w hw'
    match m with
    | 0 =>
      obtain ⟨c, hc, hclt, hcty, hco⟩ := hL.isAccess.arg_zero
      rw [hc] at hw'
      cases hw'
      exact .inl ⟨hclt, _, hco, hcty, by simp [Constant.ty]⟩
    | 1 =>
      rw [hL.isAccess.arg_one] at hw'
      cases hw'
    | 2 =>
      rw [hL.isAccess.arg_two] at hw'
      cases hw'
  have hnovar : ∀ a, (s₁.fragment.instr k).arg 0 = some a → s₁.fragment.isConstant a ≠ false := by
    intro a ha hconst
    obtain ⟨c, hc, -, -, hco⟩ := hL.isAccess.arg_zero
    rw [hc] at ha
    cases ha
    obtain ⟨j, hj⟩ := (Value.isConstant_eq_false_iff _).mp hconst
    rw [hco] at hj
    cases hj
  have hreg : ∃ m < regs.size, (regs.getD m default).holds (f.ty (home f b t')) := by
    rw [hhome]
    exact exists_of_countP (Nat.lt_of_lt_of_le (List.length_pos_of_mem hv)
      (hp.enough.inputs i hi v hv))
  obtain ⟨s', chunk, halloc, hA⟩ := allocate_ok hp hc₁ hp₁ (v := u)
    (by change (s.tempOf.insert u t')[u]? = _; simp) htlt hnone hd hr (fun _ hw => hw)
    (fun _ _ hx => .inr hx) (by rw [hhome]; exact hpre) hreg
    (fun a ha hconst => absurd hconst (hnovar a ha))
  have hargs : ∀ j : InstrId, j.index < s.fragment.instrs.size →
      (s'.fragment.instr j).args = (s.fragment.instr j).args := fun j hj =>
    (hA.args j (Nat.lt_of_lt_of_le hj hw.instrs_le)).trans (hL.grows.args_eq j hj)
  have hrun : fill regs i t' l s = .ok ((), s') := by
    rw [fill, bind_ok hins, bind_modify]
    exact halloc
  have hD : D ++ chunk ++ [k] = D ++ (chunk ++ [k]) := List.append_assoc ..
  refine ⟨s', chunk ++ [k], hrun, ⟨h.split, hD ▸ hA.coded, hD ▸ hA.packed, ?_, ?_, ?_, ?_⟩, ?_,
    ⟨u, hA.value_eq⟩, hargs i hilt, ?_⟩
  · intro m x hx
    rw [hA.uses_eq]
    rcases hA.bins_le m x hx with rfl | ⟨m', hm'⟩
    · exact .inl (by rw [hhome]; exact hv)
    · exact h.live m' x hm'
  · intro x w hx
    rw [hA.tempOf_eq]
    change (s.tempOf.insert u t')[w]? = _
    rw [Std.HashMap.getElem?_insert]
    by_cases e : x = t'
    · subst e
      obtain rfl : w = u := Option.some.inj (hx.symm.trans hA.value_eq)
      simp
    · have hold : (temp s x).value = some w := by
        rcases hA.evicted x e with hsame | ⟨hnone', -⟩
        · rw [hsame] at hx
          exact hx
        · rw [hnone'] at hx
          cases hx
      obtain ⟨m, hm⟩ := h.packed.located x w (by simp) hold
      obtain ⟨-, w', hw', hh⟩ := h.packed.held m x hm
      obtain rfl : w' = w := Option.some.inj (hw'.symm.trans hold)
      obtain ⟨j, hj, hres⟩ := hh.defined
      have hlt := h.coded.mentions_lt (mentions_result hj hres)
      rw [if_neg]
      · exact h.mapped x w' hold
      · rw [beq_iff_eq]
        rintro rfl
        exact Nat.not_lt.mpr hL.value_new hlt
  · intro m hm
    rw [Instr.arg, hargs i hilt]
    exact h.constants m hm
  · intro j hj
    rw [hargs j (h.coded.chain.lt j (by simp [hj]))]
    exact h.later j hj
  · exact hA.fill_moves hp h.packed h.coded hl hL
  · intro x hx hne
    rcases hA.evicted x hne with hsame | ⟨-, hev⟩
    · exact hsame
    · rcases hev with ⟨a, ha, hconst, -⟩ | hfur
      · exact absurd hconst (hnovar a ha)
      · exfalso
        rw [hhome] at hfur
        refine h.not_furthest hp hv ht hnone hx ?_
        obtain ⟨m, hm, hfull⟩ := hfur
        exact ⟨m, ⟨hm.lt, hm.packed_eq, hm.le⟩, hfull⟩

/-! ### One argument -/

theorem Placing.not_mem (h : Placing f b regs s₀ pre i post D s) : i ∉ D ∧ i ∉ post := by
  have := h.coded.chain.nodup
  rw [List.perm_middle.nodup_iff, List.nodup_cons] at this
  exact ⟨fun hm => this.1 (List.mem_append_left _ hm), fun hm =>
    this.1 (List.mem_append_right _ hm)⟩

theorem Placing.setArg (h : Placing f b regs s₀ pre i post D s) (hp : Prepared f b regs s₀)
    (hv : (f.instr i).arg n = some v) (hconst : f.isConstant v = false) (u : ValueId) :
    Placing f b regs s₀ pre i post D { s with fragment := s.fragment.setArg i n u } ∧
      Moves f b regs D [] s { s with fragment := s.fragment.setArg i n u } := by
  obtain ⟨hiD, hipost⟩ := h.not_mem
  have hk := keeps_setArg (g := s.fragment) hiD n u
  have hw := widens_setArg s.fragment i n u
  have hsize := (sameFrame_setArg s.fragment i n u).localsSize_eq
  have hilt : i.index < s.fragment.instrs.size := h.coded.chain.lt i (by simp)
  refine ⟨⟨h.split, h.coded.widen hk hw (h.coded.chain.setArg i n u) hp.instr_lt,
    h.packed.widen hk hw hsize (List.Subset.refl D), h.live, h.mapped, ?_, ?_⟩, .of_holds hk hw ?_⟩
  · intro m hm
    have hne : m ≠ n := by
      rintro rfl
      rw [hm v hv] at hconst
      cases hconst
    dsimp only
    rw [instr_setArg, if_pos ⟨rfl, hilt⟩, Instr.arg]
    dsimp only
    rw [Slot.get_put, if_neg hne]
    exact h.constants m hm
  · intro j hj
    dsimp only
    rw [instr_setArg, if_neg]
    · exact h.later j hj
    · rintro ⟨rfl, -⟩
      exact hipost hj
  · intro cells rf area base hh
    refine hh.widen h.packed hk hw ?_
    rw [hsize]
    exact hh.area_size

theorem refer_ok (hp : Prepared f b regs s₀) (h : Placing f b regs s₀ pre i post D s) {u : ValueId}
    (hv : (f.instr i).arg n = some v) (hconst : f.isConstant v = false)
    (hs : (s.fragment.instr i).arg n = some v) (hu : (temp s t).value = some u) :
    ∃ s', refer i n v t s = .ok ((), s') ∧ Placing f b regs s₀ pre i post D s' ∧
      Moves f b regs D [] s s' ∧ (s'.fragment.instr i).arg n = some u ∧
      (∀ m, m ≠ n → (s'.fragment.instr i).arg m = (s.fragment.instr i).arg m) ∧
      ∀ x, temp s' x = temp s x := by
  have hrun : refer i n v t s = .ok ((), if u ≠ v then
      { s with fragment := s.fragment.setArg i n u } else s) := by
    simp only [refer, modify, modifyGet, MonadStateOf.modifyGet, StateT.modifyGet,
      pure, Except.pure,
      hu]
  by_cases e : u = v
  · rw [if_neg (by simpa using e)] at hrun
    refine ⟨s, hrun, h, .of_holds (.refl D _) (.refl _) fun _ _ _ _ hh => hh, by rw [e]; exact hs,
      fun _ _ => rfl, fun _ => rfl⟩
  · rw [if_pos e] at hrun
    have hilt : i.index < s.fragment.instrs.size := h.coded.chain.lt i (by simp)
    obtain ⟨hplacing, hmoves⟩ := h.setArg hp hv hconst u
    refine ⟨_, hrun, hplacing, hmoves, ?_, fun m hm => ?_, fun _ => rfl⟩
    · dsimp only
      rw [instr_setArg, if_pos ⟨rfl, hilt⟩, Instr.arg]
      dsimp only
      rw [Slot.get_put, if_pos rfl]
    · dsimp only
      rw [instr_setArg, if_pos ⟨rfl, hilt⟩, Instr.arg]
      dsimp only
      rw [Slot.get_put, if_neg hm]
      rfl

theorem reload_ok (hp : Prepared f b regs s₀) (h : Placing f b regs s₀ pre i post D s)
    (hv : v ∈ inputs f i) (ht : s₀.tempOf[v]? = some t) (n : Slot) :
    ∃ s' chunk, reload regs i n t s = .ok ((), s') ∧
      Placing f b regs s₀ pre i post (D ++ chunk) s' ∧ Moves f b regs D chunk s s' ∧
      (∃ u, (temp s' t).value = some u) ∧
      (s'.fragment.instr i).args = (s.fragment.instr i).args ∧
      ∀ x, home f b x ∈ inputs f i → ∀ u, (temp s x).value = some u →
        (temp s' x).value = some u := by
  obtain ⟨t', htlt, ht', htmap, hhome, hpre, huse⟩ := h.variable hp hv
  obtain rfl : t' = t := Option.some.inj (ht'.symm.trans ht)
  cases hval : (temp s t').value with
  | some u =>
    refine ⟨s, [], ?_, by simpa using h, .of_holds (.refl D _) (.refl _) fun _ _ _ _ hh => hh,
      ⟨u, hval⟩, rfl, fun _ _ _ hu => hu⟩
    rw [reload, bind_get, hval]
    rfl
  | none =>
    have hkept := h.packed.kept t' htlt (by rw [hhome]; exact hpre) ⟨_, huse, Int.le_refl _⟩
    rw [hval] at hkept
    obtain ⟨l, hl⟩ := Option.isSome_iff_exists.mp (hkept.resolve_left (by simp))
    obtain ⟨s', chunk, hfill, hplacing, hmoves, hu, hargs, hother⟩ := fill_ok hp h hv ht hval hl
    refine ⟨s', chunk, ?_, hplacing, hmoves, hu, hargs, fun x hx u hxu => ?_⟩
    · rw [reload, bind_get, hval, hl]
      exact hfill
    · have hne : x ≠ t' := by
        rintro rfl
        rw [hval] at hxu
        cases hxu
      rw [hother x hx hne]
      exact hxu

/-- Placing one argument. -/
theorem placeArg_ok (hp : Prepared f b regs s₀) (h : Placing f b regs s₀ pre i post D s)
    (hn : (s.fragment.instr i).arg n = (f.instr i).arg n) :
    ∃ s' chunk, placeArg regs i n s = .ok ((), s') ∧
      Placing f b regs s₀ pre i post (D ++ chunk) s' ∧ Moves f b regs D chunk s s' ∧
      Placed f s₀ i s' n ∧
      (∀ m, m ≠ n → (s'.fragment.instr i).arg m = (s.fragment.instr i).arg m) ∧
      ∀ m, m ≠ n → Placed f s₀ i s m → Placed f s₀ i s' m := by
  have hi : i ∈ f.blockInstrs b := by rw [h.split]; simp
  have hstay : Moves f b regs D [] s s :=
    .of_holds (.refl D _) (.refl _) fun _ _ _ _ hh => hh
  rw [placeArg, bind_get, hn]
  cases ha : (f.instr i).arg n with
  | none =>
    refine ⟨s, [], rfl, by simpa using h, hstay, fun a ha' => ?_, fun _ _ => rfl, fun _ _ hm => hm⟩
    rw [ha] at ha'
    cases ha'
  | some v =>
    have hlt := hp.straight.wellFormed.arg_lt i (hp.mem_allInstrs hi) n v ha
    have hsame : s.fragment.isConstant v = f.isConstant v := by
      rw [isConstant, Value.isConstant, h.coded.origin_eq v hlt]
      rfl
    dsimp only
    rw [hsame]
    cases hconst : f.isConstant v with
    | true =>
      refine ⟨s, [], rfl, by simpa using h, hstay, fun a ha' hc => ?_, fun _ _ => rfl,
        fun _ _ hm => hm⟩
      rw [ha] at ha'
      cases ha'
      rw [hconst] at hc
      cases hc
    | false =>
      have hv : v ∈ inputs f i := mem_inputs.mpr ⟨⟨n, ha⟩, hconst⟩
      obtain ⟨t, htlt, ht, htmap, hhome, -, -⟩ := h.variable hp hv
      have htemp : s.tempOf.getD v 0 = t := by
        rw [Std.HashMap.getD_eq_getD_getElem?, htmap]
        rfl
      obtain ⟨s₁, chunk, hreload, hP₁, hM₁, ⟨u, hu⟩, hargs, hother⟩ := reload_ok hp h hv ht n
      have hs₁ : ∀ m, (s₁.fragment.instr i).arg m = (s.fragment.instr i).arg m := by
        intro m
        rw [Instr.arg, hargs, Instr.arg]
      obtain ⟨s₂, hrefer, hP₂, hM₂, harg, hargs₂, htemp₂⟩ :=
        refer_ok hp hP₁ ha hconst ((hs₁ n).trans (hn.trans ha)) hu
      refine ⟨s₂, chunk, ?_, hP₂, ?_, fun a ha' _ t' ht' => ?_, fun m hm => ?_,
        fun m hm hplaced a ha' hc t' ht' => ?_⟩
      · rw [if_neg (by simp), htemp, bind_ok hreload]
        exact hrefer
      · have := hM₁.trans hM₂
        rwa [List.append_nil] at this
      · rw [ha] at ha'
        cases ha'
        obtain rfl : t' = t := Option.some.inj (ht'.symm.trans ht)
        exact ⟨u, by rw [htemp₂]; exact hu, harg⟩
      · exact (hargs₂ m hm).trans (hs₁ m)
      · obtain ⟨w, hw, hwarg⟩ := hplaced a ha' hc t' ht'
        have hmem : home f b t' ∈ inputs f i := by
          rw [hp.home_eq ht']
          exact mem_inputs.mpr ⟨⟨m, ha'⟩, hc⟩
        exact ⟨w, by rw [htemp₂]; exact hother t' hmem w hw,
          (hargs₂ m hm).trans ((hs₁ m).trans hwarg)⟩

end Recompiler.Pass.Allocation
