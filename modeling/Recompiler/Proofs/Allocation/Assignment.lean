import Recompiler.Proofs.Allocation.Spilling

/-!
A register for a value: that of a dying argument, a free one, or the one of the temporary that is
needed last.
-/
namespace Recompiler.Pass.Allocation

open IR IR.Fragment Interp Machine Meaning

variable {f : Fragment} {b : BlockId} {regs : Array Register} {s₀ s : State}
  {pre pre' : List InstrId} {pos cut : Int} {loading : Option Nat} {D R : List InstrId}
  {t bin : Nat} {j : InstrId} {v : ValueId} {ty : Ty}

/-! ### The choice -/

theorem free?_spec (h : free? regs s ty = some bin) :
    bin < regs.size ∧ s.bins.packed.getD bin none = none := by
  have hmem := List.mem_of_find?_eq_some h
  have hp := List.find?_some h
  simp only [Bool.and_eq_true, Option.isNone_iff_eq_none] at hp
  exact ⟨List.mem_range.mp hmem, hp.1⟩

theorem free?_none (h : free? regs s ty = none) (hlt : bin < regs.size)
    (hty : (regs.getD bin default).holds ty) : ∃ t, s.bins.packed.getD bin none = some t := by
  have := List.find?_eq_none.mp h bin (List.mem_range.mpr hlt)
  simp only [hty, Bool.and_true, Option.isNone_iff_eq_none] at this
  exact Option.ne_none_iff_exists'.mp this

theorem nextUse?_eq_some {u : Int} : nextUse? regs s ty bin = some u ↔
    ∃ t, s.bins.packed.getD bin none = some t ∧ (regs.getD bin default).holds ty ∧
      (temp s t).uses.head? = some u := by
  simp only [nextUse?, bind, Option.bind]
  cases s.bins.packed.getD bin none with
  | none => simp
  | some t =>
    cases hh : (regs.getD bin default).holds ty <;> simp [guard]

/-- One comparison of the search for a victim. -/
def further (regs : Array Register) (s : State) (ty : Ty) (best : Option (Nat × Int)) (bin : Nat) :
    Option (Nat × Int) :=
  match nextUse? regs s ty bin, best with
  | none, best => best
  | some u, none => some (bin, u)
  | some u, some (b, furthest) => if u > furthest then some (bin, u) else some (b, furthest)

theorem victim?_eq (regs : Array Register) (s : State) (ty : Ty) :
    victim? regs s ty = ((List.range regs.size).foldl (further regs s ty) none).map (·.1) := rfl

/-- The best of the first `n` bins is used at least as late as all of them. -/
def Best (regs : Array Register) (s : State) (ty : Ty) (n : Nat) : Option (Nat × Int) → Prop
  | none => ∀ k < n, nextUse? regs s ty k = none
  | some (bin, u) => bin < n ∧ nextUse? regs s ty bin = some u ∧
    ∀ k < n, ∀ w, nextUse? regs s ty k = some w → w ≤ u

theorem Best.next {n : Nat} {best : Option (Nat × Int)} (h : Best regs s ty n best) :
    Best regs s ty (n + 1) (further regs s ty best n) := by
  unfold further
  cases hn : nextUse? regs s ty n with
  | none =>
    cases best with
    | none =>
      intro k hk
      by_cases e : k = n
      · rw [e, hn]
      · exact h k (by omega)
    | some p =>
      obtain ⟨hlt, hu, hmax⟩ := h
      refine ⟨by omega, hu, fun k hk w hw => ?_⟩
      by_cases e : k = n
      · rw [e, hn] at hw
        cases hw
      · exact hmax k (by omega) w hw
  | some x =>
    cases best with
    | none =>
      refine ⟨Nat.lt_succ_self n, hn, fun k hk w hw => ?_⟩
      by_cases e : k = n
      · rw [e, hn] at hw
        exact Int.le_of_eq (Option.some.inj hw).symm
      · rw [h k (by omega)] at hw
        cases hw
    | some p =>
      obtain ⟨hlt, hu, hmax⟩ := h
      dsimp only
      split
      · next hgt =>
        refine ⟨Nat.lt_succ_self n, hn, fun k hk w hw => ?_⟩
        by_cases e : k = n
        · rw [e, hn] at hw
          exact Int.le_of_eq (Option.some.inj hw).symm
        · have := hmax k (by omega) w hw
          omega
      · next hle =>
        refine ⟨by omega, hu, fun k hk w hw => ?_⟩
        by_cases e : k = n
        · rw [e, hn] at hw
          cases hw
          omega
        · exact hmax k (by omega) w hw

theorem best_fold (regs : Array Register) (s : State) (ty : Ty) (n : Nat) :
    Best regs s ty n ((List.range n).foldl (further regs s ty) none) := by
  induction n with
  | zero => exact fun k hk => absurd hk (Nat.not_lt_zero k)
  | succ n ih =>
    rw [List.range_succ, List.foldl_append, List.foldl_cons, List.foldl_nil]
    exact ih.next

/-- The temporary in bin `bin` is used at least as late as those of all bins for a type. -/
structure Furthest (regs : Array Register) (s : State) (ty : Ty) (bin t : Nat) : Prop where
  lt : bin < regs.size
  packed_eq : s.bins.packed.getD bin none = some t
  le : ∀ k < regs.size, (regs.getD k default).holds ty → ∀ x,
    s.bins.packed.getD k none = some x → ∀ w, (temp s x).uses.head? = some w →
    ∃ u, (temp s t).uses.head? = some u ∧ w ≤ u

/-- A victim is found if there is a bin for the type. -/
theorem victim?_spec (hne : ∀ k x, s.bins.packed.getD k none = some x → (temp s x).uses ≠ [])
    (hreg : ∃ k < regs.size, (regs.getD k default).holds ty)
    (hfull : ∀ k < regs.size, (regs.getD k default).holds ty →
      ∃ x, s.bins.packed.getD k none = some x) :
    ∃ bin t, victim? regs s ty = some bin ∧ Furthest regs s ty bin t := by
  have hbest := best_fold regs s ty regs.size
  rw [victim?_eq]
  cases hv : (List.range regs.size).foldl (further regs s ty) none with
  | none =>
    rw [hv] at hbest
    obtain ⟨k, hk, hty⟩ := hreg
    obtain ⟨x, hx⟩ := hfull k hk hty
    cases hu : (temp s x).uses with
    | nil => exact absurd hu (hne k x hx)
    | cons u us =>
      have := nextUse?_eq_some.mpr ⟨x, hx, hty, by rw [hu]; rfl⟩
      rw [hbest k hk] at this
      cases this
  | some p =>
    obtain ⟨bin, u⟩ := p
    rw [hv] at hbest
    obtain ⟨hlt, hu, hmax⟩ := hbest
    obtain ⟨t, ht, -, huse⟩ := nextUse?_eq_some.mp hu
    refine ⟨bin, t, rfl, hlt, ht, fun k hk hty x hx w hw => ⟨u, huse, ?_⟩⟩
    exact hmax k hk w (nextUse?_eq_some.mpr ⟨x, hx, hty, hw⟩)

theorem exists_of_countP {p : Register → Bool} (h : 0 < regs.countP p) :
    ∃ k < regs.size, p (regs.getD k default) := by
  obtain ⟨r, hr, hp⟩ := Array.countP_pos_iff.mp h
  obtain ⟨k, hk, rfl⟩ := Array.getElem_of_mem hr
  exact ⟨k, hk, by simpa [Array.getD_eq_getD_getElem?, hk] using hp⟩

/-- The register of a dying first argument. -/
theorem reusable?_spec (h : reusable? regs s ty j = some bin) :
    ∃ a t u r, (s.fragment.instr j).arg 0 = some a ∧ s.fragment.isConstant a = false ∧
      s.tempOf[a]? = some t ∧ (temp s t).value = some u ∧ (temp s t).uses.length = 1 ∧
      (s.fragment.value u).reg = some r ∧ bin = r.toNat := by
  simp only [reusable?, bind, Option.bind_eq_some_iff, guard] at h
  obtain ⟨a, ha, _, hc, t, ht, u, hu, _, hlen, r, hr, _, _, _, _, hbin⟩ := h
  refine ⟨a, t, u, r, ha, ?_, ht, hu, ?_, hr, ?_⟩
  · split at hc
    · next e => simpa using e
    · cases hc
  · split at hlen
    · next e => exact e
    · cases hlen
  · exact (Option.some.inj hbin).symm

/-! ### The assignment -/

theorem Defines.widens {g g' : Fragment} (h : Defines f b D g j t v) (hw : Widens g g')
    (hj : j.index < g.instrs.size) {chunk : List InstrId} (hD : j ∉ D ++ chunk) :
    Defines f b (D ++ chunk) g' j t v where
  not_mem := hD
  result_eq := (hw.result_eq j hj).trans h.result_eq
  value_lt := Nat.lt_of_lt_of_le h.value_lt hw.values_le
  origin_eq := (hw.origin_eq v h.value_lt).trans h.origin_eq
  ty_eq := (hw.ty_eq v h.value_lt).trans h.ty_eq

theorem Ready.keeps {g g' : Fragment} {chunk : List InstrId} (h : Ready D g j) (hk : Keeps D g g')
    (hw : Widens g g') (hargs : (g'.instr j).args = (g.instr j).args) :
    Ready (D ++ chunk) g' j := by
  intro n u hu
  rw [Instr.arg, hargs] at hu
  rcases h n u hu with ⟨hlt, c, ho, hty, hstr⟩ | ⟨k, hkD, hres⟩
  · exact .inl ⟨Nat.lt_of_lt_of_le hlt hw.values_le, c, (hw.origin_eq u hlt).trans ho,
      (hw.ty_eq u hlt).trans hty, hstr⟩
  · exact .inr ⟨k, List.mem_append_left _ hkD, (hk.result_eq k hkD).trans hres⟩

/-- Temporary `x` lost its register to the value that `j` defines: it is the first argument of `j`
and dies there, or all bins for the type are taken and it is needed last. -/
def Evicted (regs : Array Register) (s : State) (ty : Ty) (j : InstrId) (x : Nat) : Prop :=
  (∃ a, (s.fragment.instr j).arg 0 = some a ∧ s.fragment.isConstant a = false ∧
    s.tempOf[a]? = some x) ∨
  (∃ bin, Furthest regs s ty bin x ∧ ∀ k < regs.size, (regs.getD k default).holds ty →
    ∃ y, s.bins.packed.getD k none = some y)

/-- The value `v` that `j` defines got a register, behind the stores `chunk`. -/
structure Assigned (f : Fragment) (b : BlockId) (regs : Array Register) (s₀ : State)
    (pre : List InstrId) (pos cut : Int) (D chunk R : List InstrId) (j : InstrId) (t : Nat)
    (v : ValueId) (s s' : State) : Prop where
  coded : Coded f b regs (D ++ chunk ++ [j]) R s'.fragment
  packed : Packed f b regs s₀ pre pos cut none (D ++ chunk ++ [j]) s'
  keeps : Keeps D s.fragment s'.fragment
  widens : Widens s.fragment s'.fragment
  args : ∀ i : InstrId, i.index < s.fragment.instrs.size →
    (s'.fragment.instr i).args = (s.fragment.instr i).args
  plain : ∀ k ∈ chunk, (s'.fragment.instr k).op.isBranch = false
  tempOf_eq : s'.tempOf = s.tempOf
  value_eq : (temp s' t).value = some v
  uses_eq : ∀ x, (temp s' x).uses = (temp s x).uses
  slot_eq : ∀ x l, (temp s x).slot = some l → (temp s' x).slot = some l
  slot_self : (temp s' t).slot = (temp s t).slot
  bins_le : ∀ k x, s'.bins.packed.getD k none = some x →
    x = t ∨ ∃ k', s.bins.packed.getD k' none = some x
  evicted : ∀ x, x ≠ t → (temp s' x).value = (temp s x).value ∨
    (temp s' x).value = none ∧ Evicted regs s (f.ty (home f b t)) j x
  stores : ∀ out, Keeps (D ++ chunk) s'.fragment out →
    s'.fragment.localsSize ≤ out.localsSize →
    ∀ {σ : Type} (gs : Guest σ) (o : Offsets) (rest : List InstrId) (cells : Cells)
      (rf : Array UInt64) (area base : Array UInt8) (w : World σ),
      area.size = out.localsSize.toNat → Holds f b regs s none cells rf area base →
      ∃ n area', GoesIn (Meaning.step out (Meaning.registers out) gs o) n
          ⟨⟨chunk ++ rest, []⟩, rf, ⟨area, w⟩⟩ ⟨⟨rest, []⟩, rf, ⟨area', w⟩⟩ ∧
        area'.size = area.size ∧ Holds f b regs s' (some t) cells rf area' base

/-- What is common to all ways to a register: the bin is emptied and filled. -/
theorem assigned_pack (hp : Prepared f b regs s₀) (hc : Coded f b regs D (j :: R) s.fragment)
    (h : Packed f b regs s₀ pre pos cut none D s) (ht : t < s.bins.temps.size)
    (hd : Defines f b D s.fragment j t v) (hr : Ready D s.fragment j)
    (hpre : ∀ u ∈ results f pre, u ∈ results f pre')
    (hnew : ∀ x < s.bins.temps.size, home f b x ∈ results f pre' →
      x = t ∨ home f b x ∈ results f pre) (hhome : home f b t ∈ results f pre')
    {s₂ : State} {chunk : List InstrId}
    (ha : Adds f b regs (some t) D chunk (j :: R) (setValue t v s) s₂)
    (h₂ : Packed f b regs s₀ pre pos cut (some t) (D ++ chunk) s₂)
    (hmap : s₂.tempOf = s.tempOf) (hbins : s₂.bins.packed = s.bins.packed)
    (htemp : ∀ x, (temp s₂ x).value = (temp (setValue t v s) x).value ∧
      (temp s₂ x).uses = (temp (setValue t v s) x).uses ∧
      (∀ l, (temp (setValue t v s) x).slot = some l → (temp s₂ x).slot = some l) ∧
      (x = t → (temp s₂ x).slot = (temp (setValue t v s) x).slot))
    (hlt : bin < regs.size)
    (hsafe : ∀ x, s.bins.packed.getD bin none = some x →
      (temp s₂ x).slot.isSome ∨ ∀ u ∈ (temp s₀ x).uses, u < cut)
    (hevict : ∀ x, s.bins.packed.getD bin none = some x →
      Evicted regs s (f.ty (home f b t)) j x) :
    Assigned f b regs s₀ pre' pos cut D chunk R j t v s (pack bin (some t) s₂) := by
  have hregs := hp.enough.size_le
  have hset := temp_setValue ht v
  have hj : j.index < s.fragment.instrs.size := hc.chain.lt j (by simp)
  have hjD : j ∉ D ++ chunk := by
    have := ha.coded.chain.nodup
    rw [List.perm_middle.nodup_iff, List.nodup_cons] at this
    exact fun hm => this.1 (List.mem_append_left _ hm)
  have hd₂ := hd.widens ha.widens hj hjD
  have hv₂ : (temp s₂ t).value = some v := by
    rw [(htemp t).1, hset, if_pos rfl]
  have hne : s₂.bins.packed.getD bin none ≠ some t := by
    intro hb
    exact (h₂.held bin t hb).1 rfl
  have hE : Packed f b regs s₀ pre pos cut (some t) (D ++ chunk) (pack bin none s₂) :=
    h₂.evict hregs fun x hx => hsafe x (hbins ▸ hx)
  obtain ⟨temps, hpack, hsize, -⟩ := pack_none_eq s₂ bin
  have hfree : (pack bin none s₂).bins.packed.getD bin none = none := by
    rw [hpack]
    dsimp only
    rw [getD_setIfInBounds, if_pos ⟨rfl, by rw [h₂.packed_size]; exact hlt⟩]
  have hfrag : (pack bin none s₂).fragment = s₂.fragment := by rw [hpack]
  have hsize₂ : (pack bin none s₂).bins.temps.size = s.bins.temps.size := by
    rw [hpack]
    exact hsize.trans (h₂.size_eq.trans h.size_eq.symm)
  have hvE : (temp (pack bin none s₂) t).value = some v := by
    rw [temp_pack_none, if_neg hne]
    exact hv₂
  have hcE : Coded f b regs (D ++ chunk) (j :: R) (pack bin none s₂).fragment := by
    rw [hfrag]
    exact ha.coded
  have hdE : Defines f b (D ++ chunk) (pack bin none s₂).fragment j t v := by
    rw [hfrag]
    exact hd₂
  have hrE : Ready (D ++ chunk) (pack bin none s₂).fragment j := by
    rw [hfrag]
    exact hr.keeps ha.keeps ha.widens (ha.args j hj)
  have hI := hE.install hcE hlt hfree hvE hdE hpre (by rw [hsize₂]; exact hnew) hhome
  have hcI := hcE.install hdE hlt hregs (hp.scalar (h.size_eq ▸ ht)) hrE hp.instr_lt
  have hkI := keeps_setReg (hcE.not_mentions hjD hdE.origin_eq) (some bin.toUInt8)
  have hwI := widens_setReg (pack bin none s₂).fragment v (some bin.toUInt8)
  rw [hfrag] at hkI hwI
  rw [pack_some_eq hv₂ hne]
  have hfragI : (install bin t v (pack bin none s₂)).fragment =
      s₂.fragment.modifyValue v ({ · with reg := some bin.toUInt8 }) := by
    rw [install, hfrag]
  have htempI : ∀ x, temp (install bin t v (pack bin none s₂)) x = temp (pack bin none s₂) x :=
    fun x => rfl
  have hkD : Keeps D s₂.fragment (install bin t v (pack bin none s₂)).fragment := by
    rw [hfragI]
    exact hkI.mono (List.subset_append_left D chunk)
  refine ⟨hcI, hI, ha.keeps.trans hkD, ?_, ?_, ?_, ?_, ?_, ?_, ?_, ?_, ?_, ?_, ?_⟩
  · rw [hfragI]
    exact ha.widens.trans hwI
  · intro i hi
    rw [hfragI]
    exact ha.args i hi
  · intro k hk
    rw [hfragI]
    exact ha.plain k hk
  · rw [install, hpack]
    exact hmap
  · rw [htempI]
    exact hvE
  · intro x
    rw [htempI, temp_pack_none]
    have : (temp s₂ x).uses = (temp s x).uses := by
      rw [(htemp x).2.1, hset]
      split
      · next e => rw [e]
      · rfl
    split <;> exact this
  · intro x l hl
    have : (temp s₂ x).slot = some l := by
      refine (htemp x).2.2.1 l ?_
      rw [hset, ← hl]
      split
      · next e => rw [e]
      · rfl
    rw [htempI, temp_pack_none]
    split <;> exact this
  · rw [htempI, temp_pack_none, if_neg hne, (htemp t).2.2.2 rfl, hset, if_pos rfl]
  · intro k x hx
    rw [install] at hx
    dsimp only at hx
    rw [getD_setIfInBounds] at hx
    split at hx
    · exact .inl (Option.some.inj hx).symm
    · rw [hpack] at hx
      dsimp only at hx
      rw [getD_setIfInBounds] at hx
      split at hx
      · cases hx
      · exact .inr ⟨k, hbins ▸ hx⟩
  · intro x hx
    rw [htempI, temp_pack_none]
    split
    · next e => exact .inr ⟨rfl, hevict x (hbins ▸ e)⟩
    · rw [(htemp x).1, hset, if_neg hx]
      exact .inl rfl
  · intro out hout hle σ gs o rest cells rf area base w harea hh
    have hout₂ : Keeps (D ++ chunk) s₂.fragment out := by
      refine Keeps.trans ?_ hout
      rw [hfragI]
      exact hkI
    have hle₂ : s₂.fragment.localsSize ≤ out.localsSize := by
      rw [hfragI] at hle
      exact hle
    obtain ⟨n, area', hgo, hsz, hh₂⟩ :=
      ha.stores out hout₂ hle₂ gs o rest cells rf area base w harea
      (hh.setValue ht v)
    exact ⟨n, area', hgo, hsz, (hh₂.evict bin).install hE hcE hdE bin⟩

theorem bind_modify {α : Type} (g : State → State) (k : Unit → Alloc α) (s : State) :
    (modify g >>= k : Alloc α) s = k () (g s) := rfl

theorem bind_get {α : Type} (k : State → Alloc α) (s : State) :
    (get >>= k : Alloc α) s = k s s := rfl

/-- Finding a register succeeds if there is one for the type. -/
theorem allocate_ok (hp : Prepared f b regs s₀) (hc : Coded f b regs D (j :: R) s.fragment)
    (h : Packed f b regs s₀ pre pos cut none D s) (hmap : s.tempOf[v]? = some t)
    (ht : t < s.bins.temps.size) (hnone : (temp s t).value = none)
    (hd : Defines f b D s.fragment j t v) (hr : Ready D s.fragment j)
    (hpre : ∀ u ∈ results f pre, u ∈ results f pre')
    (hnew : ∀ x < s.bins.temps.size, home f b x ∈ results f pre' →
      x = t ∨ home f b x ∈ results f pre) (hhome : home f b t ∈ results f pre')
    (hreg : ∃ k < regs.size, (regs.getD k default).holds (f.ty (home f b t)))
    (hdying : ∀ a, (s.fragment.instr j).arg 0 = some a → s.fragment.isConstant a = false →
      ∀ x, s.tempOf[a]? = some x → x ≠ t ∧ ((temp s x).uses.length = 1 →
        ∀ u ∈ (temp s₀ x).uses, u < cut)) :
    ∃ s' chunk, allocate regs v s = .ok ((), s') ∧
      Assigned f b regs s₀ pre' pos cut D chunk R j t v s s' := by
  have hset := temp_setValue ht v
  have hc₁ : Coded f b regs D (j :: R) (setValue t v s).fragment := hc
  have h₁ := h.setValue ht hnone v
  have hdef : ((setValue t v s).fragment.value v).definition? = some j := by
    rw [Value.definition?, show ((setValue t v s).fragment.value v).origin = _ from hd.origin_eq]
  have hty : (setValue t v s).fragment.ty v = f.ty (home f b t) := hd.ty_eq
  have hrun : allocate regs v s = assign regs t (f.ty (home f b t)) j (setValue t v s) := by
    have ht' : s.tempOf.getD v 0 = t := by
      rw [Std.HashMap.getD_eq_getD_getElem?, hmap]
      rfl
    unfold setValue at hdef hty ⊢
    rw [allocate, bind_get, ht', bind_modify, bind_get, hdef, hty]
  have hnot : ∀ k, (setValue t v s).bins.packed.getD k none ≠ some t := by
    intro k hk
    exact (h₁.held k t hk).1 rfl
  have huses : ∀ x, (temp (setValue t v s) x).uses = (temp s x).uses := by
    intro x
    rw [hset]
    split
    · next e => rw [e]
    · rfl
  rw [hrun]
  cases hchoice : reusable? regs (setValue t v s) (f.ty (home f b t)) j <|>
      free? regs (setValue t v s) (f.ty (home f b t)) with
  | some bin =>
    have hs' : assign regs t (f.ty (home f b t)) j (setValue t v s) =
        .ok ((), pack bin (some t) (setValue t v s)) := by
      rw [assign, bind_get, hchoice]
      rfl
    have hfacts : bin < regs.size ∧ ∀ x, s.bins.packed.getD bin none = some x →
        (∀ u ∈ (temp s₀ x).uses, u < cut) ∧ Evicted regs s (f.ty (home f b t)) j x := by
      cases hreuse : reusable? regs (setValue t v s) (f.ty (home f b t)) j with
      | some k =>
        rw [hreuse] at hchoice
        obtain rfl : k = bin := Option.some.inj hchoice
        obtain ⟨a, x, u, r, ha, hconst, hx, hu, hlen, hreg', hk⟩ := reusable?_spec hreuse
        obtain ⟨hxt, hover⟩ := hdying a ha hconst x hx
        obtain ⟨k', hk'⟩ := h₁.located x u (by simpa using Ne.symm hxt) hu
        obtain ⟨-, u', hu', hh⟩ := h₁.held k' x hk'
        obtain rfl : u' = u := Option.some.inj (hu'.symm.trans hu)
        have hr' : r = k'.toUInt8 := Option.some.inj (hreg'.symm.trans hh.reg_eq)
        have hkk : k = k' := by
          have : k'.toUInt8.toNat = k' % 2 ^ 8 := rfl
          have := hh.lt
          have := hp.enough.size_le
          rw [hk, hr']
          omega
        subst hkk
        refine ⟨hh.lt, fun y hy => ?_⟩
        obtain rfl : x = y := Option.some.inj (hk'.symm.trans hy)
        exact ⟨hover (huses x ▸ hlen), .inl ⟨a, ha, hconst, hx⟩⟩
      | none =>
        rw [hreuse] at hchoice
        obtain ⟨hlt, hempty⟩ := free?_spec (s := setValue t v s) hchoice
        refine ⟨hlt, fun x hx => ?_⟩
        rw [show s.bins.packed = (setValue t v s).bins.packed from rfl, hempty] at hx
        cases hx
    refine ⟨_, [], hs', assigned_pack hp hc h ht hd hr hpre hnew hhome (.refl hc₁)
      (by simpa using h₁)
      rfl rfl (fun _ => ⟨rfl, rfl, fun _ h => h, fun _ => rfl⟩) hfacts.1
        (fun x hx => .inr (hfacts.2 x hx).1)
      fun x hx => (hfacts.2 x hx).2⟩
  | none =>
    have hfree : free? regs (setValue t v s) (f.ty (home f b t)) = none := by
      cases hreuse : reusable? regs (setValue t v s) (f.ty (home f b t)) j with
      | some k =>
        rw [hreuse] at hchoice
        cases hchoice
      | none =>
        rw [hreuse] at hchoice
        exact hchoice
    have hfull : ∀ k < regs.size, (regs.getD k default).holds (f.ty (home f b t)) →
        ∃ x, (setValue t v s).bins.packed.getD k none = some x := fun k hk => free?_none hfree hk
    obtain ⟨bin, x, hvictim, hfurthest⟩ := victim?_spec (s := setValue t v s)
      (fun k x hx => by
        obtain ⟨-, u, hu, -⟩ := h₁.held k x hx
        exact h₁.nonempty x (value_lt_size hu)) hreg hfull
    obtain ⟨s₂, chunk, hspill, ha, h₂, hmap₂, hbins₂, hslot₂, htemp₂⟩ :=
      spill_ok hp hc₁ h₁ hfurthest.packed_eq
    have hs' : assign regs t (f.ty (home f b t)) j (setValue t v s) =
        .ok ((), pack bin (some t) s₂) := by
      rw [assign, bind_get, hchoice]
      dsimp only
      rw [hvictim]
      simp only [bind, StateT.bind, hspill, Except.bind]
      rfl
    have hx : ∀ y, s.bins.packed.getD bin none = some y → y = x := fun y hy =>
      Option.some.inj (hy.symm.trans hfurthest.packed_eq)
    have hxt : t ≠ x := by
      rintro rfl
      exact hnot bin hfurthest.packed_eq
    refine ⟨_, chunk, hs', assigned_pack hp hc h ht hd hr hpre hnew hhome ha h₂ hmap₂ hbins₂
      (fun y => ⟨(htemp₂ y).1, (htemp₂ y).2.1, (htemp₂ y).2.2.1,
        fun e => (htemp₂ y).2.2.2 (e ▸ hxt)⟩)
      hfurthest.lt (fun y hy => .inl (by rw [hx y hy]; exact hslot₂)) fun y hy => ?_⟩
    rw [hx y hy]
    refine .inr ⟨bin, ⟨hfurthest.lt, hfurthest.packed_eq, fun k hk hty' y' hy' w hw => ?_⟩, hfull⟩
    obtain ⟨u, hu, hle⟩ := hfurthest.le k hk hty' y' hy' w (by rw [huses]; exact hw)
    exact ⟨u, by rw [← huses]; exact hu, hle⟩

end Recompiler.Pass.Allocation
