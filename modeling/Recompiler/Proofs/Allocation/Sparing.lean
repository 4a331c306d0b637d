import Recompiler.Pass.Pipeline
import Recompiler.Proofs.Allocation.Correctness

/-!
Allocation spills nothing where the values that are still needed never outnumber the registers.
After expiry the bins hold just these values, so a result finds the register of a dying argument or
a free one, and arguments are where they were left.
-/
namespace Recompiler.Pass.Allocation

open IR IR.Fragment

variable {f g : Fragment} {b : BlockId} {regs : Array Register} {s₀ s : State}
  {pre post l l₁ l₂ : List InstrId} {pos pos' : Int} {t bin : Nat} {i : InstrId} {v : ValueId}

/-! ### Demand -/

/-- How many inputs of the instructions `l` are `v`. -/
def usesIn (f : Fragment) (l : List InstrId) (v : ValueId) : Nat := (l.flatMap (inputs f)).count v

/-- The results of `pre` that `post` uses. -/
def live (f : Fragment) (pre post : List InstrId) : List ValueId :=
  (results f pre).filter fun v => 0 < usesIn f post v

/-- The first argument of `i` is a result that neither `post` nor another argument of `i` uses. -/
def dies (f : Fragment) (i : InstrId) (post : List InstrId) : Bool :=
  ((f.instr i).arg 0).any fun v => !f.isConstant v && usesIn f (i :: post) v == 1

/-- How many registers are needed at `i`, which stands between `pre` and `post`. -/
def demand (f : Fragment) (pre : List InstrId) (i : InstrId) (post : List InstrId) : Nat :=
  (live f pre (i :: post)).length +
    if (f.instr i).result.isSome && !dies f i post then 1 else 0

theorem usesIn_pos : 0 < usesIn f l v ↔ ∃ i ∈ l, v ∈ inputs f i := by
  rw [usesIn, List.count_pos_iff, List.mem_flatMap]

theorem mem_live : v ∈ live f pre post ↔ v ∈ results f pre ∧ ∃ i ∈ post, v ∈ inputs f i := by
  rw [live, List.mem_filter, decide_eq_true_iff, usesIn_pos]

theorem dies_iff : dies f i post = true ↔
    ∃ v, (f.instr i).arg 0 = some v ∧ f.isConstant v = false ∧ usesIn f (i :: post) v = 1 := by
  rw [dies, Option.any_eq_true]
  simp only [Bool.and_eq_true, Bool.not_eq_true', beq_iff_eq]

/-! ### Fragments up to registers -/

/-- The value before it has a register. -/
def unplaced (v : Value) : Value := { v with reg := none }

/-- The fragment before any value has a register. -/
def withoutRegs (f : Fragment) : Fragment := { f with values := f.values.map unplaced }

theorem value_withoutRegs (f : Fragment) (v : ValueId) :
    (withoutRegs f).value v = unplaced (f.value v) := by
  rw [value, value, withoutRegs, Array.getD_eq_getD_getElem?, Array.getD_eq_getD_getElem?,
    Array.getElem?_map]
  cases f.values[v.index]? <;> rfl

theorem withoutRegs_modifyValue (f : Fragment) (v : ValueId) (r : Option UInt8) :
    withoutRegs (f.modifyValue v ({ · with reg := r })) = withoutRegs f := by
  have hvalues : (f.values.modify v.index ({ · with reg := r })).map unplaced =
      f.values.map unplaced := by
    apply Array.ext_getElem?
    intro n
    rw [Array.getElem?_map, Array.getElem?_map, Array.getElem?_modify]
    split
    · cases f.values[n]? <;> rfl
    · rfl
  rw [withoutRegs, withoutRegs, modifyValue, hvalues]

section
variable (h : withoutRegs g = withoutRegs f)
include h

theorem instr_of_withoutRegs (i : InstrId) : g.instr i = f.instr i := by
  have hinstrs := congrArg Fragment.instrs h
  exact congrArg (·.getD i.index default) hinstrs

theorem unplaced_of_withoutRegs (v : ValueId) : unplaced (g.value v) = unplaced (f.value v) := by
  rw [← value_withoutRegs, ← value_withoutRegs, h]

theorem origin_of_withoutRegs (v : ValueId) : (g.value v).origin = (f.value v).origin := by
  have horigin := congrArg Value.origin (unplaced_of_withoutRegs h v)
  exact horigin

theorem ty_of_withoutRegs (v : ValueId) : g.ty v = f.ty v := by
  have hty := congrArg Value.ty (unplaced_of_withoutRegs h v)
  exact hty

theorem isConstant_of_withoutRegs (v : ValueId) : g.isConstant v = f.isConstant v := by
  rw [isConstant, isConstant, Value.isConstant, Value.isConstant, origin_of_withoutRegs h]

theorem size_of_withoutRegs : g.values.size = f.values.size := by
  have hsize := congrArg (fun k : Fragment => k.values.size) h
  simpa [withoutRegs] using hsize

end

/-! ### Values and positions -/

/-- Nowhere in the only block are more registers needed than there are, and each of them holds every
result. -/
structure Spacious (regs : Array Register) (f : Fragment) (b : BlockId) : Prop
    extends Sequential f b where
  size_le : regs.size ≤ 256
  holds : ∀ r ∈ regs, ∀ v ∈ results f (f.blockInstrs b), r.holds (f.ty v)
  demand_le : ∀ l₁ i l₂, f.blockInstrs b = l₁ ++ i :: l₂ → demand f l₁ i l₂ ≤ regs.size

theorem results_append (f : Fragment) (l₁ l₂ : List InstrId) :
    results f (l₁ ++ l₂) = results f l₁ ++ results f l₂ := List.filterMap_append

section
variable (h : Sequential f b) (e : f.blockInstrs b = pre ++ post)
include h e

/-- A value that is defined before is not defined again. -/
theorem Sequential.result_ne (hv : v ∈ results f pre) (hi : i ∈ post) :
    (f.instr i).result ≠ some v := by
  intro hres
  have hb : b ∈ f.order := by simp [h.order_eq]
  obtain ⟨j, hj, hjv⟩ := mem_results.mp hv
  have hji : j = i := h.wellFormed.result_inj
    (WellFormed.mem_allInstrs hb (by rw [e]; exact List.mem_append_left _ hj))
    (WellFormed.mem_allInstrs hb (by rw [e]; exact List.mem_append_right _ hi)) hjv hres
  have hnodup := (h.wellFormed.chain b hb).nodup
  rw [e] at hnodup
  exact List.disjoint_of_nodup_append hnodup hj (hji ▸ hi)

/-- A value is used in the rest of the block exactly if it occurs from there on. -/
theorem Sequential.used_iff (hv : v ∈ results f pre) : (∃ i ∈ post, v ∈ inputs f i) ↔
    ∃ u ∈ occurrences f (f.blockInstrs b) v, stride * pre.length ≤ u := by
  constructor
  · rintro ⟨i, hi, hv⟩
    obtain ⟨l₁, l₂, rfl⟩ := List.append_of_mem hi
    refine ⟨_, mem_occurrences.mpr ⟨pre ++ l₁, i, l₂, by rw [e]; simp, rfl, .inr hv⟩, ?_⟩
    simp only [stride, List.length_append]
    omega
  · rintro ⟨u, hu, hle⟩
    obtain ⟨l₁, i, l₂, e', rfl, hi⟩ := mem_occurrences.mp hu
    have hlen : pre.length ≤ l₁.length := by
      simp only [stride] at hle
      omega
    have hmem : i ∈ post := by
      have hdrop := congrArg (List.drop pre.length) (e.symm.trans e')
      rw [List.drop_left, List.drop_append_of_le_length hlen] at hdrop
      simp [hdrop]
    exact ⟨i, hmem, hi.resolve_left (h.result_ne e hv hmem)⟩

end

/-- From the end of `pre` on, a value that `post` does not define occurs as often as it is used. -/
theorem length_later_occurrences (hv : ∀ i ∈ post, (f.instr i).result ≠ some v) :
    ((occurrences f (pre ++ post) v).filter (stride * pre.length ≤ ·)).length =
      usesIn f post v := by
  induction post using List.reverseRecOn with
  | nil =>
    have hnone : (occurrences f (pre ++ []) v).filter (stride * pre.length ≤ ·) = [] := by
      rw [List.filter_eq_nil_iff, List.append_nil]
      intro u hu
      obtain ⟨l₁, i, l₂, rfl, rfl, -⟩ := mem_occurrences.mp hu
      simp only [stride, List.length_append, List.length_cons, decide_eq_true_iff]
      omega
    rw [hnone]
    rfl
  | append_singleton post i ih =>
    have hi := hv i (by simp)
    have hle : stride * pre.length ≤ stride * (pre ++ post).length := by
      simp only [stride, List.length_append]
      omega
    rw [← List.append_assoc, occurrences_concat, List.filter_append, List.length_append,
      ih fun j hj => hv j (by simp [hj]), List.filter_replicate, if_pos (by simpa using hle),
      List.length_replicate, references, if_neg hi, Nat.zero_add, usesIn, usesIn,
      List.flatMap_append, List.count_append, List.flatMap_singleton]

/-! ### The invariant -/

/-- Up to `pre` nothing was spilled. The bins hold results of `pre`, and among them all that occur
from `pos` on. -/
structure Unspilled (f : Fragment) (regs : Array Register) (s₀ : State) (pre : List InstrId)
    (pos : Int) (s : State) : Prop where
  code_eq : withoutRegs s.fragment = withoutRegs f
  positions_eq : s.positions = s₀.positions
  tempOf_eq : s.tempOf = s₀.tempOf
  size_eq : s.bins.temps.size = s₀.bins.temps.size
  packed_size : s.bins.packed.size = regs.size
  spilled_eq : s.gprsSpilled = 0 ∧ s.fprsSpilled = 0
  uses : ∀ t, ∃ dropped, (temp s₀ t).uses = dropped ++ (temp s t).uses ∧ ∀ u ∈ dropped, u < pos
  nonempty : ∀ t < s.bins.temps.size, (temp s t).uses ≠ []
  held : ∀ bin t, s.bins.packed.getD bin none = some t → ∃ v, (results f pre)[t]? = some v ∧
    (temp s t).value = some v ∧ (s.fragment.value v).reg = some bin.toUInt8
  located : ∀ (t : Nat) (v : ValueId), (results f pre)[t]? = some v →
    (∃ u ∈ (temp s₀ t).uses, pos ≤ u) → ∃ bin, s.bins.packed.getD bin none = some t

/-- A temporary gets a value and goes into a bin that holds another one or none. -/
theorem pack_setValue (hne : s.bins.packed.getD bin none ≠ some t) (ht : t < s.bins.temps.size)
    (v : ValueId) : ∃ temps : Array Temp, pack bin (some t) (setValue t v s) =
      { s with
        fragment := s.fragment.modifyValue v ({ · with reg := some bin.toUInt8 })
        bins := ⟨s.bins.packed.setIfInBounds bin (some t), temps⟩ } ∧
      temps.size = s.bins.temps.size ∧ ∀ x, temps.getD x default =
        if x = t then { temp s t with value := some v }
        else if s.bins.packed.getD bin none = some x then { temp s x with value := none }
        else temp s x := by
  have hset := temp_setValue ht v
  have hv : (temp (setValue t v s) t).value = some v := by rw [hset, if_pos rfl]
  -- The bin is emptied first.
  obtain ⟨temps, hpack, hsize, htemps⟩ := pack_none_eq (setValue t v s) bin
  refine ⟨temps, ?_, hsize.trans (size_temps_modifyTemp ..), fun x => ?_⟩
  · rw [pack_some_eq hv hne, install, hpack]
    dsimp only
    rw [Array.setIfInBounds_setIfInBounds]
    rfl
  · rw [htemps x, hset]
    change (if s.bins.packed.getD bin none = some x then _ else _) = _
    by_cases e : x = t
    · subst e
      rw [if_neg hne]
      simp
    · simp [e]

namespace Unspilled

variable (h : Unspilled f regs s₀ pre pos s)
include h

theorem mono (hpos : pos ≤ pos') : Unspilled f regs s₀ pre pos' s :=
  { h with
    uses := fun t => by
      obtain ⟨dropped, hd, hlt⟩ := h.uses t
      exact ⟨dropped, hd, fun u hu => Int.lt_of_lt_of_le (hlt u hu) hpos⟩
    located := fun t v hv ⟨u, hu, hle⟩ => h.located t v hv ⟨u, hu, Int.le_trans hpos hle⟩ }

theorem bin_lt (hb : s.bins.packed.getD bin none = some t) : bin < regs.size := by
  have hlt := lt_of_packed hb
  rwa [h.packed_size] at hlt

theorem bin_eq (hregs : regs.size ≤ 256) {k : Nat} {r : UInt8}
    (hk : s.bins.packed.getD k none = some t) (hv : (temp s t).value = some v)
    (hr : (s.fragment.value v).reg = some r) : r.toNat = k := by
  obtain ⟨u, -, hu, hreg⟩ := h.held k t hk
  obtain rfl : u = v := Option.some.inj (hu.symm.trans hv)
  obtain rfl : r = k.toUInt8 := Option.some.inj (hr.symm.trans hreg)
  have hlt := h.bin_lt hk
  have : k.toUInt8.toNat = k % 2 ^ 8 := rfl
  omega

theorem bin_unique (hregs : regs.size ≤ 256) {k k' : Nat}
    (hk : s.bins.packed.getD k none = some t) (hk' : s.bins.packed.getD k' none = some t) :
    k = k' := by
  obtain ⟨v, -, hv, hreg⟩ := h.held k t hk
  exact (h.bin_eq hregs hk hv hreg).symm.trans (h.bin_eq hregs hk' hv hreg)

/-! ### Expiry -/

theorem forget (t : Nat) : Unspilled f regs s₀ pre pos (forget pos t s) := by
  have htemp := temp_forget pos s t
  have hsize : (Allocation.forget pos t s).bins.temps.size = s.bins.temps.size :=
    size_temps_modifyTemp ..
  refine ⟨h.code_eq, h.positions_eq, h.tempOf_eq, hsize.trans h.size_eq, h.packed_size,
    h.spilled_eq, fun x => ?_, fun x hx => ?_, fun k x hk => ?_, h.located⟩
  · obtain ⟨dropped, hd, hlt⟩ := h.uses x
    rw [htemp]
    dsimp only
    split
    · obtain ⟨dropped', hd', hlt'⟩ := dropUses_suffix pos (temp s x).uses
      refine ⟨dropped ++ dropped', by rw [List.append_assoc, ← hd', hd], fun u hu => ?_⟩
      exact (List.mem_append.mp hu).elim (hlt u) (hlt' u)
    · exact ⟨dropped, hd, hlt⟩
  · rw [htemp]
    dsimp only
    split
    · exact dropUses_ne_nil (h.nonempty x (hsize ▸ hx))
    · exact h.nonempty x (hsize ▸ hx)
  · rw [htemp]
    exact h.held k x hk

/-- A bin is emptied whose temporary does not occur any more. -/
theorem evict (hregs : regs.size ≤ 256) (hover : ∀ t, s.bins.packed.getD bin none = some t →
    ∀ u ∈ (temp s₀ t).uses, u < pos) : Unspilled f regs s₀ pre pos (pack bin none s) := by
  obtain ⟨temps, hpack, hsize, -⟩ := pack_none_eq s bin
  have htemp := temp_pack_none s bin
  have hpacked : ∀ k t, (pack bin none s).bins.packed.getD k none = some t →
      s.bins.packed.getD k none = some t ∧ k ≠ bin := by
    intro k t hk
    rw [hpack] at hk
    dsimp only at hk
    rw [getD_setIfInBounds] at hk
    split at hk
    · cases hk
    · next hne =>
      refine ⟨hk, fun e => hne ⟨e.symm, lt_of_packed hk⟩⟩
  refine ⟨by rw [hpack]; exact h.code_eq, by rw [hpack]; exact h.positions_eq,
    by rw [hpack]; exact h.tempOf_eq, by rw [hpack]; exact hsize.trans h.size_eq,
    by rw [hpack]; simpa using h.packed_size, by rw [hpack]; exact h.spilled_eq,
    fun x => ?_, fun x hx => ?_, fun k x hk => ?_, fun x v hv huse => ?_⟩
  · rw [htemp]
    split <;> exact h.uses x
  · rw [hpack] at hx
    have hne := h.nonempty x (hsize ▸ hx)
    rw [htemp]
    split <;> exact hne
  · obtain ⟨hk, hne⟩ := hpacked k x hk
    rw [htemp, if_neg fun hb => hne (h.bin_unique hregs hk hb), hpack]
    exact h.held k x hk
  · obtain ⟨k, hk⟩ := h.located x v hv huse
    refine ⟨k, ?_⟩
    rw [hpack]
    dsimp only
    rw [getD_setIfInBounds, if_neg]
    · exact hk
    · rintro ⟨rfl, -⟩
      obtain ⟨u, hu, hle⟩ := huse
      exact absurd (hover x hk u hu) (by omega)

theorem expire_ok (hregs : regs.size ≤ 256) : Unspilled f regs s₀ pre pos (expire pos s) ∧
    Live pos regs.size (expire pos s) := by
  have hfold : ∀ n, Unspilled f regs s₀ pre pos ((List.range n).foldl (expireBin pos) s) ∧
      Live pos n ((List.range n).foldl (expireBin pos) s) := by
    intro n
    induction n with
    | zero => exact ⟨h, fun k hk => absurd hk (Nat.not_lt_zero k)⟩
    | succ n ih =>
      rw [List.range_succ, List.foldl_append, List.foldl_cons, List.foldl_nil]
      generalize (List.range n).foldl (expireBin pos) s = s₁ at ih ⊢
      obtain ⟨h₁, hlive⟩ := ih
      refine ⟨?_, hlive.expireBin fun k t hk hb => h₁.bin_unique hregs hk hb⟩
      rcases expireBin_cases pos s₁ n with ⟨-, heq⟩ | ⟨t, hb, ⟨heq, hover⟩ | ⟨heq, -⟩⟩
      · rwa [heq]
      · rw [heq]
        refine (h₁.forget t).evict hregs fun x hx u hu => ?_
        obtain rfl : t = x := Option.some.inj (hb.symm.trans hx)
        obtain ⟨dropped, hd, hlt⟩ := (h₁.forget t).uses t
        rw [temp_forget, if_pos rfl] at hd
        rw [hd] at hu
        exact (List.mem_append.mp hu).elim (hlt u) (hover u)
      · rw [heq]
        exact h₁.forget t
  rw [expire, h.packed_size]
  exact hfold regs.size

/-! ### A result -/

/-- The result of the next instruction goes into a bin that is empty or whose temporary does not
occur behind the instruction. -/
theorem place (hregs : regs.size ≤ 256) (hpos : pos ≤ pos') (hres : (f.instr i).result = some v)
    (ht : (results f pre)[t]? = none) (ht' : (results f (pre ++ [i]))[t]? = some v)
    (htlt : t < s.bins.temps.size) (hvlt : v.index < f.values.size)
    (hnew : v ∉ results f pre) (hbin : bin < regs.size)
    (hover : ∀ x, s.bins.packed.getD bin none = some x → ∀ u ∈ (temp s₀ x).uses, u < pos') :
    Unspilled f regs s₀ (pre ++ [i]) pos' (pack bin (some t) (setValue t v s)) := by
  have hresults : results f (pre ++ [i]) = results f pre ++ [v] := by
    rw [results_concat, hres]
    rfl
  have hfresh : s.bins.packed.getD bin none ≠ some t := by
    intro hb
    obtain ⟨w, hw, -⟩ := h.held bin t hb
    rw [ht] at hw
    cases hw
  have hpacked : ∀ k, (s.bins.packed.setIfInBounds bin (some t)).getD k none =
      if k = bin then some t else s.bins.packed.getD k none := by
    intro k
    rw [getD_setIfInBounds, h.packed_size]
    by_cases e : k = bin
    · rw [if_pos ⟨e.symm, e ▸ hbin⟩, if_pos e]
    · rw [if_neg fun hk => e hk.1.symm, if_neg e]
  have hwide := h.mono hpos
  obtain ⟨temps, hpack, hsize, htemps⟩ := pack_setValue hfresh htlt v
  have huses : ∀ x, (temps.getD x default).uses = (temp s x).uses := by
    intro x
    rw [htemps]
    split
    · next e => rw [e]
    · split <;> rfl
  rw [hpack]
  constructor
  · exact (withoutRegs_modifyValue ..).trans h.code_eq
  · exact h.positions_eq
  · exact h.tempOf_eq
  · exact hsize.trans h.size_eq
  · exact (Array.size_setIfInBounds ..).trans h.packed_size
  · exact h.spilled_eq
  · intro x
    obtain ⟨dropped, hd, hlt⟩ := hwide.uses x
    exact ⟨dropped, hd.trans (congrArg _ (huses x).symm), hlt⟩
  · intro x hx
    rw [temp, huses]
    exact h.nonempty x (hsize ▸ hx)
  · intro k x hk
    rw [hpacked] at hk
    split at hk
    · next e =>
      obtain rfl := Option.some.inj hk
      refine ⟨v, ht', ?_, ?_⟩
      · rw [temp, htemps, if_pos rfl]
      · have hlt : v.index < s.fragment.values.size := by
          rwa [size_of_withoutRegs h.code_eq]
        rw [value_modifyValue, if_pos ⟨rfl, hlt⟩, e]
    · next e =>
      obtain ⟨w, hw, hval, hreg⟩ := h.held k x hk
      have hxt : x ≠ t := by
        rintro rfl
        rw [ht] at hw
        cases hw
      have hwv : w ≠ v := by
        rintro rfl
        exact hnew (List.mem_of_getElem? hw)
      refine ⟨w, ?_, ?_, ?_⟩
      · rw [hresults, List.getElem?_append_left (results_getElem?_lt hw)]
        exact hw
      · rw [temp, htemps, if_neg hxt, if_neg fun hb => e (h.bin_unique hregs hk hb)]
        exact hval
      · rw [value_modifyValue, if_neg fun hw' => hwv hw'.1]
        exact hreg
  · intro x w hw huse
    by_cases e : x = t
    · exact ⟨bin, by rw [hpacked, if_pos rfl, e]⟩
    · have hw' : (results f pre)[x]? = some w := by
        have hge := List.getElem?_eq_none_iff.mp ht
        have hlt := results_getElem?_lt ht'
        have hlt' := results_getElem?_lt hw
        rw [hresults, List.length_append, List.length_singleton] at hlt hlt'
        rw [hresults, List.getElem?_append_left (by omega)] at hw
        exact hw
      obtain ⟨k, hk⟩ := hwide.located x w hw' huse
      refine ⟨k, ?_⟩
      rw [hpacked, if_neg]
      · exact hk
      · rintro rfl
        obtain ⟨u, hu, hle⟩ := huse
        exact absurd (hover x hk u hu) (by omega)

end Unspilled

/-! ### One instruction -/

section
variable (hs : Spacious regs f b) (hr : Recorded f (f.blockInstrs b) s₀)
  (h : Unspilled f regs s₀ pre (stride * pre.length) s) (e : f.blockInstrs b = pre ++ i :: post)
include hs hr h e

/-- An input is in a register. -/
theorem Unspilled.input (hv : v ∈ inputs f i) : ∃ t bin, s.tempOf[v]? = some t ∧
    (results f pre)[t]? = some v ∧ s.bins.packed.getD bin none = some t ∧
    (temp s t).value = some v ∧ (s.fragment.value v).reg = some bin.toUInt8 := by
  have hpre : v ∈ results f pre := mem_results.mpr (hs.defined pre i post e v hv)
  obtain ⟨t, ht⟩ := List.getElem?_of_mem hpre
  have hall : (results f (f.blockInstrs b))[t]? = some v := by
    rw [e, results_append, List.getElem?_append_left (results_getElem?_lt ht)]
    exact ht
  have huse := (hs.used_iff e hpre).mp ⟨i, List.mem_cons_self, hv⟩
  rw [← hr.uses_eq t v hall] at huse
  obtain ⟨bin, hb⟩ := h.located t v ht huse
  obtain ⟨w, hw, hval, hreg⟩ := h.held bin t hb
  obtain rfl : w = v := Option.some.inj (hw.symm.trans ht)
  exact ⟨t, bin, by rw [h.tempOf_eq]; exact (hr.tempOf_iff w t).mpr hall, ht, hb, hval, hreg⟩

/-- Arguments stay as they are. -/
theorem Unspilled.placeArg_eq (n : Slot) : placeArg regs i n s = .ok ((), s) := by
  rw [placeArg, bind_get, instr_of_withoutRegs h.code_eq]
  cases ha : (f.instr i).arg n with
  | none => rfl
  | some v =>
    dsimp only
    rw [isConstant_of_withoutRegs h.code_eq]
    cases hc : f.isConstant v with
    | true => rfl
    | false =>
      obtain ⟨t, bin, hmap, -, -, hval, -⟩ := h.input hs hr e (mem_inputs.mpr ⟨⟨n, ha⟩, hc⟩)
      have ht : s.tempOf.getD v 0 = t := by
        rw [Std.HashMap.getD_eq_getD_getElem?, hmap]
        rfl
      have hreload : reload regs i n t s = .ok ((), s) := by
        rw [reload, bind_get, hval]
        rfl
      have hrefer : refer i n v t s = .ok ((), s) := by
        unfold refer
        change Except.ok ((), _) = _
        simp [hval]
      rw [ht, if_neg (by simp), bind_ok hreload]
      exact hrefer

/-- The register that is taken over belongs to an argument that does not occur any more. -/
theorem Unspilled.reusable (ht : (results f pre)[t]? = none) (htlt : t < s.bins.temps.size)
    {ty : Ty} (hbin : reusable? regs (setValue t v s) ty i = some bin) :
    bin < regs.size ∧ ∀ x, s.bins.packed.getD bin none = some x →
      ∀ u ∈ (temp s₀ x).uses, u < stride * (pre ++ [i]).length := by
  obtain ⟨a, x, u, r, ha, hc, hmap, hval, hlen, hreg, rfl⟩ := reusable?_spec hbin
  change (s.fragment.instr i).arg 0 = some a at ha
  change s.fragment.isConstant a = false at hc
  rw [instr_of_withoutRegs h.code_eq] at ha
  rw [isConstant_of_withoutRegs h.code_eq] at hc
  have hinput : a ∈ inputs f i := mem_inputs.mpr ⟨⟨0, ha⟩, hc⟩
  obtain ⟨x', k, hmap', hx, hk, hval', hreg'⟩ := h.input hs hr e hinput
  obtain rfl : x' = x := Option.some.inj (hmap'.symm.trans hmap)
  have hxt : x' ≠ t := by
    rintro rfl
    rw [ht] at hx
    cases hx
  rw [temp_setValue htlt, if_neg hxt] at hval hlen
  have hbin := h.bin_eq hs.size_le hk hval hreg
  refine ⟨hbin ▸ h.bin_lt hk, ?_⟩
  intro y hy
  rw [hbin, hk] at hy
  obtain rfl := Option.some.inj hy
  -- The only use that is left is the one here.
  have hall : (results f (f.blockInstrs b))[x']? = some a := by
    rw [e, results_append, List.getElem?_append_left (results_getElem?_lt hx)]
    exact hx
  have hhere : stride * pre.length ∈ (temp s₀ x').uses := by
    rw [hr.uses_eq x' a hall]
    exact mem_occurrences.mpr ⟨pre, i, post, e, rfl, .inr hinput⟩
  obtain ⟨dropped, hd, hlt⟩ := h.uses x'
  obtain ⟨z, hz⟩ := List.length_eq_one_iff.mp hlen
  rw [hz] at hd
  have hpos : z = stride * pre.length := by
    rw [hd] at hhere
    rcases List.mem_append.mp hhere with hm | hm
    · exact absurd (hlt _ hm) (Int.lt_irrefl _)
    · exact (List.mem_singleton.mp hm).symm
  have hnext : stride * pre.length < stride * (pre ++ [i]).length := by
    simp only [stride, List.length_append, List.length_singleton]
    omega
  intro w hw
  rw [hd] at hw
  rcases List.mem_append.mp hw with hm | hm
  · exact Int.lt_trans (hlt w hm) hnext
  · rw [List.mem_singleton.mp hm, hpos]
    exact hnext

variable (hlive : Live (stride * pre.length) regs.size s)
include hlive

/-- What a bin holds behind expiry is still used. -/
theorem Unspilled.mem_live (hb : s.bins.packed.getD bin none = some t)
    (hv : (results f pre)[t]? = some v) : v ∈ live f pre (i :: post) := by
  have hall : (results f (f.blockInstrs b))[t]? = some v := by
    rw [e, results_append, List.getElem?_append_left (results_getElem?_lt hv)]
    exact hv
  have htlt : t < s.bins.temps.size := by
    rw [h.size_eq, hr.size_eq]
    exact results_getElem?_lt hall
  obtain ⟨u, us, hu⟩ := List.exists_cons_of_ne_nil (h.nonempty t htlt)
  have hle : stride * pre.length ≤ u := hlive bin (h.bin_lt hb) t hb u (by rw [hu]; rfl)
  have hmem : u ∈ (temp s₀ t).uses := by
    obtain ⟨dropped, hd, -⟩ := h.uses t
    rw [hd, hu]
    simp
  rw [hr.uses_eq t v hall] at hmem
  have hpre := List.mem_of_getElem? hv
  exact Allocation.mem_live.mpr ⟨hpre, (hs.used_iff e hpre).mpr ⟨u, hmem, hle⟩⟩

/-- If all bins are taken, as many values are still used. -/
theorem Unspilled.size_le_live
    (hfull : ∀ bin < regs.size, ∃ t, s.bins.packed.getD bin none = some t) :
    regs.size ≤ (live f pre (i :: post)).length := by
  have hbins : ∀ bin, ∃ v, bin < regs.size → v ∈ live f pre (i :: post) ∧
      (s.fragment.value v).reg = some bin.toUInt8 := by
    intro bin
    by_cases hbin : bin < regs.size
    · obtain ⟨t, hb⟩ := hfull bin hbin
      obtain ⟨v, hv, -, hreg⟩ := h.held bin t hb
      exact ⟨v, fun _ => ⟨h.mem_live hs hr e hlive hb hv, hreg⟩⟩
    · exact ⟨default, fun hbin' => absurd hbin' hbin⟩
  choose occupant hoccupant using hbins
  have hnodup : ((List.range regs.size).map occupant).Nodup := by
    refine List.Nodup.map_on (fun k hk k' hk' heq => ?_) List.nodup_range
    rw [List.mem_range] at hk hk'
    have hreg := (hoccupant k hk).2
    rw [heq, (hoccupant k' hk').2, Option.some.injEq] at hreg
    have htoNat := congrArg UInt8.toNat hreg
    have hsize := hs.size_le
    change k' % 2 ^ 8 = k % 2 ^ 8 at htoNat
    omega
  have hsub : (List.range regs.size).map occupant ⊆ live f pre (i :: post) := by
    intro v hv
    obtain ⟨k, hk, rfl⟩ := List.mem_map.mp hv
    exact (hoccupant k (List.mem_range.mp hk)).1
  have hle := hnodup.length_le_of_subset hsub
  rwa [List.length_map, List.length_range] at hle

/-- Behind expiry a temporary has the uses that are left. -/
theorem Unspilled.length_uses (hb : s.bins.packed.getD bin none = some t)
    (hv : (results f pre)[t]? = some v) :
    (temp s t).uses.length = usesIn f (i :: post) v := by
  have hall : (results f (f.blockInstrs b))[t]? = some v := by
    rw [e, results_append, List.getElem?_append_left (results_getElem?_lt hv)]
    exact hv
  obtain ⟨dropped, hd, hlt⟩ := h.uses t
  have hsorted := hr.sorted t
  rw [hd, List.pairwise_append] at hsorted
  have hlater : ∀ u ∈ (temp s t).uses, stride * pre.length ≤ u := by
    cases hu : (temp s t).uses with
    | nil => simp
    | cons w ws =>
      have hw : stride * pre.length ≤ w := hlive bin (h.bin_lt hb) t hb w (by rw [hu]; rfl)
      have hsorted' := hsorted.2.1
      rw [hu, List.pairwise_cons] at hsorted'
      intro u hmem
      rcases List.mem_cons.mp hmem with rfl | hmem
      · exact hw
      · exact Int.le_trans hw (hsorted'.1 u hmem)
  have hcount : ((occurrences f (pre ++ i :: post) v).filter
      (stride * pre.length ≤ ·)).length = usesIn f (i :: post) v :=
    length_later_occurrences fun j hj => hs.result_ne e (List.mem_of_getElem? hv) hj
  rw [← e, ← hr.uses_eq t v hall, hd, List.filter_append] at hcount
  have hnone : dropped.filter (stride * pre.length ≤ ·) = [] := by
    rw [List.filter_eq_nil_iff]
    intro u hu
    have := hlt u hu
    simpa using this
  have hwhole : (temp s t).uses.filter (stride * pre.length ≤ ·) = (temp s t).uses :=
    List.filter_eq_self.mpr fun u hu => by simpa using hlater u hu
  rwa [hnone, hwhole, List.nil_append] at hcount

/-- The register of a dying argument is taken over. -/
theorem Unspilled.reuses (ht : (results f pre)[t]? = none) (htlt : t < s.bins.temps.size)
    (hdies : dies f i post = true) {ty : Ty} (hty : ∀ r ∈ regs, r.holds ty) :
    ∃ bin, reusable? regs (setValue t v s) ty i = some bin := by
  obtain ⟨a, ha, hc, hone⟩ := dies_iff.mp hdies
  obtain ⟨x, k, hmap, hx, hk, hval, hreg⟩ := h.input hs hr e (mem_inputs.mpr ⟨⟨0, ha⟩, hc⟩)
  have hxt : x ≠ t := by
    rintro rfl
    rw [ht] at hx
    cases hx
  have htemp : temp (setValue t v s) x = temp s x := by rw [temp_setValue htlt, if_neg hxt]
  have hlen : (temp s x).uses.length = 1 := by rw [h.length_uses hs hr e hlive hk hx, hone]
  have htoNat := h.bin_eq hs.size_le hk hval hreg
  have hklt := h.bin_lt hk
  have harg : ((setValue t v s).fragment.instr i).arg 0 = some a := by
    change (s.fragment.instr i).arg 0 = some a
    rw [instr_of_withoutRegs h.code_eq]
    exact ha
  have hconst : (setValue t v s).fragment.isConstant a = false :=
    (isConstant_of_withoutRegs h.code_eq a).trans hc
  have hmap' : (setValue t v s).tempOf[a]? = some x := hmap
  have hreg' : ((setValue t v s).fragment.value a).reg = some k.toUInt8 := hreg
  have hholds : regs[k].holds ty := hty _ (Array.getElem_mem hklt)
  refine ⟨k, ?_⟩
  rw [reusable?]
  simp [harg, hconst, hmap', htemp, hval, hlen, hreg', htoNat, hklt, hholds]

/-- A register is found without a spill. -/
theorem Unspilled.finds (hv : (f.instr i).result = some v) (ht : (results f pre)[t]? = none)
    (htlt : t < s.bins.temps.size) :
    ∃ bin, (reusable? regs (setValue t v s) (f.ty v) i <|>
        free? regs (setValue t v s) (f.ty v)) = some bin ∧
      bin < regs.size ∧ ∀ x, s.bins.packed.getD bin none = some x →
        ∀ u ∈ (temp s₀ x).uses, u < stride * (pre ++ [i]).length := by
  have hty : ∀ r ∈ regs, r.holds (f.ty v) := fun r hr' =>
    hs.holds r hr' v (mem_results.mpr ⟨i, by rw [e]; simp, hv⟩)
  cases hreuse : reusable? regs (setValue t v s) (f.ty v) i with
  | some bin => exact ⟨bin, rfl, h.reusable hs hr e ht htlt hreuse⟩
  | none =>
    cases hfree : free? regs (setValue t v s) (f.ty v) with
    | some bin =>
      obtain ⟨hlt, hempty⟩ := free?_spec hfree
      change s.bins.packed.getD bin none = none at hempty
      refine ⟨bin, rfl, hlt, fun x hx => ?_⟩
      rw [hempty] at hx
      cases hx
    | none =>
      -- All bins hold values that are needed, and one more register would be.
      exfalso
      have hdies : dies f i post = false := by
        by_contra hdies
        rw [Bool.not_eq_false] at hdies
        obtain ⟨bin, hbin⟩ := h.reuses (v := v) hs hr e hlive ht htlt hdies hty
        rw [hreuse] at hbin
        cases hbin
      have hfull : ∀ bin < regs.size, ∃ t, s.bins.packed.getD bin none = some t := by
        intro bin hbin
        refine free?_none hfree hbin ?_
        rw [Array.getD_eq_getD_getElem?, Array.getElem?_eq_getElem hbin]
        exact hty _ (Array.getElem_mem hbin)
      have hle := h.size_le_live hs hr e hlive hfull
      have hdemand := hs.demand_le pre i post e
      simp only [demand, hv, hdies, Option.isSome_some, Bool.not_false, Bool.and_self,
        if_true] at hdemand
      omega

end

/-- An instruction is visited without a spill. -/
theorem Unspilled.visitInstr_ok (hs : Spacious regs f b) (hr : Recorded f (f.blockInstrs b) s₀)
    (hnumber : s₀.positions = number f [b]) (e : f.blockInstrs b = pre ++ i :: post)
    (h : Unspilled f regs s₀ pre (stride * pre.length) s) :
    ∃ s', visitInstr regs i s = .ok ((), s') ∧
      Unspilled f regs s₀ (pre ++ [i]) (stride * (pre ++ [i]).length) s' := by
  have hb : b ∈ f.order := by simp [hs.order_eq]
  have hnodup := (hs.wellFormed.chain b hb).nodup
  have hpos : position s i = stride * pre.length := by
    rw [position, h.positions_eq, hnumber]
    exact getD_number (e ▸ hnodup) e
  obtain ⟨h₁, hlive⟩ := h.expire_ok hs.size_le
  generalize hs₁ : expire (stride * pre.length) s = s₁ at h₁ hlive
  have hnext : stride * pre.length ≤ stride * (pre ++ [i]).length := by
    simp only [stride, List.length_append, List.length_singleton]
    omega
  have hargs : (List.finRange 3).forM (placeArg regs i) s₁ = .ok ((), s₁) := by
    change (placeArg regs i 0 >>= fun _ => placeArg regs i 1 >>= fun _ => placeArg regs i 2 >>=
      fun _ => pure ()) s₁ = _
    rw [bind_ok (h₁.placeArg_eq hs hr e 0), bind_ok (h₁.placeArg_eq hs hr e 1),
      bind_ok (h₁.placeArg_eq hs hr e 2)]
    rfl
  rw [visitInstr, bind_modify, hpos, hs₁, bind_ok hargs, bind_get,
    instr_of_withoutRegs h₁.code_eq]
  cases hv : (f.instr i).result with
  | none =>
    refine ⟨s₁, rfl, ?_⟩
    have hresults : results f (pre ++ [i]) = results f pre := by
      rw [results_concat, hv]
      simp
    have hwide := h₁.mono hnext
    exact { hwide with
      held := by rw [hresults]; exact hwide.held
      located := by rw [hresults]; exact hwide.located }
  | some v =>
    have hi : i ∈ f.allInstrs := WellFormed.mem_allInstrs hb (by rw [e]; simp)
    obtain ⟨hvlt, horigin⟩ := hs.wellFormed.result i hi v hv
    have hnew : v ∉ results f pre := fun hm => hs.result_ne e hm List.mem_cons_self hv
    have hall : (results f (f.blockInstrs b))[(results f pre).length]? = some v := by
      rw [e, results_append, List.getElem?_append_right (Nat.le_refl _), Nat.sub_self, results,
        List.filterMap_cons, hv]
      rfl
    have ht : (results f pre)[(results f pre).length]? = none :=
      List.getElem?_eq_none (Nat.le_refl _)
    have ht' : (results f (pre ++ [i]))[(results f pre).length]? = some v := by
      rw [results_concat, hv]
      simp
    generalize (results f pre).length = t at hall ht ht'
    have htlt : t < s₁.bins.temps.size := by
      rw [h₁.size_eq, hr.size_eq]
      exact results_getElem?_lt hall
    obtain ⟨bin, hchoice, hbin, hover⟩ := h₁.finds hs hr e hlive hv ht htlt
    refine ⟨_, ?_, h₁.place hs.size_le hnext hv ht ht' htlt hvlt hnew hbin hover⟩
    have hmap : s₁.tempOf.getD v 0 = t := by
      rw [h₁.tempOf_eq, Std.HashMap.getD_eq_getD_getElem?, (hr.tempOf_iff v t).mpr hall]
      rfl
    have hdef : ((setValue t v s₁).fragment.value v).definition? = some i := by
      change (s₁.fragment.value v).definition? = some i
      rw [Value.definition?, origin_of_withoutRegs h₁.code_eq, horigin]
    have hty : (setValue t v s₁).fragment.ty v = f.ty v := ty_of_withoutRegs h₁.code_eq v
    change allocate regs v s₁ = _
    have hset : modifyTemp s₁ t ({ · with value := some v }) = setValue t v s₁ := rfl
    rw [allocate, bind_get, hmap, bind_modify, hset, bind_get, hdef, hty]
    change assign regs t (f.ty v) i (setValue t v s₁) = _
    rw [assign, bind_get, hchoice]
    rfl

theorem Unspilled.start (hr : Recorded f (f.blockInstrs b) s₀)
    (hpacked : s₀.bins.packed = Array.replicate regs.size none)
    (hspilled : s₀.gprsSpilled = 0 ∧ s₀.fprsSpilled = 0) : Unspilled f regs s₀ [] 0 s₀ := by
  constructor
  · rw [hr.fragment_eq]
  · rfl
  · rfl
  · rfl
  · rw [hpacked, Array.size_replicate]
  · exact hspilled
  · exact fun t => ⟨[], rfl, by simp⟩
  · exact hr.nonempty
  · intro bin t hb
    rw [hpacked, Array.getD_eq_getD_getElem?, Array.getElem?_replicate] at hb
    split at hb <;> cases hb
  · intro t v hv
    simp [results] at hv

end Recompiler.Pass.Allocation
