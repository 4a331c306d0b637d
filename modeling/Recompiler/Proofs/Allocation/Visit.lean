import Recompiler.Proofs.Allocation.Filling

/-! Allocation of one instruction: what is over is freed, the arguments are placed, then the
result gets a register. -/
namespace Recompiler.Pass.Allocation

open IR IR.Fragment Interp Machine Meaning

variable {f : Fragment} {b : BlockId} {regs : Array Register} {s₀ s s' : State}
  {pre pre' post : List InstrId} {pos cut : Int} {D chunk R : List InstrId} {t : Nat}
  {i : InstrId} {v : ValueId}

/-- The constant that a branch goes to. -/
def constantTarget? (f : Fragment) (i : InstrId) : Option Constant :=
  (Exit.target? (f.instr i)).bind fun v => (f.value v).constant?

/-- Allocation has come to the instructions `post`. -/
structure Reached (f : Fragment) (b : BlockId) (regs : Array Register) (s₀ : State)
    (pre post D : List InstrId) (s : State) : Prop where
  split : f.blockInstrs b = pre ++ post
  coded : Coded f b regs D post s.fragment
  packed : Packed f b regs s₀ pre (stride * pre.length) (stride * pre.length) none D s
  mapped : ∀ t u, (temp s t).value = some u → s.tempOf[u]? = some t
  later : ∀ j ∈ post, (s.fragment.instr j).args = (f.instr j).args
  targets : D.filterMap (constantTarget? s.fragment) = pre.filterMap (constantTarget? f)

/-! ### Arguments -/

/-- A temporary whose next use is the current instruction is one of its arguments. -/
theorem Reached.use_here (hp : Prepared f b regs s₀) (h : Reached f b regs s₀ pre (i :: post) D s)
    (hx : home f b t ∈ results f pre) (ht : t < s₀.bins.temps.size)
    (hu : stride * pre.length ∈ (temp s₀ t).uses) : home f b t ∈ inputs f i := by
  obtain ⟨l₁, j, l₂, v, hsplit, hpos, hv, huse⟩ := hp.recorded.justified t _ hu
  have hlen : pre.length = l₁.length := by
    simp only [stride] at hpos
    omega
  obtain ⟨rfl, hrest⟩ := List.append_inj (h.split.symm.trans hsplit) hlen
  cases hrest
  obtain rfl : home f b t = v := Option.some.inj ((hp.getElem?_results ht).symm.trans hv)
  refine huse.resolve_left fun hres => ?_
  -- A value that is defined before is not the result of this instruction.
  obtain ⟨k, hk, hkv⟩ := mem_results.mp hx
  have hki : k = i := hp.straight.wellFormed.result_inj
    (hp.mem_allInstrs (by rw [h.split]; exact List.mem_append_left _ hk))
    (hp.mem_allInstrs (by rw [h.split]; simp)) hkv hres
  have hnodup := hp.chain.nodup
  rw [h.split, List.perm_middle.nodup_iff, List.nodup_cons] at hnodup
  exact hnodup.1 (List.mem_append_left _ (hki ▸ hk))

theorem Reached.expire (hp : Prepared f b regs s₀) (h : Reached f b regs s₀ pre (i :: post) D s) :
    Placing f b regs s₀ pre i post D (expire (position s i) s) ∧
      Moves f b regs D [] s (expire (position s i) s) ∧
      (expire (position s i) s).fragment = s.fragment := by
  have hpos : position s i = stride * pre.length := by
    rw [position, h.packed.positions_eq, hp.positions_eq]
    exact getD_number (by rw [← h.split]; exact hp.chain.nodup) h.split
  rw [hpos]
  have hE := expire_spec hp.enough.size_le h.packed
  generalize Allocation.expire (stride * pre.length) s = s₁ at hE
  refine ⟨⟨h.split, by rw [hE.fragment_eq]; exact h.coded, hE.packed, fun k x hx => ?_,
    fun t u hu => ?_, fun m _ => ?_, fun j hj => ?_⟩, .of_holds ?_ ?_ hE.holds, hE.fragment_eq⟩
  · obtain ⟨-, u, hu, hh⟩ := hE.packed.held k x hx
    have hxlt : x < s₀.bins.temps.size := hE.packed.size_eq ▸ value_lt_size hu
    by_cases hm : stride * pre.length ∈ (temp s₁ x).uses
    · refine .inl (h.use_here hp (hE.packed.home_mem hx) hxlt ?_)
      obtain ⟨dropped, hd, -⟩ := hE.packed.uses x
      rw [hd]
      exact List.mem_append_right _ hm
    · refine .inr fun w hw => ?_
      have hle := hE.live k hh.lt x hx w hw
      have hne : w ≠ stride * pre.length := by
        rintro rfl
        exact hm (List.mem_of_mem_head? hw)
      omega
  · rw [hE.tempOf_eq]
    exact h.mapped t u (hE.value_of t u hu)
  · rw [hE.fragment_eq, Instr.arg, h.later i List.mem_cons_self, Instr.arg]
  · rw [hE.fragment_eq]
    exact h.later j (List.mem_cons_of_mem i hj)
  · rw [hE.fragment_eq]
    exact .refl D _
  · rw [hE.fragment_eq]
    exact .refl _

theorem placeArgs_ok (hp : Prepared f b regs s₀) (h : Placing f b regs s₀ pre i post D s)
    (hargs : (s.fragment.instr i).args = (f.instr i).args) :
    ∃ s' chunk, (List.finRange 3).forM (placeArg regs i) s = .ok ((), s') ∧
      Placing f b regs s₀ pre i post (D ++ chunk) s' ∧ Moves f b regs D chunk s s' ∧
      ∀ n, Placed f s₀ i s' n := by
  have harg : ∀ n, (s.fragment.instr i).arg n = (f.instr i).arg n := by
    intro n
    rw [Instr.arg, hargs, Instr.arg]
  obtain ⟨s₁, c₁, hrun₁, hP₁, hM₁, hplaced₁, hsame₁, -⟩ := placeArg_ok hp h (harg 0)
  obtain ⟨s₂, c₂, hrun₂, hP₂, hM₂, hplaced₂, hsame₂, hkept₂⟩ :=
    placeArg_ok hp hP₁ ((hsame₁ 1 (by decide)).trans (harg 1))
  obtain ⟨s₃, c₃, hrun₃, hP₃, hM₃, hplaced₃, -, hkept₃⟩ :=
    placeArg_ok hp hP₂ ((hsame₂ 2 (by decide)).trans ((hsame₁ 2 (by decide)).trans (harg 2)))
  refine ⟨s₃, c₁ ++ c₂ ++ c₃, ?_, ?_, (hM₁.trans hM₂).trans ?_, ?_⟩
  · change (placeArg regs i 0 >>= fun _ => placeArg regs i 1 >>= fun _ => placeArg regs i 2 >>=
      fun _ => pure ()) s = _
    rw [bind_ok hrun₁, bind_ok hrun₂, bind_ok hrun₃]
    rfl
  · simpa only [List.append_assoc] using hP₃
  · simpa only [List.append_assoc] using hM₃
  · refine Slot.forall ?_ ?_ ?_
    · exact hkept₃ 0 (by decide) (hkept₂ 0 (by decide) hplaced₁)
    · exact hkept₃ 1 (by decide) hplaced₂
    · exact hplaced₃

/-- Instruction `i` has the same constants for arguments in two fragments, and inputs of the same
types. -/
structure SameArgs (f g : Fragment) (i : InstrId) : Prop where
  op_eq : (g.instr i).op = (f.instr i).op
  arg_none : ∀ n, (f.instr i).arg n = none → (g.instr i).arg n = none
  arg_some : ∀ n a, (f.instr i).arg n = some a → ∃ u, (g.instr i).arg n = some u ∧
    (g.value u).ty = (f.value a).ty ∧
    (∀ c, (f.value a).origin = .constant c → (g.value u).origin = .constant c) ∧
    ∀ j, (f.value a).origin = .result j → ∃ k, (g.value u).origin = .result k

theorem SameArgs.keeps {g g' : Fragment} (h : SameArgs f g i) (hi : i ∈ D) (hk : Keeps D g g') :
    SameArgs f g' i where
  op_eq := (hk.op_eq i hi).trans h.op_eq
  arg_none n hn := by
    rw [hk.arg_eq hi n]
    exact h.arg_none n hn
  arg_some n a ha := by
    obtain ⟨u, hu, hty, hconst, hres⟩ := h.arg_some n a ha
    have hm := mentions_arg hi hu
    exact ⟨u, by rw [hk.arg_eq hi n]; exact hu, (hk.ty_eq u hm).trans hty,
      fun c hc => (hk.origin_eq u hm).trans (hconst c hc),
      fun j hj => (hres j hj).imp fun k hk' => (hk.origin_eq u hm).trans hk'⟩

theorem SameArgs.argTy_eq {g : Fragment} (h : SameArgs f g i) (n : Slot) :
    argTy g (g.instr i) n = argTy f (f.instr i) n := by
  rw [argTy, argTy]
  cases ha : (f.instr i).arg n with
  | none => rw [h.arg_none n ha]
  | some a =>
    obtain ⟨u, hu, hty, -⟩ := h.arg_some n a ha
    rw [hu]
    exact hty

/-- Instruction `i` branches to the same constant in two fragments, or to a variable in both. -/
inductive SameTarget (f g : Fragment) (i : InstrId) : Prop
  | none (hf : Exit.target? (f.instr i) = none) (hg : Exit.target? (g.instr i) = none)
  | constant {a u : ValueId} {c : Constant} (hf : Exit.target? (f.instr i) = some a)
      (hg : Exit.target? (g.instr i) = some u) (ho : (f.value a).origin = .constant c)
      (ho' : (g.value u).origin = .constant c)
  | computed {n : Slot} {a u : ValueId} {j k : InstrId} (hf : Exit.target? (f.instr i) = some a)
      (hg : Exit.target? (g.instr i) = some u) (ha : (f.instr i).arg n = some a)
      (hu : (g.instr i).arg n = some u) (ho : (f.value a).origin = .result j)
      (ho' : (g.value u).origin = .result k)

theorem SameArgs.target {g : Fragment} (h : SameArgs f g i) : SameTarget f g i := by
  have hslot : ∀ n, Exit.target? (f.instr i) = (f.instr i).arg n →
      Exit.target? (g.instr i) = (g.instr i).arg n → SameTarget f g i := by
    intro n hf hg
    cases ha : (f.instr i).arg n with
    | none => exact .none (hf.trans ha) (hg.trans (h.arg_none n ha))
    | some a =>
      obtain ⟨u, hu, -, hconst, hres⟩ := h.arg_some n a ha
      cases ho : (f.value a).origin with
      | constant c => exact .constant (hf.trans ha) (hg.trans hu) ho (hconst c ho)
      | result j =>
        obtain ⟨k, hk⟩ := hres j ho
        exact .computed (hf.trans ha) (hg.trans hu) ha hu ho hk
  have hop := h.op_eq
  unfold Exit.target? at hslot
  rw [hop] at hslot
  split at hslot
  · exact hslot 0 rfl rfl
  · exact hslot 1 rfl rfl
  · exact hslot 1 rfl rfl
  · next h₁ h₂ h₃ =>
    refine .none ?_ ?_ <;> rw [Exit.target?]
    · split <;> first | contradiction | rfl
    · rw [hop]
      split <;> first | contradiction | rfl

theorem SameArgs.constantTarget?_eq {g : Fragment} (h : SameArgs f g i) :
    constantTarget? g i = constantTarget? f i := by
  rw [constantTarget?, constantTarget?]
  cases h.target with
  | none hf hg => rw [hf, hg]; rfl
  | constant hf hg ho ho' =>
    rw [hf, hg]
    simp only [Option.bind_some, Value.constant?, ho, ho']
  | computed hf hg _ _ ho ho' =>
    rw [hf, hg]
    simp only [Option.bind_some, Value.constant?, ho, ho']

theorem Keeps.constantTarget?_eq {g g' : Fragment} (hk : Keeps D g g') (hi : i ∈ D) :
    constantTarget? g' i = constantTarget? g i := by
  refine SameArgs.constantTarget?_eq ⟨hk.op_eq i hi, fun n hn => by rw [hk.arg_eq hi n]; exact hn,
    fun n a ha => ?_⟩
  have hm := mentions_arg hi ha
  exact ⟨a, by rw [hk.arg_eq hi n]; exact ha, hk.ty_eq a hm,
    fun c hc => (hk.origin_eq a hm).trans hc, fun j hj => ⟨j, (hk.origin_eq a hm).trans hj⟩⟩

theorem constantTarget?_of_plain {g : Fragment} (h : (g.instr i).op.isBranch = false) :
    constantTarget? g i = none := by
  have : Exit.target? (g.instr i) = none := by
    rw [Exit.target?]
    split <;> first | rfl | (next e => rw [e] at h; cases h)
  rw [constantTarget?, this]
  rfl

/-- An argument that was placed: a constant as it was, or the value that holds its temporary. -/
theorem Placing.arg_cases (hp : Prepared f b regs s₀) (h : Placing f b regs s₀ pre i post D s)
    {n : Slot} (hplaced : Placed f s₀ i s n) {a : ValueId} (ha : (f.instr i).arg n = some a) :
    (∃ c, (f.value a).origin = .constant c ∧ a.index < f.values.size ∧
      (s.fragment.instr i).arg n = some a) ∨
    ∃ t u bin, f.isConstant a = false ∧ s₀.tempOf[a]? = some t ∧ home f b t = a ∧
      (temp s t).value = some u ∧ (s.fragment.instr i).arg n = some u ∧
      Holder f b regs D s.fragment t u bin := by
  have hlt := hp.straight.wellFormed.arg_lt i (hp.mem_allInstrs (by rw [h.split]; simp)) n a ha
  cases hc : f.isConstant a with
  | true =>
    obtain ⟨c, hc'⟩ := (Value.isConstant_iff _).mp hc
    refine .inl ⟨c, hc', hlt, (h.constants n fun a' ha' => ?_).trans ha⟩
    rw [ha] at ha'
    cases ha'
    exact hc
  | false =>
    obtain ⟨t, -, ht, -, hhome, -, -⟩ := h.variable hp (mem_inputs.mpr ⟨⟨n, ha⟩, hc⟩)
    obtain ⟨u, hu, harg⟩ := hplaced a ha hc t ht
    obtain ⟨bin, hbin⟩ := h.packed.located t u (by simp) hu
    obtain ⟨-, u', hu', hh⟩ := h.packed.held bin t hbin
    obtain rfl : u' = u := Option.some.inj (hu'.symm.trans hu)
    exact .inr ⟨t, u', bin, rfl, ht, hhome, hu, harg, hh⟩

theorem Placing.arg_none (h : Placing f b regs s₀ pre i post D s) {n : Slot}
    (ha : (f.instr i).arg n = none) : (s.fragment.instr i).arg n = none := by
  rw [h.constants n fun a ha' => by rw [ha] at ha'; cases ha']
  exact ha

/-- The value that holds a temporary is a result. -/
theorem Holder.origin {g : Fragment} {u : ValueId} {bin : Nat} (h : Holder f b regs D g t u bin)
    (hc : Coded f b regs D R g) : ∃ k ∈ D, (g.value u).origin = .result k := by
  obtain ⟨k, hk, hres⟩ := h.defined
  exact ⟨k, hk, ((hc.final k hk).result u hres).2⟩

theorem Placing.sameArgs (hp : Prepared f b regs s₀) (h : Placing f b regs s₀ pre i post D s)
    (hplaced : ∀ n, Placed f s₀ i s n) : SameArgs f s.fragment i where
  op_eq := h.coded.op_eq i (by rw [h.split]; simp)
  arg_none n ha := h.arg_none ha
  arg_some n a ha := by
    rcases h.arg_cases hp (hplaced n) ha
      with ⟨c, hc, hlt, hu⟩ | ⟨t, u, bin, hc, -, hhome, -, hu, hh⟩
    · refine ⟨a, hu, h.coded.ty_eq a hlt, fun c hc => (h.coded.origin_eq a hlt).trans hc,
        fun j hj => ?_⟩
      rw [hc] at hj
      cases hj
    · refine ⟨u, hu, by rw [hh.ty_eq, hhome]; rfl, fun c' hc' => ?_, fun _ _ => ?_⟩
      · obtain ⟨j, hj⟩ := (Value.isConstant_eq_false_iff _).mp hc
        rw [hc'] at hj
        cases hj
      · obtain ⟨k, -, hk⟩ := hh.origin h.coded
        exact ⟨k, hk⟩

theorem Placing.ready (hp : Prepared f b regs s₀) (h : Placing f b regs s₀ pre i post D s)
    (hplaced : ∀ n, Placed f s₀ i s n) : Ready D s.fragment i := by
  intro n u hu
  have hi : i ∈ f.blockInstrs b := by rw [h.split]; simp
  cases ha : (f.instr i).arg n with
  | none =>
    rw [h.arg_none ha] at hu
    cases hu
  | some a =>
    rcases h.arg_cases hp (hplaced n) ha with ⟨c, hc, hlt, hu'⟩ | ⟨t, u', bin, -, -, -, -, hu', hh⟩
    · obtain rfl : u = a := Option.some.inj (hu.symm.trans hu')
      have hty := hp.straight.wellFormed.constant_ty u hlt c hc
      refine .inl ⟨Nat.lt_of_lt_of_le hlt h.coded.values_le, c,
        (h.coded.origin_eq u hlt).trans hc, (h.coded.ty_eq u hlt).trans hty, ?_⟩
      have hstr := (hp.straight.wellTyped i hi).argTy_ne_str n
      rw [argTy, ha] at hstr
      exact hty ▸ hstr
    · obtain rfl : u = u' := Option.some.inj (hu.symm.trans hu')
      exact .inr hh.defined

/-- The placed arguments have the values of the original ones. -/
theorem Placing.agree (hp : Prepared f b regs s₀) (h : Placing f b regs s₀ pre i post D s)
    (hplaced : ∀ n, Placed f s₀ i s n) {cells : Cells} {rf : Array UInt64}
    {area base : Array UInt8} (hh : Holds f b regs s none cells rf area base) (n : Slot) :
    Agree (argTy f (f.instr i) n) (argBits f Meaning.cells cells (f.instr i) n)
      (argBits s.fragment (Meaning.registers s.fragment) rf (s.fragment.instr i) n) := by
  rw [argTy, argBits, argBits]
  cases ha : (f.instr i).arg n with
  | none =>
    rw [h.arg_none ha]
    exact .refl _ _
  | some a =>
    rcases h.arg_cases hp (hplaced n) ha
      with ⟨c, hc, hlt, hu⟩ | ⟨t, u, bin, hc, -, hhome, ht, hu, hU⟩
    · rw [hu]
      simp only [bits, h.coded.origin_eq a hlt, hc]
      exact .refl _ _
    · obtain ⟨j, hj⟩ := (Value.isConstant_eq_false_iff _).mp hc
      obtain ⟨k, -, hk⟩ := hU.origin h.coded
      have hv := hh.value t u (by simp) ht _ hU.reg_eq
      rw [hhome] at hv
      rw [hu]
      simp only [bits, hj, hk, Meaning.registers, hU.reg_eq]
      exact hv

/-! ### The result -/

theorem Packed.results_eq (h : Packed f b regs s₀ pre pos cut none D s)
    (e : results f pre' = results f pre) (hD : D ⊆ R) :
    Packed f b regs s₀ pre' pos cut none R s := by
  have hwide := h.widen (.refl D s.fragment) (.refl _) rfl hD
  refine ⟨hwide.size_eq, hwide.packed_size, hwide.positions_eq, hwide.tempOf_eq, hwide.held,
    hwide.located, hwide.slot, hwide.disjoint, hwide.uses, hwide.nonempty, ?_, ?_, hwide.size_ge,
    hwide.size_le⟩
  · rw [e]
    exact h.kept
  · rw [e]
    exact h.pending

theorem Ready.final {g : Fragment} (h : Ready D g i) (hc : Coded f b regs D R g)
    (hres : (g.instr i).result = none) : Final regs D g i where
  arg n u hu := by
    rcases h n u hu with hconst | ⟨k, hk, hku⟩
    · exact .inl hconst
    · obtain ⟨hreg, horigin⟩ := (hc.final k hk).result u hku
      exact .inr ⟨hreg, k, hk, horigin⟩
  result u hu := by
    rw [hres] at hu
    cases hu

theorem Ready.arg_lt {g : Fragment} {n : Slot} {u : ValueId} (h : Ready D g i)
    (hc : Coded f b regs D R g) (hu : (g.instr i).arg n = some u) : u.index < g.values.size := by
  rcases h n u hu with ⟨hlt, -⟩ | ⟨k, hk, hku⟩
  · exact hlt
  · exact hc.mentions_lt (mentions_result hk hku)

theorem Ready.argBits_eq {g g' : Fragment} (h : Ready D g i) (hk : Keeps D g g') (hw : Widens g g')
    (hargs : (g'.instr i).args = (g.instr i).args) (rf : Array UInt64) (n : Slot) :
    argBits g' (Meaning.registers g') rf (g'.instr i) n =
      argBits g (Meaning.registers g) rf (g.instr i) n := by
  have harg : (g'.instr i).arg n = (g.instr i).arg n := by rw [Instr.arg, hargs, Instr.arg]
  rw [argBits, argBits, harg]
  cases hu : (g.instr i).arg n with
  | none => rfl
  | some u =>
    rcases h n u hu with ⟨hlt, c, hc, -⟩ | ⟨k, hkD, hku⟩
    · simp only [bits, hw.origin_eq u hlt, hc]
    · have hm := mentions_result hkD hku
      simp only [bits, Meaning.registers, hk.origin_eq u hm, hk.reg_eq u hm]

theorem SameArgs.widens {g g' : Fragment} (h : SameArgs f g i) (hw : Widens g g')
    (hi : i.index < g.instrs.size) (hargs : (g'.instr i).args = (g.instr i).args)
    (hlt : ∀ n u, (g.instr i).arg n = some u → u.index < g.values.size) : SameArgs f g' i where
  op_eq := (hw.op_eq i hi).trans h.op_eq
  arg_none n ha := by
    rw [Instr.arg, hargs]
    exact h.arg_none n ha
  arg_some n a ha := by
    obtain ⟨u, hu, hty, hconst, hres⟩ := h.arg_some n a ha
    have hlt' := hlt n u hu
    refine ⟨u, ?_, (hw.ty_eq u hlt').trans hty,
      fun c hc => (hw.origin_eq u hlt').trans (hconst c hc),
      fun j hj => (hres j hj).imp fun k hk => (hw.origin_eq u hlt').trans hk⟩
    rw [Instr.arg, hargs]
    exact hu

/-- Before instruction `i` its arguments have their values, and behind it `s` describes what
holds. -/
structure Poised (f : Fragment) (b : BlockId) (regs : Array Register) (s : State) (i : InstrId)
    (out : Fragment) (cells : Cells) (rf : Array UInt64) (area base : Array UInt8) : Prop where
  agree : ∀ n, Agree (argTy f (f.instr i) n) (argBits f Meaning.cells cells (f.instr i) n)
    (argBits out (Meaning.registers out) rf (out.instr i) n)
  shared : ∀ i < base.size, area.getD i 0 = base.getD i 0
  holds : (f.instr i).result = none → Holds f b regs s none cells rf area base
  keep : ∀ v x y, (f.instr i).result = some v → Agree (f.ty v) x y →
    Holds f b regs s none (Meaning.keep f Meaning.cells (f.instr i) cells (some x))
      (Meaning.keep out (Meaning.registers out) (out.instr i) rf (some y)) area base

/-- Instruction `i` was visited: it is final, behind the new instructions `chunk`. -/
structure Visited (f : Fragment) (b : BlockId) (regs : Array Register) (s₀ : State)
    (pre : List InstrId) (i : InstrId) (post D chunk : List InstrId) (s s' : State) : Prop where
  reached : Reached f b regs s₀ (pre ++ [i]) post (D ++ chunk ++ [i]) s'
  keeps : Keeps D s.fragment s'.fragment
  widens : Widens s.fragment s'.fragment
  sameArgs : SameArgs f s'.fragment i
  runs : ∀ out, Keeps (D ++ chunk ++ [i]) s'.fragment out →
    s'.fragment.localsSize ≤ out.localsSize →
    ∀ {σ : Type} (gs : Guest σ) (o : Offsets) (rest : List InstrId) (cells : Cells)
      (rf : Array UInt64) (area base : Array UInt8) (w : World σ),
      area.size = out.localsSize.toNat → Holds f b regs s none cells rf area base →
      ∃ n rf' area', GoesIn (Meaning.step out (Meaning.registers out) gs o) n
          ⟨⟨chunk ++ i :: rest, []⟩, rf, ⟨area, w⟩⟩ ⟨⟨i :: rest, []⟩, rf', ⟨area', w⟩⟩ ∧
        area'.size = area.size ∧ Poised f b regs s' i out cells rf' area' base

/-- The branches of the code that is final behind instruction `i`. -/
theorem targets_append (htargets : D.filterMap (constantTarget? s.fragment) =
      pre.filterMap (constantTarget? f)) (hk : Keeps D s.fragment s'.fragment)
    (hplain : ∀ k ∈ chunk, (s'.fragment.instr k).op.isBranch = false)
    (hi : SameArgs f s'.fragment i) :
    (D ++ chunk ++ [i]).filterMap (constantTarget? s'.fragment) =
      (pre ++ [i]).filterMap (constantTarget? f) := by
  have hD : D.filterMap (constantTarget? s'.fragment) = D.filterMap (constantTarget? s.fragment) :=
    List.filterMap_congr fun j hj => hk.constantTarget?_eq hj
  have hchunk : chunk.filterMap (constantTarget? s'.fragment) = [] :=
    List.filterMap_eq_nil_iff.mpr fun k hk => constantTarget?_of_plain (hplain k hk)
  have hlast : [i].filterMap (constantTarget? s'.fragment) = [i].filterMap (constantTarget? f) :=
    List.filterMap_congr fun j hj => by
      rw [List.mem_singleton.mp hj]
      exact hi.constantTarget?_eq
  rw [List.filterMap_append, List.filterMap_append, List.filterMap_append, hD, hchunk,
    hlast, htargets,
    List.append_nil]

/-- An instruction without a result is final once its arguments are placed. -/
theorem Placing.visited_none {s₁ : State} (hp : Prepared f b regs s₀)
    (hs : Reached f b regs s₀ pre (i :: post) D s)
    (h : Placing f b regs s₀ pre i post (D ++ chunk) s₁) (hplaced : ∀ n, Placed f s₀ i s₁ n)
    (hm : Moves f b regs D chunk s s₁) (hres : (f.instr i).result = none) :
    Visited f b regs s₀ pre i post D chunk s s₁ := by
  have hi : i ∈ f.blockInstrs b := by rw [h.split]; simp
  have hsame := h.sameArgs hp hplaced
  have hresults : results f (pre ++ [i]) = results f pre := by
    rw [results_concat, hres]
    simp
  have hlen : stride * pre.length ≤ stride * (pre ++ [i]).length := by
    simp only [stride, List.length_append, List.length_singleton]
    omega
  refine ⟨⟨by rw [h.split]; simp, ?_, ?_, h.mapped, h.later, ?_⟩, hm.keeps, hm.widens, hsame, ?_⟩
  · exact h.coded.push ((h.ready hp hplaced).final h.coded ((h.coded.result_eq i hi).trans hres))
  · exact (h.packed.results_eq hresults (List.subset_append_left _ _)).mono hlen hlen
  · exact targets_append hs.targets hm.keeps hm.plain hsame
  · intro out hout hle σ gs o rest cells rf area base w harea hh
    obtain ⟨n, rf', area', hgo, hsz, hh'⟩ := hm.runs out
      (hout.mono (List.subset_append_left _ _)) hle gs o (i :: rest) cells rf area base w harea hh
    refine ⟨n, rf', area', hgo, hsz, fun m => ?_, hh'.shared, fun _ => hh', fun v x y hv => ?_⟩
    · rw [hout.argBits_eq (by simp)]
      exact h.agree hp hplaced hh' m
    · rw [hres] at hv
      cases hv

/-- The temporary that an instruction defines. -/
theorem Placing.result (hp : Prepared f b regs s₀) (h : Placing f b regs s₀ pre i post D s)
    (hv : (f.instr i).result = some v) : ∃ t < s.bins.temps.size, s.tempOf[v]? = some t ∧
      home f b t = v ∧ v ∉ results f pre ∧ (temp s t).value = none ∧ (temp s t).slot = none := by
  have hi : i ∈ f.blockInstrs b := by rw [h.split]; simp
  obtain ⟨t, ht⟩ := List.getElem?_of_mem (mem_results.mpr ⟨i, hi, hv⟩)
  have hmap := (hp.recorded.tempOf_iff v t).mpr ht
  have hlt := (hp.straight.wellFormed.result i (hp.mem_allInstrs hi) v hv).1
  have htlt : t < s.bins.temps.size := h.packed.size_eq ▸ hp.tempOf_lt hmap
  have hnew : v ∉ results f pre := by
    intro hm
    obtain ⟨k, hk, hkv⟩ := mem_results.mp hm
    have hki := hp.straight.wellFormed.result_inj
      (hp.mem_allInstrs (by rw [h.split]; exact List.mem_append_left _ hk))
      (hp.mem_allInstrs hi) hkv hv
    have hnodup := hp.chain.nodup
    rw [h.split, List.perm_middle.nodup_iff, List.nodup_cons] at hnodup
    exact hnodup.1 (List.mem_append_left _ (hki ▸ hk))
  have hhome := hp.home_eq hmap
  have hpending := h.packed.pending t htlt (hhome ▸ hnew)
  exact ⟨t, htlt, by rw [h.packed.tempOf_eq v hlt]; exact hmap, hhome, hnew,
    hpending.2 (by simp), hpending.1⟩

/-- An argument with one use left is over behind the instruction. -/
theorem Placing.dying (hp : Prepared f b regs s₀) (h : Placing f b regs s₀ pre i post D s)
    (hplaced : ∀ n, Placed f s₀ i s n) (ht : home f b t ∉ results f pre) {n : Slot} {u : ValueId}
    (hu : (s.fragment.instr i).arg n = some u) (hconst : s.fragment.isConstant u = false) {x : Nat}
    (hx : s.tempOf[u]? = some x) : x ≠ t ∧ ((temp s x).uses.length = 1 →
      ∀ w ∈ (temp s₀ x).uses, w < stride * (pre ++ [i]).length) := by
  cases ha : (f.instr i).arg n with
  | none =>
    rw [h.arg_none ha] at hu
    cases hu
  | some a =>
    rcases h.arg_cases hp (hplaced n) ha
      with ⟨c, hc, hlt, hu'⟩ | ⟨y, u', bin, hc, hy, hhome, hval, hu', -⟩
    · obtain rfl : u = a := Option.some.inj (hu.symm.trans hu')
      obtain ⟨j, hj⟩ := (Value.isConstant_eq_false_iff _).mp hconst
      rw [h.coded.origin_eq u hlt, hc] at hj
      cases hj
    · obtain rfl : u = u' := Option.some.inj (hu.symm.trans hu')
      obtain rfl : y = x := Option.some.inj ((h.mapped y u hval).symm.trans hx)
      obtain ⟨y', -, hy', -, -, hpre, huse⟩ := h.variable hp (mem_inputs.mpr ⟨⟨n, ha⟩, hc⟩)
      obtain rfl : y' = y := Option.some.inj (hy'.symm.trans hy)
      refine ⟨?_, fun hone w hw => ?_⟩
      · rintro rfl
        exact ht (hhome ▸ hpre)
      · obtain ⟨dropped, hd, hlt⟩ := h.packed.uses y'
        obtain ⟨z, hz⟩ := List.length_eq_one_iff.mp hone
        have hpos : z = stride * pre.length := by
          rw [hd, hz] at huse
          rcases List.mem_append.mp huse with hm | hm
          · exact absurd (hlt _ hm) (Int.lt_irrefl _)
          · exact (List.mem_singleton.mp hm).symm
        have hnext : stride * pre.length < stride * (pre ++ [i]).length := by
          simp only [stride, List.length_append, List.length_singleton]
          omega
        rw [hd, hz] at hw
        rcases List.mem_append.mp hw with hm | hm
        · exact Int.lt_trans (hlt w hm) hnext
        · rw [List.mem_singleton.mp hm, hpos]
          exact hnext

/-- An instruction with a result is final once the result has a register. -/
theorem Placing.visited_some {s₁ s₂ : State} {stores : List InstrId} (hp : Prepared f b regs s₀)
    (hs : Reached f b regs s₀ pre (i :: post) D s)
    (h : Placing f b regs s₀ pre i post (D ++ chunk) s₁) (hplaced : ∀ n, Placed f s₀ i s₁ n)
    (hm : Moves f b regs D chunk s s₁) (hv : (f.instr i).result = some v)
    (hmap : s₁.tempOf[v]? = some t) (hhome : home f b t = v) (hslot : (temp s₁ t).slot = none)
    (hA : Assigned f b regs s₀ (pre ++ [i]) (stride * pre.length) (stride * (pre ++ [i]).length)
      (D ++ chunk) stores post i t v s₁ s₂) :
    Visited f b regs s₀ pre i post D (chunk ++ stores) s s₂ := by
  have hi : i ∈ f.blockInstrs b := by rw [h.split]; simp
  have hilt : i.index < s₁.fragment.instrs.size := h.coded.chain.lt i (by simp)
  have hD : D ++ chunk ++ stores = D ++ (chunk ++ stores) := List.append_assoc ..
  have hkeeps : Keeps D s.fragment s₂.fragment :=
    hm.keeps.trans (hA.keeps.mono (List.subset_append_left D chunk))
  have hplain : ∀ k ∈ chunk ++ stores, (s₂.fragment.instr k).op.isBranch = false := by
    intro k hk
    rcases List.mem_append.mp hk with hk | hk
    · rw [hA.keeps.op_eq k (List.mem_append_right D hk)]
      exact hm.plain k hk
    · exact hA.plain k hk
  have hready := h.ready hp hplaced
  have hsame : SameArgs f s₂.fragment i := (h.sameArgs hp hplaced).widens hA.widens hilt
    (hA.args i hilt) fun n u hu => hready.arg_lt h.coded hu
  have hlen : stride * pre.length ≤ stride * (pre ++ [i]).length := by
    simp only [stride, List.length_append, List.length_singleton]
    omega
  refine ⟨⟨by rw [h.split]; simp, hD ▸ hA.coded, hD ▸ hA.packed.mono hlen (Int.le_refl _), ?_, ?_,
    targets_append hs.targets hkeeps hplain hsame⟩, hkeeps, hm.widens.trans hA.widens, hsame, ?_⟩
  · intro x u hx
    rw [hA.tempOf_eq]
    by_cases e : x = t
    · subst e
      obtain rfl : v = u := Option.some.inj (hA.value_eq.symm.trans hx)
      exact hmap
    · rcases hA.evicted x e with hsame | ⟨hnone, -⟩
      · exact h.mapped x u (hsame ▸ hx)
      · rw [hnone] at hx
        cases hx
  · intro j hj
    rw [hA.args j (h.coded.chain.lt j (by simp [hj]))]
    exact h.later j hj
  · intro out hout hle σ gs o rest cells rf area base w harea hh
    rw [← hD] at hout
    have hout₁ : Keeps (D ++ chunk ++ stores) s₂.fragment out :=
      hout.mono (List.subset_append_left _ _)
    obtain ⟨m, rf', area₁, hgo₁, hsz₁, hh₁⟩ := hm.runs out
      (hA.keeps.trans (hout₁.mono (List.subset_append_left _ _)))
      (Int.le_trans hA.widens.localsSize_le hle) gs o (stores ++ i :: rest) cells rf
        area base w harea
      hh
    obtain ⟨n, area₂, hgo₂, hsz₂, hh₂⟩ :=
      hA.stores out hout₁ hle gs o (i :: rest) cells rf' area₁ base
      w (hsz₁.trans harea) hh₁
    refine ⟨m + n, rf', area₂, ?_, hsz₂.trans hsz₁, fun k => ?_, hh₂.shared, fun hnone => ?_,
      fun v' x y hv' hxy => ?_⟩
    · rw [List.append_assoc]
      exact hgo₁.trans hgo₂
    · rw [hout.argBits_eq (by simp)]
      rw [hready.argBits_eq hA.keeps hA.widens (hA.args i hilt)]
      exact h.agree hp hplaced hh₁ k
    · rw [hv] at hnone
      cases hnone
    · obtain rfl : v = v' := Option.some.inj (hv.symm.trans hv')
      obtain ⟨bin, hbin⟩ := hA.packed.located t v (by simp) hA.value_eq
      obtain ⟨-, u, hu, hh'⟩ := hA.packed.held bin t hbin
      obtain rfl : u = v := Option.some.inj (hu.symm.trans hA.value_eq)
      have hty : s₂.fragment.ty u = f.ty u := by
        rw [Fragment.ty, hh'.ty_eq, hhome]
      have hres : (s₂.fragment.instr i).result = some u := (hA.coded.result_eq i hi).trans hv
      have hcells : Meaning.keep f Meaning.cells (f.instr i) cells (some x) =
          fun z => if z = u then fit (f.ty u) x else cells z := by
        unfold Meaning.keep
        rw [hv]
        rfl
      have hregs : Meaning.keep out (Meaning.registers out) (out.instr i) rf' (some y) =
          rf'.setIfInBounds bin.toUInt8.toNat (fit (f.ty u) y) := by
        rw [hout.keep_eq (by simp)]
        unfold Meaning.keep
        rw [hres]
        simp only [Meaning.registers, hh'.reg_eq, hty]
      rw [hcells, hregs]
      refine hh₂.loaded hp.enough.size_le hA.packed hA.value_eq hh'.reg_eq ?_ ?_ ?_ ?_
      · rw [hhome, if_pos rfl]
        exact hxy.fit
      · intro z hz hne
        rw [if_neg]
        intro e
        refine hne (hp.home_inj (hA.packed.size_eq ▸ hz) ?_ (e.trans hhome.symm))
        rw [← hA.packed.size_eq]
        exact value_lt_size hA.value_eq
      · intro l hl
        rw [hA.slot_self, hslot] at hl
        cases hl
      · intro z hz
        split
        · next e =>
          rw [e] at hz ⊢
          exact truncate_fit hz x
        · exact hh.fits z hz

/-- Visiting an instruction succeeds. -/
theorem visitInstr_ok (hp : Prepared f b regs s₀) (h : Reached f b regs s₀ pre (i :: post) D s) :
    ∃ s' chunk, visitInstr regs i s = .ok ((), s') ∧
      Visited f b regs s₀ pre i post D chunk s s' := by
  have hi : i ∈ f.blockInstrs b := by rw [h.split]; simp
  obtain ⟨hP₀, hM₀, hf₀⟩ := h.expire hp
  obtain ⟨s₁, chunk, hrun₁, hP₁, hM₁, hplaced⟩ := placeArgs_ok hp hP₀
    (by rw [hf₀]; exact h.later i List.mem_cons_self)
  have hM : Moves f b regs D chunk s s₁ := by
    rw [← List.append_nil D] at hM₁
    exact hM₀.trans hM₁
  have hres : (s₁.fragment.instr i).result = (f.instr i).result := hP₁.coded.result_eq i hi
  cases hv : (f.instr i).result with
  | none =>
    refine ⟨s₁, chunk, ?_, hP₁.visited_none hp h hplaced hM hv⟩
    rw [visitInstr, bind_modify, bind_ok hrun₁, bind_get, hres, hv]
    rfl
  | some v =>
    obtain ⟨t, htlt, hmap, hhome, hnew, hnone, hslot⟩ := hP₁.result hp hv
    obtain ⟨hvlt, hvo⟩ := hp.straight.wellFormed.result i (hp.mem_allInstrs hi) v hv
    have hlen : stride * pre.length ≤ stride * (pre ++ [i]).length := by
      simp only [stride, List.length_append, List.length_singleton]
      omega
    have hd : Defines f b (D ++ chunk) s₁.fragment i t v :=
      ⟨hP₁.not_mem.1, hres.trans hv, Nat.lt_of_lt_of_le hvlt hP₁.coded.values_le,
        (hP₁.coded.origin_eq v hvlt).trans hvo,
        (hP₁.coded.ty_eq v hvlt).trans (by rw [hhome]; rfl)⟩
    have hresults : results f (pre ++ [i]) = results f pre ++ [v] := by
      rw [results_concat, hv]
      rfl
    have hmono : ∀ u ∈ results f pre, u ∈ results f (pre ++ [i]) := fun u hu => by
      rw [hresults]
      exact List.mem_append_left _ hu
    obtain ⟨s₂, stores, hrun₂, hA⟩ := allocate_ok hp hP₁.coded
      (hP₁.packed.mono (Int.le_refl _) hlen) hmap htlt hnone hd (hP₁.ready hp hplaced)
      hmono
      (fun x hx hm => by
        rw [hresults] at hm
        refine (List.mem_append.mp hm).symm.imp (fun e => ?_) id
        refine hp.home_inj (hP₁.packed.size_eq ▸ hx) (hP₁.packed.size_eq ▸ htlt) ?_
        rw [List.mem_singleton.mp e, hhome])
      (by rw [hresults, hhome]; simp)
      (by rw [hhome]; exact exists_of_countP (hp.enough.result i hi v hv))
      (fun a ha hconst x hx => hP₁.dying hp hplaced (hhome ▸ hnew) ha hconst hx)
    refine ⟨s₂, chunk ++ stores, ?_, hP₁.visited_some hp h hplaced hM hv hmap hhome hslot hA⟩
    rw [visitInstr, bind_modify, bind_ok hrun₁, bind_get, hres, hv]
    exact hrun₂

end Recompiler.Pass.Allocation
