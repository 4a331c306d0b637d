import Recompiler.Proofs.Allocation.Visit

/-!
The allocated code simulates the straight-line fragment: before each instruction the registers and
slots hold what the cells do.
-/
namespace Recompiler.Pass.Allocation

open IR IR.Fragment Interp Machine Meaning

variable {f : Fragment} {b : BlockId} {regs : Array Register} {s₀ s s' : State}
  {pre post D : List InstrId} {i : InstrId} {σ : Type}

/-- Visiting the instructions of a block, one after another. -/
theorem visitCode_ok (hp : Prepared f b regs s₀) (h : Reached f b regs s₀ pre post D s) :
    ∃ s' E, post.forM (visitInstr regs) s = .ok ((), s') ∧
      Reached f b regs s₀ (pre ++ post) [] (D ++ E) s' ∧ Keeps D s.fragment s'.fragment ∧
      Widens s.fragment s'.fragment := by
  induction post generalizing pre D s with
  | nil => exact ⟨s, [], rfl, by simpa using h, .refl D _, .refl _⟩
  | cons i post ih =>
    obtain ⟨s₁, chunk, hrun, hV⟩ := visitInstr_ok hp h
    obtain ⟨s₂, E, hrest, hR, hk, hw⟩ := ih hV.reached
    refine ⟨s₂, chunk ++ [i] ++ E, ?_, ?_, ?_, hV.widens.trans hw⟩
    · change (visitInstr regs i >>= fun _ => post.forM (visitInstr regs)) s = _
      rw [bind_ok hrun]
      exact hrest
    · simpa only [List.append_assoc, List.singleton_append] using hR
    · refine hV.keeps.trans (hk.mono ?_)
      rw [List.append_assoc]
      exact List.subset_append_left _ _

/-! ### The local area -/

/-- What an operation leaves of a local area `base` and of an area that starts with it. -/
structure SameBase (base area base' area' : Array UInt8) : Prop where
  base_size : base'.size = base.size
  area_size : area'.size = area.size
  shared : ∀ i < base.size, area'.getD i 0 = base'.getD i 0
  beyond : ∀ i, base.size ≤ i → area'.getD i 0 = area.getD i 0

/-- Results of an operation on two local areas. -/
inductive SameLocals (base area : Array UInt8) : Except Fault (Option UInt64 × Memory σ) →
    Except Fault (Option UInt64 × Memory σ) → Prop
  | error (e : Fault) : SameLocals base area (.error e) (.error e)
  | ok {base' area' : Array UInt8} (h : SameBase base area base' area') (bits : Option UInt64)
      (w : World σ) : SameLocals base area (.ok (bits, ⟨base', w⟩)) (.ok (bits, ⟨area', w⟩))

theorem perform_sameLocals (gs : Guest σ) (o : Offsets) {op : Opcode} (ty aty bty : Ty)
    (a x c : UInt64) {base area : Array UInt8} (w : World σ) (hsize : base.size ≤ area.size)
    (hle : area.size ≤ maxLocalsSize.toNat)
    (hshared : ∀ i < base.size, area.getD i 0 = base.getD i 0)
    (hlocal : op = .loadLocal ∨ op = .storeLocal →
      a.toNat + ty.bytes ≤ base.size ∨ 2 ^ 31 ≤ a.toNat) :
    SameLocals base area (perform gs o op ty aty bty a x c ⟨base, w⟩)
      (perform gs o op ty aty bty a x c ⟨area, w⟩) := by
  have hsame : SameBase base area base area := ⟨rfl, rfl, hshared, fun _ _ => rfl⟩
  have hmax : maxLocalsSize.toNat < 2 ^ 31 := by decide
  by_cases hl : op = .loadLocal
  · subst hl
    simp only [perform, Memory.readLocal]
    rcases hlocal (.inl rfl) with hin | hout
    · rw [if_pos hin, if_pos (Nat.le_trans hin hsize)]
      have : Bytes.read area a.toNat ty.bytes = Bytes.read base a.toNat ty.bytes :=
        Bytes.read_congr fun i _ hi => hshared i (by omega)
      rw [this]
      exact .ok hsame _ _
    · rw [if_neg (by omega), if_neg (by omega)]
      exact .error _
  by_cases hs : op = .storeLocal
  · subst hs
    simp only [perform, Memory.writeLocal]
    rcases hlocal (.inr rfl) with hin | hout
    · rw [if_pos hin, if_pos (Nat.le_trans hin hsize)]
      refine .ok ⟨Bytes.size_write .., Bytes.size_write .., fun i hi => ?_, fun i hi => ?_⟩ _ _
      · simp only [Bytes.getD_write, hi, Nat.lt_of_lt_of_le hi hsize, hshared i hi]
      · exact Bytes.getD_write_of_outside _ _ (.inr (by omega))
    · rw [if_neg (by omega), if_neg (by omega)]
      exact .error _
  · have h₁ := perform_withLocals gs o hl hs ty aty bty a x c ⟨base, w⟩ base
    have h₂ := perform_withLocals gs o hl hs ty aty bty a x c ⟨base, w⟩ area
    dsimp only at h₁ h₂
    rw [h₂]
    cases hP : perform gs o op ty aty bty a x c ⟨base, w⟩ with
    | error e => exact .error e
    | ok r =>
      obtain ⟨bits, base', w'⟩ := r
      rw [hP] at h₁
      cases h₁
      exact .ok hsame bits w'

/-! ### One step -/

/-- What holds stays when the operation works on the part of the local area that is not for
slots. -/
theorem Holds.sameBase {cells : Cells} {rf : Array UInt64} {area base area' base' : Array UInt8}
    (h : Holds f b regs s none cells rf area base) (hl : ∀ t l, (temp s t).slot = some l →
      f.localsSize ≤ (s.fragment.localSlot l).offset) (hb : SameBase base area base' area') :
    Holds f b regs s none cells rf area' base' where
  regs_size := h.regs_size
  base_size := hb.base_size.trans h.base_size
  area_size := by
    rw [hb.area_size]
    exact h.area_size
  area_le := by
    rw [hb.area_size]
    exact h.area_le
  shared i hi := hb.shared i (hb.base_size ▸ hi)
  fits := h.fits
  value := h.value
  slot t l ht := by
    have hoff := hl t l ht
    have hread : Bytes.read area' (s.fragment.localSlot l).offset.toNat (f.ty (home f b t)).bytes =
        Bytes.read area (s.fragment.localSlot l).offset.toNat (f.ty (home f b t)).bytes :=
      Bytes.read_congr fun i hi _ => hb.beyond i (by rw [h.base_size]; omega)
    rw [hread]
    exact h.slot t l ht

/-- Nothing is in registers or slots at the start. -/
theorem Holds.restart {cells : Cells} {rf : Array UInt64} {area base : Array UInt8}
    (h : Holds f b regs s none cells rf area base) (hvalue : ∀ t, (temp s' t).value = none)
    (hslot : ∀ t, (temp s' t).slot = none)
    (hsize : s'.fragment.localsSize ≤ s.fragment.localsSize) :
    Holds f b regs s' none cells rf area base where
  regs_size := h.regs_size
  base_size := h.base_size
  area_size := by
    have := h.area_size
    omega
  area_le := h.area_le
  shared := h.shared
  fits := h.fits
  value t u _ hu := by
    rw [hvalue] at hu
    cases hu
  slot t l hl := by
    rw [hslot] at hl
    cases hl

/-- An allocation from the recorded state `s₀` to its last state. -/
structure Allocated (f : Fragment) (b : BlockId) (regs : Array Register) (s₀ last : State) :
    Prop where
  prepared : Prepared f b regs s₀
  start : Reached f b regs s₀ [] (f.blockInstrs b) [] s₀
  run : (f.blockInstrs b).forM (visitInstr regs) s₀ = .ok ((), last)

/-- A run of the fragment and one of the allocated code are before the same instruction. -/
inductive Related (f : Fragment) (b : BlockId) (regs : Array Register) (s₀ last : State) :
    Config Cells σ → Config (Array UInt64) σ → Prop
  | intro {pre post D E : List InstrId} {s : State} {cells : Cells} {rf : Array UInt64}
      {area base : Array UInt8} {w : World σ} (reached : Reached f b regs s₀ pre post D s)
      (run : post.forM (visitInstr regs) s = .ok ((), last))
      (code : last.fragment.blockInstrs b = D ++ E)
      (size : area.size = last.fragment.localsSize.toNat)
      (holds : Holds f b regs s none cells rf area base) :
      Related f b regs s₀ last ⟨⟨post, []⟩, cells, ⟨base, w⟩⟩ ⟨⟨E, []⟩, rf, ⟨area, w⟩⟩

/-- Both runs go on to related places, or stop with the same result. -/
inductive SameTurn (f : Fragment) (b : BlockId) (regs : Array Register) (s₀ last : State) :
    Turn (Config Cells σ) (Result σ) → Turn (Config (Array UInt64) σ) (Result σ) → Prop
  | go {c : Config Cells σ} {d : Config (Array UInt64) σ} (h : Related f b regs s₀ last c d) :
      SameTurn f b regs s₀ last (.go c) (.go d)
  | stop (r : Result σ) : SameTurn f b regs s₀ last (.stop r) (.stop r)

/-- The exits among the targets of branches. -/
theorem filterMap_address? (g : Fragment) (l : List InstrId) :
    l.filterMap (Exit.address? g) = (l.filterMap (constantTarget? g)).filterMap fun c =>
      match c with
      | .i32 addr => some addr
      | _ => none := by
  rw [List.filterMap_filterMap]
  refine List.filterMap_congr fun i _ => ?_
  rw [Exit.address?, constantTarget?]
  cases Exit.target? (g.instr i) with
  | none => rfl
  | some v =>
    simp only [Option.bind_eq_bind, Option.bind_some]
    cases (g.value v).constant? with
    | none => rfl
    | some c => cases c <;> rfl

section
variable {last : State} (h : Allocated f b regs s₀ last)
include h

theorem Allocated.final : ∃ D, Reached f b regs s₀ (f.blockInstrs b) [] D last ∧
    last.fragment.blockInstrs b = D := by
  obtain ⟨s', E, hrun, hR, -, -⟩ := visitCode_ok h.prepared h.start
  rw [h.run] at hrun
  cases hrun
  refine ⟨E, by simpa using hR, ?_⟩
  have := hR.coded.chain.blockInstrs_eq
  simpa using this

theorem Allocated.order_eq : last.fragment.order = [b] := by
  obtain ⟨D, hR, -⟩ := h.final
  exact hR.coded.order_eq.trans h.prepared.straight.order_eq

theorem Allocated.statics_eq : Exit.statics last.fragment = Exit.statics f := by
  obtain ⟨D, hR, hD⟩ := h.final
  have hf : f.allInstrs = f.blockInstrs b := by
    simp [allInstrs, h.prepared.straight.order_eq]
  have hlast : last.fragment.allInstrs = D := by
    simp [allInstrs, h.order_eq, hD]
  rw [Exit.statics, Exit.statics, hf, hlast, filterMap_address?, filterMap_address?, hR.targets]

/-- The code behind a state of the allocation. -/
theorem Allocated.rest (hR : Reached f b regs s₀ pre post D s)
    (hrun : post.forM (visitInstr regs) s = .ok ((), last)) :
    ∃ E, last.fragment.blockInstrs b = D ++ E ∧ Keeps D s.fragment last.fragment ∧
      Widens s.fragment last.fragment := by
  obtain ⟨s', E, hrun', hR', hk, hw⟩ := visitCode_ok h.prepared hR
  rw [hrun] at hrun'
  cases hrun'
  exact ⟨E, by simpa using hR'.coded.chain.blockInstrs_eq, hk, hw⟩

theorem Allocated.startOf_eq : startOf f b = ⟨f.blockInstrs b, []⟩ ∧
    startOf last.fragment b = ⟨last.fragment.blockInstrs b, []⟩ := by
  rw [startOf, startOf, h.order_eq, h.prepared.straight.order_eq]
  simp

/-- Both runs are at the start of the block. -/
theorem Allocated.related_start {cells : Cells} {rf : Array UInt64} {area base : Array UInt8}
    (hh : Holds f b regs s none cells rf area base) (hle : f.localsSize ≤ s.fragment.localsSize)
    (hsize : area.size = last.fragment.localsSize.toNat) (w : World σ) :
    Related f b regs s₀ last ⟨startOf f b, cells, ⟨base, w⟩⟩
      ⟨startOf last.fragment b, rf, ⟨area, w⟩⟩ := by
  have hrecorded := h.prepared.recorded
  rw [h.startOf_eq.1, h.startOf_eq.2]
  refine .intro h.start h.run rfl hsize (hh.restart hrecorded.value_eq hrecorded.slot_eq ?_)
  rw [hrecorded.fragment_eq]
  exact hle

/-- Both runs take a branch. -/
theorem Allocated.jump {cells : Cells} {rf : Array UInt64} {area base : Array UInt8}
    (hi : i ∈ f.blockInstrs b) (hbr : (f.instr i).op.isBranch)
    (hsame : SameArgs f last.fragment i)
    (hpoised : Poised f b regs s i last.fragment cells rf area base)
    (hh : Holds f b regs s none cells rf area base) (hle : f.localsSize ≤ s.fragment.localsSize)
    (hsize : area.size = last.fragment.localsSize.toNat) (o : Offsets) (w : World σ) :
    SameTurn f b regs s₀ last
      (Meaning.jump f Meaning.cells o cells ⟨base, w⟩ (Exit.target? (f.instr i)))
      (Meaning.jump last.fragment (Meaning.registers last.fragment) o rf ⟨area, w⟩
        (Exit.target? (last.fragment.instr i))) := by
  cases hsame.target with
  | none hf hg =>
    rw [hf, hg]
    exact .stop _
  | @constant a u c hf hg ho ho' =>
    rw [hf, hg]
    simp only [Meaning.jump, ho, ho', h.statics_eq]
    cases c
    case blk b' =>
      have hmem := h.prepared.straight.wellFormed.target a b' ho
      rw [h.prepared.straight.order_eq, List.mem_singleton] at hmem
      subst hmem
      exact .go (h.related_start hh hle hsize w)
    all_goals
      dsimp only
      split <;> exact .stop _
  | @computed n a u j k hf hg ha hu ho ho' =>
    have hagree := hpoised.agree n
    rw [argBits, argBits, ha, hu] at hagree
    simp only [bits, ho, ho'] at hagree
    have hexact := (h.prepared.straight.wellTyped i hi).exact hagree
      (takesFloat_of_isBranch hbr n)
    rw [hf, hg]
    simp only [Meaning.jump, ho, ho', hexact]
    exact .stop _

/-- The local area is accessed below the slots or out of range. -/
theorem Allocated.local_offset (hi : i ∈ f.blockInstrs b)
    (hop : (f.instr i).op = .loadLocal ∨ (f.instr i).op = .storeLocal) (cells : Cells) :
    (argBits f Meaning.cells cells (f.instr i) 0).toNat + (opTy f (f.instr i)).bytes ≤
        f.localsSize.toNat ∨
      2 ^ 31 ≤ (argBits f Meaning.cells cells (f.instr i) 0).toNat := by
  obtain ⟨v, offset, harg, ho, hslot⟩ := h.prepared.straight.slots i hi hop
  have hle := h.prepared.straight.wellFormed.local_le _ hslot
  have hbits : (argBits f Meaning.cells cells (f.instr i) 0).toNat = offset.toNat := by
    rw [argBits, harg]
    simp only [bits, ho, Constant.bits?, Option.getD_some, UInt32.toNat_toUInt64]
  have hint : offset.toInt32.toInt =
      if 2 * offset.toNat < 2 ^ 32 then (offset.toNat : Int) else offset.toNat - 2 ^ 32 :=
    BitVec.toInt_eq_toNat_cond offset.toBitVec
  rw [hbits]
  dsimp only at hle
  split at hint <;> omega

/-- Both runs execute an operation. -/
theorem Allocated.operate {E : List InstrId} {cells : Cells} {rf : Array UInt64}
    {area base : Array UInt8} (hi : i ∈ f.blockInstrs b) (hR : Reached f b regs s₀ pre post D s)
    (hrun : post.forM (visitInstr regs) s = .ok ((), last))
    (hcode : last.fragment.blockInstrs b = D ++ E) (hsame : SameArgs f last.fragment i)
    (hpoised : Poised f b regs s i last.fragment cells rf area base)
    (hbase : base.size = f.localsSize.toNat) (harea : base.size ≤ area.size)
    (hmax : area.size ≤ maxLocalsSize.toNat)
    (hsize : area.size = last.fragment.localsSize.toNat)
    (hbr : (f.instr i).op.isBranch = false) (gs : Guest σ) (o : Offsets) (w : World σ) :
    SameTurn f b regs s₀ last
      (runInstr f Meaning.cells gs o i ⟨post, []⟩ cells ⟨base, w⟩)
      (runInstr last.fragment (Meaning.registers last.fragment) gs o i ⟨E, []⟩ rf ⟨area, w⟩) := by
  have hwt := h.prepared.straight.wellTyped i hi
  obtain ⟨D', hlast, -⟩ := h.final
  have hop : (last.fragment.instr i).op = (f.instr i).op := hlast.coded.op_eq i hi
  have hres : (last.fragment.instr i).result = (f.instr i).result := hlast.coded.result_eq i hi
  have hopTy : opTy last.fragment (last.fragment.instr i) = opTy f (f.instr i) := by
    rw [opTy, opTy, hres, hsame.argTy_eq]
    cases hv : (f.instr i).result with
    | none => rfl
    | some v =>
      exact hlast.coded.ty_eq v
        (h.prepared.straight.wellFormed.result i (h.prepared.mem_allInstrs hi) v hv).1
  have hnone : ∀ bits : Option UInt64, (f.instr i).result = none →
      keep f Meaning.cells (f.instr i) cells bits = cells ∧
        keep last.fragment (Meaning.registers last.fragment) (last.fragment.instr i) rf
          bits = rf := by
    intro bits hr
    unfold keep
    rw [hres, hr]
    exact ⟨rfl, rfl⟩
  -- What holds behind the operation, whatever it did to the local area.
  have hgo : ∀ {base' area' : Array UInt8} {cells' : Cells} {rf' : Array UInt64} (w' : World σ),
      SameBase base area base' area' → Holds f b regs s none cells' rf' area base →
      SameTurn f b regs s₀ last (.go ⟨⟨post, []⟩, cells', ⟨base', w'⟩⟩)
        (.go ⟨⟨E, []⟩, rf', ⟨area', w'⟩⟩) := fun w' hb hh =>
    .go (.intro hR hrun hcode (hb.area_size.trans hsize)
      (hh.sameBase (fun t l hl => (hR.packed.slot t l hl).offset_le) hb))
  have hagree := hwt.perform_agree gs o (hpoised.agree 0) (hpoised.agree 1) (hpoised.agree 2)
    ⟨area, w⟩
  let bits (n : Slot) : UInt64 := argBits f Meaning.cells cells (f.instr i) n
  have hlocals := perform_sameLocals gs o (opTy f (f.instr i)) (argTy f (f.instr i) 0)
    (argTy f (f.instr i) 1) (bits 0) (bits 1) (bits 2) w harea hmax hpoised.shared
    (fun hl => hbase ▸ h.local_offset hi hl cells)
  have hsome : (f.instr i).op.hasResult → ∀ {x m}, perform gs o (f.instr i).op
      (opTy f (f.instr i)) (argTy f (f.instr i) 0) (argTy f (f.instr i) 1) (bits 0)
      (bits 1) (bits 2)
      ⟨base, w⟩ = .ok (x, m) → x.isSome := fun hr _ _ => perform_isSome gs o hr _ _ _ _ _ _ _
  simp only [runInstr, hop, hbr, Bool.false_eq_true, if_false, hopTy, hsame.argTy_eq]
  generalize perform gs o (f.instr i).op _ _ _ _ _ _ ⟨base, w⟩ = P at hlocals hsome ⊢
  generalize perform gs o (f.instr i).op _ _ _ (bits 0) _ _ ⟨area, w⟩ = Q at hlocals hagree
  generalize perform gs o (f.instr i).op _ _ _ _ _ _ ⟨area, w⟩ = Q' at hagree ⊢
  cases hlocals with
  | error e =>
    cases hagree
    exact .stop _
  | ok hb bits w' =>
    cases hv : (f.instr i).result with
    | none =>
      have hh := hpoised.holds hv
      cases hagree with
      | none =>
        dsimp only
        rw [(hnone none hv).1, (hnone none hv).2]
        exact hgo w' hb hh
      | @some x x' =>
        dsimp only
        rw [(hnone (some x) hv).1, (hnone (some x') hv).2]
        exact hgo w' hb hh
    | some v =>
      have hopTy' : opTy f (f.instr i) = f.ty v := by rw [opTy, hv]
      cases hagree with
      | none =>
        have := hsome (hwt.result (by simp [hv])) rfl
        cases this
      | some hx =>
        rw [hopTy'] at hx
        exact hgo w' hb (hpoised.keep v _ _ hv hx)

/-- Both runs execute an instruction. -/
theorem Allocated.runInstr_same {E : List InstrId} {cells : Cells} {rf : Array UInt64}
    {area base : Array UInt8} (hi : i ∈ f.blockInstrs b) (hR : Reached f b regs s₀ pre post D s)
    (hrun : post.forM (visitInstr regs) s = .ok ((), last))
    (hcode : last.fragment.blockInstrs b = D ++ E) (hsame : SameArgs f last.fragment i)
    (hpoised : Poised f b regs s i last.fragment cells rf area base)
    (hbase : base.size = f.localsSize.toNat) (harea : base.size ≤ area.size)
    (hmax : area.size ≤ maxLocalsSize.toNat)
    (hsize : area.size = last.fragment.localsSize.toNat) (gs : Guest σ) (o : Offsets)
    (w : World σ) :
    SameTurn f b regs s₀ last
      (runInstr f Meaning.cells gs o i ⟨post, []⟩ cells ⟨base, w⟩)
      (runInstr last.fragment (Meaning.registers last.fragment) gs o i ⟨E, []⟩ rf ⟨area, w⟩) := by
  cases hbr : (f.instr i).op.isBranch with
  | false =>
    exact h.operate hi hR hrun hcode hsame hpoised hbase harea hmax hsize hbr gs o w
  | true =>
    have hwt := h.prepared.straight.wellTyped i hi
    have hres : (f.instr i).result = none := by
      cases hv : (f.instr i).result with
      | none => rfl
      | some v => exact absurd (hwt.result (by simp [hv])) (by simp [hasResult_of_isBranch hbr])
    have hh := hpoised.holds hres
    have hcond := hwt.exact (hpoised.agree 0) (takesFloat_of_isBranch hbr 0)
    simp only [runInstr, hsame.op_eq, hbr, if_true, hcond]
    split
    · exact h.jump hi hbr hsame hpoised hh hR.packed.size_ge hsize o w
    · exact .go (.intro hR hrun hcode hsize hh)

theorem Allocated.advance (gs : Guest σ) (o : Offsets) (c : Config Cells σ)
    (d : Config (Array UInt64) σ) (hcd : Related f b regs s₀ last c d) :
    Advance (step f Meaning.cells gs o)
      (step last.fragment (Meaning.registers last.fragment) gs o) (Related f b regs s₀ last)
      (· = ·) c d := by
  cases hcd with
  | @intro pre post D E s cells rf area base w hR hrun hcode hsize hh =>
    cases post with
    | nil =>
      cases hrun
      have hD := hR.coded.chain.blockInstrs_eq
      rw [hcode, List.append_nil, List.append_right_eq_self] at hD
      subst hD
      exact .stop ⟨0, .stop (step_end ..)⟩ ⟨0, .stop (step_end ..)⟩ rfl
    | cons i post =>
      have hi : i ∈ f.blockInstrs b := by rw [hR.split]; simp
      obtain ⟨s₁, chunk, hvisit, hV⟩ := visitInstr_ok h.prepared hR
      have hrun₁ : post.forM (visitInstr regs) s₁ = .ok ((), last) := by
        change (visitInstr regs i >>= fun _ => post.forM (visitInstr regs)) s = _ at hrun
        rw [bind_ok hvisit] at hrun
        exact hrun
      obtain ⟨E₁, hcode₁, hk, hw⟩ := h.rest hV.reached hrun₁
      obtain rfl : E = chunk ++ i :: E₁ := by
        rw [hcode₁] at hcode
        simpa only [List.append_assoc, List.append_cancel_left_eq, List.singleton_append, eq_comm]
          using hcode
      obtain ⟨n, rf', area', hgo, hsz, hpoised⟩ := hV.runs last.fragment hk hw.localsSize_le gs o E₁
        cells rf area base w hsize hh
      have harea : base.size ≤ area'.size := by
        have := hR.packed.size_ge
        have := hh.area_size
        rw [hsz, hh.base_size]
        omega
      have hturn := h.runInstr_same hi hV.reached hrun₁ hcode₁ (hV.sameArgs.keeps (by simp) hk)
        hpoised hh.base_size harea (hsz ▸ hh.area_le) (hsz.trans hsize) gs o w
      rw [← step_instr, ← step_instr] at hturn
      generalize hl : step f Meaning.cells gs o _ = left at hturn
      generalize hr : step last.fragment (Meaning.registers last.fragment) gs o _ = right at hturn
      cases hturn with
      | go hrel => exact .go (m := 0) (.single hl) (hgo.trans (.single hr)) hrel
      | stop r => exact .stop ⟨0, .stop hl⟩ (hgo.ends ⟨0, .stop hr⟩) rfl

end

end Recompiler.Pass.Allocation
