import Recompiler.Proofs.IR.Chain

/-!
What it means to emit an instruction: it is inserted into the list of its block at the insert point,
and everything that was there stays, up to links and uses.
-/
namespace Recompiler.IR.Fragment

variable {f f' : Fragment} {b : BlockId} {l₁ l₂ : List InstrId} {i : InstrId}

/-! ### Arguments -/

theorem instr_clearArg (i j : InstrId) (n : Slot) :
    (f.clearArg i n).instr j =
      if j = i ∧ j.index < f.instrs.size then
        { f.instr j with args := n.put none (f.instr j).args }
      else f.instr j := by
  rw [clearArg]
  cases ha : (f.instr i).arg n with
  | none =>
    dsimp only
    split
    · next h =>
      obtain ⟨rfl, _⟩ := h
      have : n.put none (f.instr j).args = (f.instr j).args := by
        apply Vector.ext
        intro m hm
        have := Slot.get_put n ⟨m, hm⟩ none (f.instr j).args
        change (n.put none (f.instr j).args)[m] = _ at this
        rw [this]
        split
        · next e =>
          subst e
          exact ha.symm
        · rfl
      rw [this]
    · rfl
  | some v => simp only [instr_modifyValue, instr_modifyInstr]

theorem instr_setArg (i j : InstrId) (n : Slot) (v : ValueId) :
    (f.setArg i n v).instr j =
      if j = i ∧ j.index < f.instrs.size then
        { f.instr j with args := n.put (some v) (f.instr j).args }
      else f.instr j := by
  have hput : ∀ row : Vector (Option ValueId) 3, n.put (some v) (n.put none row) =
    n.put (some v) row := by
    intro row
    simp [Slot.put]
  have hsize : (f.clearArg i n).instrs.size = f.instrs.size := by
    unfold clearArg
    split <;> simp
  rw [setArg]
  simp only [instr_modifyValue, instr_modifyInstr, instr_clearArg, hsize]
  split
  · simp [*]
  · rfl

@[simp] theorem size_instrs_setArg (i : InstrId) (n : Slot) (v : ValueId) :
    (f.setArg i n v).instrs.size = f.instrs.size := by
  unfold setArg clearArg
  split <;> simp

/-- Two fragments have the same values, up to their uses. -/
structure SameValues (f f' : Fragment) : Prop where
  size_eq : f'.values.size = f.values.size
  ty_eq : ∀ v, (f'.value v).ty = (f.value v).ty
  origin_eq : ∀ v, (f'.value v).origin = (f.value v).origin
  reg_eq : ∀ v, (f'.value v).reg = (f.value v).reg

theorem SameValues.refl (f : Fragment) : SameValues f f :=
  ⟨rfl, fun _ => rfl, fun _ => rfl, fun _ => rfl⟩

theorem SameValues.trans {g : Fragment} (h : SameValues f f') (h' : SameValues f' g) :
    SameValues f g :=
  ⟨h'.size_eq.trans h.size_eq, fun v => (h'.ty_eq v).trans (h.ty_eq v),
    fun v => (h'.origin_eq v).trans (h.origin_eq v), fun v => (h'.reg_eq v).trans (h.reg_eq v)⟩

theorem sameValues_modifyUses (v : ValueId) (g : List Use → List Use)
    (h : f'.values = f.values.modify v.index fun val => { val with uses := g val.uses }) :
    SameValues f f' := by
  have hvalue : ∀ u, f'.value u =
      (f.modifyValue v fun val => { val with uses := g val.uses }).value u := by
    intro u
    rw [value, value, h, modifyValue]
  refine ⟨by rw [h]; simp, fun u => ?_, fun u => ?_, fun u => ?_⟩ <;>
  · rw [hvalue, value_modifyValue]
    split <;> rfl

theorem sameValues_clearArg (f : Fragment) (i : InstrId) (n : Slot) :
    SameValues f (f.clearArg i n) := by
  unfold clearArg
  split
  · next v _ =>
    exact sameValues_modifyUses v (·.filter (· != ⟨i, n⟩)) (by simp only [modifyValue, modifyInstr])
  · exact .refl f

theorem sameValues_setArg (f : Fragment) (i : InstrId) (n : Slot) (v : ValueId) :
    SameValues f (f.setArg i n v) :=
  (sameValues_clearArg f i n).trans
    (sameValues_modifyUses v (· ++ [⟨i, n⟩]) (by simp only [setArg, modifyValue, modifyInstr]))

/-- Two fragments differ in values, and in the arguments of instructions, only. -/
structure SameFrame (f f' : Fragment) : Prop where
  blocks_eq : f'.blocks = f.blocks
  order_eq : f'.order = f.order
  locals_eq : f'.locals = f.locals
  localsSize_eq : f'.localsSize = f.localsSize
  point_eq : f'.point = f.point

theorem SameFrame.trans {g : Fragment} (h : SameFrame f f') (h' : SameFrame f' g) :
    SameFrame f g :=
  ⟨h'.blocks_eq.trans h.blocks_eq, h'.order_eq.trans h.order_eq,
    h'.locals_eq.trans h.locals_eq, h'.localsSize_eq.trans h.localsSize_eq,
    h'.point_eq.trans h.point_eq⟩

theorem sameFrame_setArg (f : Fragment) (i : InstrId) (n : Slot) (v : ValueId) :
    SameFrame f (f.setArg i n v) := by
  unfold setArg clearArg
  split <;> exact ⟨rfl, rfl, rfl, rfl, rfl⟩

theorem Chain.setArg (h : Chain f b l₁) (i : InstrId) (n : Slot) (v : ValueId) :
    Chain (f.setArg i n v) b l₁ := by
  have hframe := sameFrame_setArg f i n v
  have hblock : (f.setArg i n v).block b = f.block b := by rw [block, hframe.blocks_eq, block]
  refine h.congr ?_ (by rw [hblock]) (by rw [hblock]) (fun j hj => by simpa using h.lt j hj) ?_
  · rw [hframe.blocks_eq]
    exact h.block_lt
  · intro j _
    rw [instr_setArg]
    split <;> exact ⟨rfl, rfl, rfl, rfl⟩

/-- A fragment grows: old values and instructions stay, up to links and uses. -/
structure Grows (f f' : Fragment) : Prop where
  values_le : f.values.size ≤ f'.values.size
  instrs_le : f.instrs.size ≤ f'.instrs.size
  ty_eq : ∀ v : ValueId, v.index < f.values.size → (f'.value v).ty = (f.value v).ty
  origin_eq : ∀ v : ValueId, v.index < f.values.size → (f'.value v).origin = (f.value v).origin
  reg_eq : ∀ v : ValueId, v.index < f.values.size → (f'.value v).reg = (f.value v).reg
  op_eq : ∀ i : InstrId, i.index < f.instrs.size → (f'.instr i).op = (f.instr i).op
  args_eq : ∀ i : InstrId, i.index < f.instrs.size → (f'.instr i).args = (f.instr i).args
  result_eq : ∀ i : InstrId, i.index < f.instrs.size → (f'.instr i).result = (f.instr i).result

theorem Grows.refl (f : Fragment) : Grows f f :=
  ⟨Nat.le_refl _, Nat.le_refl _, fun _ _ => rfl, fun _ _ => rfl, fun _ _ => rfl, fun _ _ => rfl,
    fun _ _ => rfl, fun _ _ => rfl⟩

theorem Grows.trans {g : Fragment} (h : Grows f f') (h' : Grows f' g) : Grows f g where
  values_le := Nat.le_trans h.values_le h'.values_le
  instrs_le := Nat.le_trans h.instrs_le h'.instrs_le
  ty_eq v hv := (h'.ty_eq v (Nat.lt_of_lt_of_le hv h.values_le)).trans (h.ty_eq v hv)
  origin_eq v hv := (h'.origin_eq v (Nat.lt_of_lt_of_le hv h.values_le)).trans (h.origin_eq v hv)
  reg_eq v hv := (h'.reg_eq v (Nat.lt_of_lt_of_le hv h.values_le)).trans (h.reg_eq v hv)
  op_eq i hi := (h'.op_eq i (Nat.lt_of_lt_of_le hi h.instrs_le)).trans (h.op_eq i hi)
  args_eq i hi := (h'.args_eq i (Nat.lt_of_lt_of_le hi h.instrs_le)).trans (h.args_eq i hi)
  result_eq i hi := (h'.result_eq i (Nat.lt_of_lt_of_le hi h.instrs_le)).trans (h.result_eq i hi)

theorem value_addValue_lt (val : Value) {v : ValueId} (hv : v.index < f.values.size) :
    (f.addValue val).1.value v = f.value v := getD_push_lt _ _ _ hv

theorem value_addValue_new (val : Value) : (f.addValue val).1.value ⟨f.values.size⟩ = val :=
  getD_push_self _ _ _

theorem grows_addValue (f : Fragment) (val : Value) : Grows f (f.addValue val).1 where
  values_le := by simp [addValue]
  instrs_le := Nat.le_refl _
  ty_eq v hv := by rw [value_addValue_lt val hv]
  origin_eq v hv := by rw [value_addValue_lt val hv]
  reg_eq v hv := by rw [value_addValue_lt val hv]
  op_eq _ _ := rfl
  args_eq _ _ := rfl
  result_eq _ _ := rfl

theorem Chain.setPoint {l : List InstrId} (h : Chain f b l) (p : InsertPoint) :
    Chain (f.setPoint p) b l :=
  h.congr h.block_lt rfl rfl h.lt fun _ _ => ⟨rfl, rfl, rfl, rfl⟩

theorem grows_setPoint (f : Fragment) (p : InsertPoint) : Grows f (f.setPoint p) :=
  ⟨Nat.le_refl _, Nat.le_refl _, fun _ _ => rfl, fun _ _ => rfl, fun _ _ => rfl, fun _ _ => rfl,
    fun _ _ => rfl, fun _ _ => rfl⟩

/-! ### Instructions -/

/-- The instruction `i` was emitted into `b`, between `l₁` and `l₂`. -/
structure Emitted (f f' : Fragment) (b : BlockId) (l₁ l₂ : List InstrId) (op : Opcode)
    (ty : Option Ty) (args : List ValueId) (i : InstrId) : Prop where
  id_eq : i = ⟨f.instrs.size⟩
  grows : Grows f f'
  chain : Chain f' b (l₁ ++ i :: l₂)
  chains : ∀ c l, c ≠ b → Chain f c l → Chain f' c l
  size_instrs : f'.instrs.size = f.instrs.size + 1
  size_values : f'.values.size = f.values.size + ty.toList.length
  op_eq : (f'.instr i).op = op
  arg_eq : ∀ n : Slot, (f'.instr i).arg n = args[n.val]?
  result_eq : (f'.instr i).result = ty.map fun _ => ⟨f.values.size⟩
  value_eq : ∀ t, ty = some t → (f'.value ⟨f.values.size⟩).ty = t ∧
    (f'.value ⟨f.values.size⟩).origin = .result i ∧ (f'.value ⟨f.values.size⟩).reg = none
  size_blocks : f'.blocks.size = f.blocks.size
  edges_eq : ∀ c, (f'.block c).edges = (f.block c).edges
  order_eq : f'.order = f.order
  locals_eq : f'.locals = f.locals
  localsSize_eq : f'.localsSize = f.localsSize
  point_eq : f'.point = ⟨some b, some i⟩

/-- The fragment with the result of a new instruction, if it has one. -/
def withResult (f : Fragment) (ty : Option Ty) : Fragment × Option ValueId :=
  match ty with
  | some ty => ((f.addValue { ty, origin := .result ⟨f.instrs.size⟩ }).1, some ⟨f.values.size⟩)
  | none => (f, none)

/-- The fragment with a new instruction that is not linked yet. -/
def withInstr (f : Fragment) (op : Opcode) (ty : Option Ty) (b : BlockId) : Fragment :=
  let (f', result) := f.withResult ty
  { f' with instrs := f.instrs.push { op, result, block := b } }

theorem appendInstr_eq (op : Opcode) (ty : Option Ty) {after : Option InstrId}
    (hp : f.point = ⟨some b, after⟩) :
    f.appendInstr op ty =
      (((f.withInstr op ty b).linkAfter b after ⟨f.instrs.size⟩).setPoint
        ⟨some b, some ⟨f.instrs.size⟩⟩, ⟨f.instrs.size⟩) := by
  have hpoint : (f.withInstr op ty b).point = ⟨some b, after⟩ := by
    cases ty <;> exact hp
  cases ty <;>
  · rw [appendInstr, ensureBlock, hp]
    simp only [withInstr, withResult, addValue] at hpoint ⊢
    rw [hpoint, linkAfter_eq]

theorem instr_withInstr_lt (op : Opcode) (ty : Option Ty) (b : BlockId) {j : InstrId}
    (hj : j.index < f.instrs.size) : (f.withInstr op ty b).instr j = f.instr j := by
  cases ty <;> exact getD_push_lt _ _ _ hj

theorem instr_withInstr_new (op : Opcode) (ty : Option Ty) (b : BlockId) :
    (f.withInstr op ty b).instr ⟨f.instrs.size⟩ =
      { op, result := ty.map fun _ => ⟨f.values.size⟩, block := b } := by
  cases ty <;> exact getD_push_self _ _ _

theorem size_instrs_withInstr (op : Opcode) (ty : Option Ty) (b : BlockId) :
    (f.withInstr op ty b).instrs.size = f.instrs.size + 1 := by
  cases ty <;> simp [withInstr, withResult, addValue]

theorem grows_withInstr (op : Opcode) (ty : Option Ty) (b : BlockId) :
    Grows f (f.withInstr op ty b) := by
  have hvalues : Grows f (f.withResult ty).1 := by
    cases ty with
    | none => exact .refl f
    | some ty => exact grows_addValue f _
  refine ⟨hvalues.values_le, by simp [size_instrs_withInstr], hvalues.ty_eq, hvalues.origin_eq,
    hvalues.reg_eq, ?_, ?_, ?_⟩ <;>
  · intro j hj
    rw [instr_withInstr_lt op ty b hj]

theorem Chain.withInstr {l : List InstrId} {c : BlockId} (h : Chain f c l) (op : Opcode)
    (ty : Option Ty) (b : BlockId) : Chain (f.withInstr op ty b) c l := by
  have hblocks : (f.withInstr op ty b).blocks = f.blocks := by cases ty <;> rfl
  have hblock : (f.withInstr op ty b).block c = f.block c := by rw [block, hblocks, block]
  refine h.congr (by rw [hblocks]; exact h.block_lt) (by rw [hblock]) (by rw [hblock])
    (fun i hi => ?_) (fun i hi => ?_)
  · rw [size_instrs_withInstr]
    exact Nat.lt_succ_of_lt (h.lt i hi)
  · rw [instr_withInstr_lt op ty b (h.lt i hi)]
    exact ⟨rfl, rfl, rfl, rfl⟩

/-- Linking an instruction leaves all of them what they are. -/
theorem same_linkAfter (f : Fragment) (b : BlockId) (after : Option InstrId) (i j : InstrId) :
    ((f.linkAfter b after i).instr j).op = (f.instr j).op ∧
      ((f.linkAfter b after i).instr j).args = (f.instr j).args ∧
      ((f.linkAfter b after i).instr j).result = (f.instr j).result := by
  unfold linkAfter
  dsimp only
  split <;> split <;> simp only [instr_modifyInstr, instr_modifyBlock, size_instrs_modifyInstr,
    size_instrs_modifyBlock] <;> repeat' split
  all_goals exact ⟨rfl, rfl, rfl⟩

theorem grows_linkAfter (f : Fragment) (b : BlockId) (after : Option InstrId) (i : InstrId) :
    Grows f (f.linkAfter b after i) := by
  have hinstr := same_linkAfter f b after i
  have hvalue : ∀ v, (f.linkAfter b after i).value v = f.value v := by
    intro v
    rw [linkAfter_eq]
    rfl
  refine ⟨?_, by simp, fun v _ => by rw [hvalue], fun v _ => by rw [hvalue],
    fun v _ => by rw [hvalue], fun j _ => (hinstr j).1, fun j _ => (hinstr j).2.1,
    fun j _ => (hinstr j).2.2⟩
  exact Nat.le_of_eq (by rw [linkAfter_eq])

/-- Linking an instruction into one block leaves the others as they are. -/
theorem Chain.linkAfter_other {c : BlockId} {l : List InstrId} (hc : Chain f c l) (hcb : c ≠ b)
    (h : Chain f b (l₁ ++ l₂)) (hi : i.index < f.instrs.size) (hnew : i ∉ l₁ ++ l₂)
    (hb : (f.instr i).block = b) : Chain (f.linkAfter b l₁.getLast? i) c l := by
  have hblock := block_linkAfter (i := i) h.following_eq h.block_lt c
  rw [if_neg hcb] at hblock
  have hout : ∀ j ∈ l, j ∉ l₁ ++ l₂ := by
    intro j hj hm
    exact hcb ((hc.block_eq j hj).symm.trans (h.block_eq j hm))
  refine hc.congr (by simpa using hc.block_lt) (by rw [hblock]) (by rw [hblock])
    (fun j hj => by simpa using hc.lt j hj) (fun j hj => ?_)
  have hji : j ≠ i := by
    rintro rfl
    exact hcb ((hc.block_eq j hj).symm.trans hb)
  have hnext : l₂.head? ≠ some j := fun e =>
    hout j hj (List.mem_append_right _ (List.mem_of_head? e))
  have hafter : l₁.getLast? ≠ some j := fun e =>
    hout j hj (List.mem_append_left _ (List.mem_of_getLast? e))
  rw [h.instr_linkAfter hi hnew, relink, if_neg hji]
  simp [hnext, hafter]

theorem emitted_appendInstr (h : Chain f b (l₁ ++ l₂)) (hp : f.point = ⟨some b, l₁.getLast?⟩)
    (op : Opcode) (ty : Option Ty) :
    Emitted f (f.appendInstr op ty).1 b l₁ l₂ op ty [] ⟨f.instrs.size⟩ := by
  rw [appendInstr_eq op ty hp]
  have hlt : (⟨f.instrs.size⟩ : InstrId).index < (f.withInstr op ty b).instrs.size := by
    simp [size_instrs_withInstr]
  have hnew : (⟨f.instrs.size⟩ : InstrId) ∉ l₁ ++ l₂ := by
    intro hm
    exact Nat.lt_irrefl _ (h.lt _ hm)
  have hlink := (h.withInstr op ty b).instr_linkAfter hlt hnew ⟨f.instrs.size⟩
  rw [relink, if_pos rfl, instr_withInstr_new] at hlink
  have hlinked := (h.withInstr op ty b).linkAfter hlt hnew
    (by rw [instr_withInstr_new]) (by rw [instr_withInstr_new])
  have hgrows := (grows_withInstr op ty b (f := f)).trans
    (grows_linkAfter (f.withInstr op ty b) b l₁.getLast? ⟨f.instrs.size⟩)
  have hblocks : (f.withInstr op ty b).blocks = f.blocks := by cases ty <;> rfl
  have hblock := block_linkAfter (i := ⟨f.instrs.size⟩) (h.withInstr op ty b).following_eq
    (h.withInstr op ty b).block_lt
  refine ⟨rfl, ⟨hgrows.values_le, hgrows.instrs_le, hgrows.ty_eq, hgrows.origin_eq, hgrows.reg_eq,
    hgrows.op_eq, hgrows.args_eq, hgrows.result_eq⟩, ?_, ?_, ?_, ?_, ?_, ?_, ?_, ?_, ?_, ?_, ?_, ?_,
    ?_, rfl⟩
  · exact hlinked.congr hlinked.block_lt rfl rfl hlinked.lt fun _ _ => ⟨rfl, rfl, rfl, rfl⟩
  · intro c l hcb hc
    have hother := (hc.withInstr op ty b).linkAfter_other hcb (h.withInstr op ty b) hlt hnew
      (by rw [instr_withInstr_new])
    exact hother.congr hother.block_lt rfl rfl hother.lt fun _ _ => ⟨rfl, rfl, rfl, rfl⟩
  · exact (size_instrs_linkAfter _).trans (size_instrs_withInstr op ty b)
  · rw [linkAfter_eq]
    cases ty <;> simp [setPoint, withInstr, withResult, addValue]
  · exact congrArg Instr.op hlink
  · intro n
    refine (congrArg (fun ins : Instr => ins.args.get n) hlink).trans ?_
    simp [Vector.get]
  · exact congrArg Instr.result hlink
  · intro t ht
    subst ht
    rw [linkAfter_eq]
    have := value_addValue_new (f := f) { ty := t, origin := .result ⟨f.instrs.size⟩ }
    exact ⟨congrArg Value.ty this, congrArg Value.origin this, congrArg Value.reg this⟩
  · exact (size_blocks_linkAfter _).trans (congrArg Array.size hblocks)
  · intro c
    have hc : (f.withInstr op ty b).block c = f.block c := by rw [block, hblocks, block]
    refine (congrArg Block.edges (hblock c)).trans ?_
    rw [hc]
    split <;> rfl
  · rw [linkAfter_eq]
    cases ty <;> rfl
  · rw [linkAfter_eq]
    cases ty <;> rfl
  · rw [linkAfter_eq]
    cases ty <;> rfl

/-- Filling positions of the new instruction. -/
theorem Emitted.setArg {op : Opcode} {ty : Option Ty} {args : List ValueId}
    (h : Emitted f f' b l₁ l₂ op ty args i) {n : Slot} (hn : args.length = n.val) (v : ValueId) :
    Emitted f (f'.setArg i n v) b l₁ l₂ op ty (args ++ [v]) i := by
  have hframe := sameFrame_setArg f' i n v
  have hvalues := sameValues_setArg f' i n v
  have hi : i.index < f'.instrs.size := by
    rw [h.size_instrs, h.id_eq]
    exact Nat.lt_succ_self _
  have hold : ∀ j : InstrId, j.index < f.instrs.size → (f'.setArg i n v).instr j = f'.instr j := by
    intro j hj
    rw [instr_setArg, if_neg]
    rintro ⟨rfl, -⟩
    rw [h.id_eq] at hj
    exact Nat.lt_irrefl _ hj
  have hnew : (f'.setArg i n v).instr i =
      { f'.instr i with args := n.put (some v) (f'.instr i).args } := by
    rw [instr_setArg, if_pos ⟨rfl, hi⟩]
  refine ⟨h.id_eq, ?_, h.chain.setArg i n v, fun c l hc hl => (h.chains c l hc hl).setArg i n v,
    (size_instrs_setArg i n v).trans h.size_instrs, hvalues.size_eq.trans h.size_values, ?_, ?_, ?_,
    ?_, ?_, ?_, hframe.order_eq.trans h.order_eq, hframe.locals_eq.trans h.locals_eq,
    hframe.localsSize_eq.trans h.localsSize_eq, hframe.point_eq.trans h.point_eq⟩
  · refine ⟨by rw [hvalues.size_eq]; exact h.grows.values_le,
      by rw [size_instrs_setArg]; exact h.grows.instrs_le,
      fun u hu => (hvalues.ty_eq u).trans (h.grows.ty_eq u hu),
      fun u hu => (hvalues.origin_eq u).trans (h.grows.origin_eq u hu),
      fun u hu => (hvalues.reg_eq u).trans (h.grows.reg_eq u hu), fun j hj => ?_, fun j hj => ?_,
      fun j hj => ?_⟩ <;> rw [hold j hj]
    · exact h.grows.op_eq j hj
    · exact h.grows.args_eq j hj
    · exact h.grows.result_eq j hj
  · rw [hnew]
    exact h.op_eq
  · intro m
    have hm := h.arg_eq m
    rw [Instr.arg] at hm
    rw [Instr.arg, hnew, Slot.get_put, hm]
    split
    · next e => simp [e, ← hn]
    · next e =>
      have : m.val ≠ n.val := fun e' => e (Fin.ext e')
      rw [List.getElem?_append]
      split
      · rfl
      · next hlt =>
        rw [List.getElem?_eq_none (by omega), List.getElem?_eq_none (by simp; omega)]
  · rw [hnew]
    exact h.result_eq
  · intro t ht
    obtain ⟨h₁, h₂, h₃⟩ := h.value_eq t ht
    exact ⟨(hvalues.ty_eq _).trans h₁, (hvalues.origin_eq _).trans h₂,
      (hvalues.reg_eq _).trans h₃⟩
  · rw [hframe.blocks_eq]
    exact h.size_blocks
  · intro c
    rw [block, hframe.blocks_eq]
    exact h.edges_eq c

theorem Emitted.setArgs {op : Opcode} {ty : Option Ty} (h : Emitted f f' b l₁ l₂ op ty [] i)
    {args : List ValueId} (hargs : args.length ≤ 3) :
    Emitted f (f'.setArgs i args) b l₁ l₂ op ty args i := by
  rw [Fragment.setArgs, show List.finRange 3 = [0, 1, 2] from rfl]
  rcases args with _ | ⟨a, _ | ⟨c, _ | ⟨d, rest⟩⟩⟩
  · exact h
  · exact h.setArg rfl a
  · exact (h.setArg rfl a).setArg rfl c
  · obtain rfl : rest = [] := List.eq_nil_of_length_eq_zero
      (by simp only [List.length_cons] at hargs; omega)
    exact ((h.setArg rfl a).setArg rfl c).setArg rfl d

/-- Emitting at a place in a block inserts the instruction there. -/
theorem emit_spec (h : Chain f b (l₁ ++ l₂)) (hp : f.point = ⟨some b, l₁.getLast?⟩) (op : Opcode)
    (ty : Option Ty) (args : List ValueId) (hargs : args.length ≤ 3) :
    ∃ f', Build.emit op ty args f = .ok (⟨f.instrs.size⟩, f') ∧
      Emitted f f' b l₁ l₂ op ty args ⟨f.instrs.size⟩ := by
  have happ := emitted_appendInstr h hp op ty
  have hid : (f.appendInstr op ty).2 = ⟨f.instrs.size⟩ := by rw [appendInstr_eq op ty hp]
  have hemit : Build.emit op ty args f =
      .ok (⟨f.instrs.size⟩, (f.appendInstr op ty).1.setArgs ⟨f.instrs.size⟩ args) := by
    rw [← hid]
    rfl
  refine ⟨_, hemit, ?_⟩
  exact happ.setArgs hargs

end Recompiler.IR.Fragment
