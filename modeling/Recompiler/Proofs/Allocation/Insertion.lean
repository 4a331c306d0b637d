import Recompiler.Proofs.Allocation.Invariant

/-! Spills and fills in the code: what their insertion leaves as it is. -/
namespace Recompiler.Pass.Allocation

open IR IR.Fragment Interp Machine Meaning

variable {f g g' : Fragment} {b : BlockId} {regs : Array Register} {D D' R R' : List InstrId}
  {j : InstrId}

/-- A fragment grows, or changes in registers and arguments. -/
structure Widens (g g' : Fragment) : Prop where
  values_le : g.values.size ≤ g'.values.size
  instrs_le : g.instrs.size ≤ g'.instrs.size
  ty_eq : ∀ v : ValueId, v.index < g.values.size → (g'.value v).ty = (g.value v).ty
  origin_eq : ∀ v : ValueId, v.index < g.values.size → (g'.value v).origin = (g.value v).origin
  op_eq : ∀ i : InstrId, i.index < g.instrs.size → (g'.instr i).op = (g.instr i).op
  result_eq : ∀ i : InstrId, i.index < g.instrs.size → (g'.instr i).result = (g.instr i).result
  order_eq : g'.order = g.order
  locals_le : g.locals.size ≤ g'.locals.size
  localSlot_eq : ∀ l : LocalId, l.index < g.locals.size → g'.localSlot l = g.localSlot l
  localsSize_le : g.localsSize ≤ g'.localsSize

theorem Widens.refl (g : Fragment) : Widens g g :=
  ⟨Nat.le_refl _, Nat.le_refl _, fun _ _ => rfl, fun _ _ => rfl, fun _ _ => rfl, fun _ _ => rfl,
    rfl, Nat.le_refl _, fun _ _ => rfl, Int.le_refl _⟩

theorem Widens.trans {g'' : Fragment} (h : Widens g g') (h' : Widens g' g'') : Widens g g'' where
  values_le := Nat.le_trans h.values_le h'.values_le
  instrs_le := Nat.le_trans h.instrs_le h'.instrs_le
  ty_eq v hv := (h'.ty_eq v (Nat.lt_of_lt_of_le hv h.values_le)).trans (h.ty_eq v hv)
  origin_eq v hv := (h'.origin_eq v (Nat.lt_of_lt_of_le hv h.values_le)).trans (h.origin_eq v hv)
  op_eq i hi := (h'.op_eq i (Nat.lt_of_lt_of_le hi h.instrs_le)).trans (h.op_eq i hi)
  result_eq i hi := (h'.result_eq i (Nat.lt_of_lt_of_le hi h.instrs_le)).trans (h.result_eq i hi)
  order_eq := h'.order_eq.trans h.order_eq
  locals_le := Nat.le_trans h.locals_le h'.locals_le
  localSlot_eq l hl :=
    (h'.localSlot_eq l (Nat.lt_of_lt_of_le hl h.locals_le)).trans (h.localSlot_eq l hl)
  localsSize_le := Int.le_trans h.localsSize_le h'.localsSize_le

theorem widens_of_grows (h : Grows g g') (horder : g'.order = g.order)
    (hlocals : g'.locals = g.locals) (hsize : g'.localsSize = g.localsSize) : Widens g g' :=
  ⟨h.values_le, h.instrs_le, h.ty_eq, h.origin_eq, h.op_eq, h.result_eq, horder,
    Nat.le_of_eq (by rw [hlocals]), fun l _ => by rw [localSlot, hlocals, localSlot],
    Int.le_of_eq hsize.symm⟩

/-! ### Final code stays -/

theorem Coded.lt (h : Coded f b regs D R g) (hj : j ∈ D) : j.index < g.instrs.size :=
  h.chain.lt j (List.mem_append_left _ hj)

theorem Coded.mentions_lt (h : Coded f b regs D R g) {v : ValueId} (hv : Mentions D g v) :
    v.index < g.values.size := by
  obtain ⟨j, hj, ⟨n, hn⟩ | hr⟩ := hv
  · rcases (h.final j hj).arg n v hn with ⟨hlt, -⟩ | ⟨hreg, -⟩
    · exact hlt
    · exact hreg.lt
  · exact ((h.final j hj).result v hr).1.lt

/-- A result of an instruction that is not final is not referred to by final code. -/
theorem Coded.not_mentions (h : Coded f b regs D R g) {v : ValueId} (hj : j ∉ D)
    (hv : (g.value v).origin = .result j) : ¬ Mentions D g v := by
  rintro ⟨k, hk, ⟨n, hn⟩ | hr⟩
  · rcases (h.final k hk).arg n v hn with ⟨-, c, hc, -⟩ | ⟨-, i, hi, hc⟩
    · rw [hv] at hc
      cases hc
    · rw [hv] at hc
      cases hc
      exact hj hi
  · have hc := ((h.final k hk).result v hr).2
    rw [hv] at hc
    cases hc
    exact hj hk

theorem Coded.keeps_of_grows (h : Coded f b regs D R g) (hg : Grows g g') : Keeps D g g' where
  op_eq j hj := hg.op_eq j (h.lt hj)
  args_eq j hj := hg.args_eq j (h.lt hj)
  result_eq j hj := hg.result_eq j (h.lt hj)
  ty_eq v hv := hg.ty_eq v (h.mentions_lt hv)
  origin_eq v hv := hg.origin_eq v (h.mentions_lt hv)
  reg_eq v hv := hg.reg_eq v (h.mentions_lt hv)

theorem keeps_setReg {u : ValueId} (hu : ¬ Mentions D g u) (r : Option UInt8) :
    Keeps D g (g.modifyValue u ({ · with reg := r })) := by
  refine ⟨fun _ _ => rfl, fun _ _ => rfl, fun _ _ => rfl, fun v hv => ?_, fun v hv => ?_,
    fun v hv => ?_⟩ <;>
  · rw [value_modifyValue, if_neg]
    rintro ⟨rfl, -⟩
    exact hu hv

theorem widens_setReg (g : Fragment) (u : ValueId) (r : Option UInt8) :
    Widens g (g.modifyValue u ({ · with reg := r })) := by
  refine ⟨by simp, Nat.le_refl _, fun v _ => ?_, fun v _ => ?_, fun _ _ => rfl, fun _ _ => rfl,
    rfl, Nat.le_refl _, fun _ _ => rfl, Int.le_refl _⟩ <;>
  · rw [value_modifyValue]
    split <;> rfl

theorem keeps_setArg (hj : j ∉ D) (n : Slot) (v : ValueId) : Keeps D g (g.setArg j n v) := by
  have hvalues := sameValues_setArg g j n v
  have hinstr : ∀ k ∈ D, (g.setArg j n v).instr k = g.instr k := by
    intro k hk
    rw [instr_setArg, if_neg]
    rintro ⟨rfl, -⟩
    exact hj hk
  exact ⟨fun k hk => by rw [hinstr k hk], fun k hk => by rw [hinstr k hk],
    fun k hk => by rw [hinstr k hk], fun v _ => hvalues.ty_eq v, fun v _ => hvalues.origin_eq v,
    fun v _ => hvalues.reg_eq v⟩

theorem widens_setArg (g : Fragment) (j : InstrId) (n : Slot) (v : ValueId) :
    Widens g (g.setArg j n v) := by
  have hvalues := sameValues_setArg g j n v
  have hframe := sameFrame_setArg g j n v
  refine ⟨Nat.le_of_eq hvalues.size_eq.symm, Nat.le_of_eq (size_instrs_setArg j n v).symm,
    fun v _ => hvalues.ty_eq v, fun v _ => hvalues.origin_eq v, fun i _ => ?_, fun i _ => ?_,
    hframe.order_eq, Nat.le_of_eq (by rw [hframe.locals_eq]),
    fun l _ => by rw [localSlot, hframe.locals_eq, localSlot],
      Int.le_of_eq hframe.localsSize_eq.symm⟩ <;>
  · rw [instr_setArg]
    split <;> rfl

theorem InRegister.keeps {v : ValueId} (h : InRegister regs g v) (hk : Keeps D g g')
    (hw : Widens g g') (hv : Mentions D g v) : InRegister regs g' v where
  lt := Nat.lt_of_lt_of_le h.lt hw.values_le
  scalar := by
    rw [Fragment.ty, hk.ty_eq v hv]
    exact h.scalar
  reg := by
    rw [hk.reg_eq v hv]
    exact h.reg

theorem Final.keeps (h : Final regs D g j) (hj : j ∈ D') (hk : Keeps D' g g') (hw : Widens g g') :
    Final regs D g' j where
  arg n v hv := by
    rw [hk.arg_eq hj n] at hv
    have hm := mentions_arg hj hv
    rw [hk.origin_eq v hm, hk.ty_eq v hm]
    rcases h.arg n v hv with ⟨hlt, hc⟩ | ⟨hreg, hd⟩
    · exact .inl ⟨Nat.lt_of_lt_of_le hlt hw.values_le, hc⟩
    · exact .inr ⟨hreg.keeps hk hw hm, hd⟩
  result v hv := by
    rw [hk.result_eq j hj] at hv
    have hm := mentions_result hj hv
    obtain ⟨hreg, ho⟩ := h.result v hv
    exact ⟨hreg.keeps hk hw hm, by rw [hk.origin_eq v hm]; exact ho⟩

theorem Final.mono (h : Final regs D g j) (hD : D ⊆ D') : Final regs D' g j where
  arg n v hv := (h.arg n v hv).imp id fun ⟨hreg, k, hk, ho⟩ => ⟨hreg, k, hD hk, ho⟩
  result := h.result

theorem Coded.widen (h : Coded f b regs D R g) (hk : Keeps D g g') (hw : Widens g g')
    (hc : g'.Chain b (D ++ R')) (hlt : ∀ i ∈ f.blockInstrs b, i.index < f.instrs.size) :
    Coded f b regs D R' g' where
  chain := hc
  order_eq := hw.order_eq.trans h.order_eq
  values_le := Nat.le_trans h.values_le hw.values_le
  instrs_le := Nat.le_trans h.instrs_le hw.instrs_le
  ty_eq v hv := (hw.ty_eq v (Nat.lt_of_lt_of_le hv h.values_le)).trans (h.ty_eq v hv)
  origin_eq v hv := (hw.origin_eq v (Nat.lt_of_lt_of_le hv h.values_le)).trans (h.origin_eq v hv)
  op_eq i hi := (hw.op_eq i (Nat.lt_of_lt_of_le (hlt i hi) h.instrs_le)).trans (h.op_eq i hi)
  result_eq i hi :=
    (hw.result_eq i (Nat.lt_of_lt_of_le (hlt i hi) h.instrs_le)).trans (h.result_eq i hi)
  final j hj := (h.final j hj).keeps hj hk hw

/-- The next instruction is final as well. -/
theorem Coded.push (h : Coded f b regs D (j :: R) g) (hj : Final regs D g j) :
    Coded f b regs (D ++ [j]) R g where
  chain := by simpa using h.chain
  order_eq := h.order_eq
  values_le := h.values_le
  instrs_le := h.instrs_le
  ty_eq := h.ty_eq
  origin_eq := h.origin_eq
  op_eq := h.op_eq
  result_eq := h.result_eq
  final k hk := by
    rcases List.mem_append.mp hk with hk | hk
    · exact (h.final k hk).mono (List.subset_append_left D [j])
    · rw [List.mem_singleton.mp hk]
      exact hj.mono (List.subset_append_left D [j])

/-! ### Accesses to slots -/

/-- Instruction `k` accesses the local area at a constant offset. -/
structure IsAccess (g : Fragment) (k : InstrId) (op : Opcode) (offset : Int) (v : Option ValueId) :
    Prop where
  op_eq : (g.instr k).op = op
  arg_zero : ∃ c, (g.instr k).arg 0 = some c ∧ c.index < g.values.size ∧ (g.value c).ty = .i32 ∧
    (g.value c).origin = .constant (.i32 (Int32.ofInt offset).toUInt32)
  arg_one : (g.instr k).arg 1 = v
  arg_two : (g.instr k).arg 2 = none

theorem emitAccess_ok (h : g.Chain b (D ++ R)) (hp : g.point = ⟨some b, D.getLast?⟩) (op : Opcode)
    (ty : Option Ty) (offset : Int) (v : Option ValueId) :
    ∃ g' i, Build.emit op ty (⟨g.values.size⟩ :: v.toList)
        (g.addConstant (.i32 (Int32.ofInt offset).toUInt32)).1 = .ok (i, g') ∧
      Grows g g' ∧ Emitted (g.addConstant (.i32 (Int32.ofInt offset).toUInt32)).1 g' b D R op ty
        (⟨g.values.size⟩ :: v.toList) i ∧ IsAccess g' i op offset v := by
  have hgrows := grows_addValue g
    { ty := .i32, origin := .constant (.i32 (Int32.ofInt offset).toUInt32) }
  have hnew := value_addValue_new (f := g)
    { ty := .i32, origin := .constant (.i32 (Int32.ofInt offset).toUInt32) }
  have hchain : (g.addConstant (.i32 (Int32.ofInt offset).toUInt32)).1.Chain b (D ++ R) :=
    h.congr h.block_lt rfl rfl h.lt fun _ _ => ⟨rfl, rfl, rfl, rfl⟩
  obtain ⟨g', hemit, he⟩ := emit_spec hchain hp op ty (⟨g.values.size⟩ :: v.toList)
    (by cases v <;> simp)
  have hlt : (⟨g.values.size⟩ : ValueId).index <
      (g.addConstant (.i32 (Int32.ofInt offset).toUInt32)).1.values.size := by
    simp [addConstant, addValue]
  refine ⟨g', _, hemit, hgrows.trans he.grows, he, he.op_eq,
    ⟨⟨g.values.size⟩, he.arg_eq 0, Nat.lt_of_lt_of_le hlt he.grows.values_le,
      (he.grows.ty_eq _ hlt).trans (congrArg Value.ty hnew),
      (he.grows.origin_eq _ hlt).trans (congrArg Value.origin hnew)⟩,
    (he.arg_eq 1).trans ?_, (he.arg_eq 2).trans ?_⟩
  · cases v <;> rfl
  · cases v <;> rfl

theorem point_beforeInstr (h : g.Chain b (D ++ j :: R)) :
    (g.beforeInstr j).point = ⟨some b, D.getLast?⟩ := by
  have hj : j ∈ D ++ j :: R := by simp
  rw [beforeInstr, setPoint, h.block_eq j hj, h.prev_eq D j R rfl]

/-- Where the next slot of a type goes. -/
def slotOffset (g : Fragment) (ty : Ty) : Int := alignUp g.localsSize ty.bytes

/-- The fragment with a slot more. -/
def withSlot (g : Fragment) (ty : Ty) : Fragment :=
  { g with
    locals := g.locals.push { ty, offset := slotOffset g ty }
    localsSize := slotOffset g ty + ty.bytes }

theorem grows_withSlot (g : Fragment) (ty : Ty) : Grows g (withSlot g ty) :=
  ⟨Nat.le_refl _, Nat.le_refl _, fun _ _ => rfl, fun _ _ => rfl, fun _ _ => rfl, fun _ _ => rfl,
    fun _ _ => rfl, fun _ _ => rfl⟩

theorem chain_withSlot {l : List InstrId} (h : g.Chain b l) (ty : Ty) :
    (withSlot g ty).Chain b l :=
  h.congr h.block_lt rfl rfl h.lt fun _ _ => ⟨rfl, rfl, rfl, rfl⟩

theorem le_alignUp (n : Int) (align : Int) (h : 0 < align) : n ≤ alignUp n align := by
  have := Int.emod_lt_of_pos (n + align - 1) h
  have := Int.mul_ediv_add_emod (n + align - 1) align
  rw [alignUp, Int.mul_comm]
  omega

theorem alignUp_lt (n : Int) (align : Int) (h : 0 < align) : alignUp n align < n + align := by
  have := Int.emod_nonneg (n + align - 1) (Int.ne_of_gt h)
  have := Int.mul_ediv_add_emod (n + align - 1) align
  rw [alignUp, Int.mul_comm]
  omega

/-- A value was stored to a new slot by instruction `k`, between `D` and `R`. -/
structure StoredNew (g g' : Fragment) (b : BlockId) (D R : List InstrId) (u : ValueId)
    (k : InstrId) : Prop where
  grows : Grows g g'
  chain : g'.Chain b (D ++ k :: R)
  order_eq : g'.order = g.order
  isAccess : IsAccess g' k .storeLocal (slotOffset g (g.ty u)) (some u)
  result_eq : (g'.instr k).result = none
  locals_eq : g'.locals = (withSlot g (g.ty u)).locals
  localsSize_eq : g'.localsSize = slotOffset g (g.ty u) + (g.ty u).bytes

/-- Storing to a new slot emits one access. -/
theorem storeNew_emits (h : g.Chain b (D ++ j :: R)) {u : ValueId} (hty : 0 < (g.ty u).bytes)
    (hroom : slotOffset g (g.ty u) + (g.ty u).bytes ≤ maxLocalsSize) :
    ∃ g' k, storeNew u (g.beforeInstr j) = .ok (⟨g.locals.size⟩, g') ∧
      Grows (withSlot (g.beforeInstr j) (g.ty u)) g' ∧
      Emitted ((withSlot (g.beforeInstr j) (g.ty u)).addConstant
          (.i32 (Int32.ofInt (slotOffset g (g.ty u))).toUInt32)).1 g' b D (j :: R) .storeLocal none
        [⟨g.values.size⟩, u] k ∧
      IsAccess g' k .storeLocal (slotOffset g (g.ty u)) (some u) := by
  have hp := point_beforeInstr h
  have hchain : (withSlot (g.beforeInstr j) (g.ty u)).Chain b (D ++ j :: R) :=
    chain_withSlot (h.setPoint _) _
  obtain ⟨g', k, hemit, hgrows, he, hacc⟩ := emitAccess_ok hchain hp .storeLocal none
    (slotOffset g (g.ty u)) (some u)
  refine ⟨g', k, ?_, hgrows, he, hacc⟩
  have halloc : (g.beforeInstr j).allocLocal (g.ty u) =
      .ok (withSlot (g.beforeInstr j) (g.ty u), ⟨g.locals.size⟩) := by
    rw [Fragment.allocLocal, if_neg (Nat.ne_of_gt hty), if_neg]
    · rfl
    · exact Int.not_lt.mpr hroom
  have hslot : (withSlot (g.beforeInstr j) (g.ty u)).localSlot ⟨g.locals.size⟩ =
      { ty := g.ty u, offset := slotOffset g (g.ty u) } := getD_push_self _ _ _
  have hstore : Build.storeLocal ⟨g.locals.size⟩ u (withSlot (g.beforeInstr j) (g.ty u)) =
      .ok ((), g') := by
    have hcheck : (g.ty u == (withSlot (g.beforeInstr j) (g.ty u)).ty u) = true :=
      beq_iff_eq.mpr rfl
    simp only [Build.storeLocal, Build.check, Build.tyOf, Build.int32, Build.i32, Build.constant,
      Build.extend, Build.emitEffect, bind, StateT.bind, Except.bind, pure, get, getThe,
      MonadStateOf.get, StateT.get, Except.pure, hslot, hcheck, if_true]
    rw [show Build.emit .storeLocal none [(addConstant _ _).2, u] _ = .ok (k, g') from hemit]
    rfl
  simp only [storeNew, Build.tyOf, Build.allocLocal, bind, StateT.bind, Except.bind, pure,
    StateT.pure, Except.pure]
  rw [show (g.beforeInstr j).ty u = g.ty u from rfl, halloc]
  dsimp only
  rw [hstore]

theorem storeNew_ok (h : g.Chain b (D ++ j :: R)) {u : ValueId} (hty : 0 < (g.ty u).bytes)
    (hroom : slotOffset g (g.ty u) + (g.ty u).bytes ≤ maxLocalsSize) (saved : InsertPoint) :
    ∃ g' k, storeNew u (g.beforeInstr j) = .ok (⟨g.locals.size⟩, g') ∧
      StoredNew g (g'.setPoint saved) b D (j :: R) u k := by
  obtain ⟨g', k, hstore, hgrows, he, hacc⟩ := storeNew_emits h hty hroom
  have hall := ((grows_setPoint g _).trans (grows_withSlot (g.beforeInstr j) (g.ty u))).trans
    (hgrows.trans (grows_setPoint g' saved))
  exact ⟨g', k, hstore, hall, he.chain.setPoint saved, he.order_eq,
    ⟨hacc.op_eq, hacc.arg_zero, hacc.arg_one, hacc.arg_two⟩, he.result_eq, he.locals_eq,
    he.localsSize_eq⟩

/-- The value `v` was loaded from a slot by instruction `k`, between `D` and `R`. -/
structure Loaded (g g' : Fragment) (b : BlockId) (D R : List InstrId) (l : LocalId) (k : InstrId)
    (v : ValueId) : Prop where
  grows : Grows g g'
  chain : g'.Chain b (D ++ k :: R)
  order_eq : g'.order = g.order
  new : g.instrs.size ≤ k.index
  isAccess : IsAccess g' k .loadLocal (g.localSlot l).offset none
  result_eq : (g'.instr k).result = some v
  value_new : g.values.size ≤ v.index
  value_lt : v.index < g'.values.size
  ty_eq : (g'.value v).ty = (g.localSlot l).ty
  origin_eq : (g'.value v).origin = .result k
  locals_eq : g'.locals = g.locals
  localsSize_eq : g'.localsSize = g.localsSize

/-- Loading from a slot emits one access, whose result has the type of the slot. -/
theorem loadLocal_emits (h : g.Chain b (D ++ j :: R)) (l : LocalId) :
    ∃ g' k v, Build.loadLocal l (g.beforeInstr j) = .ok (v, g') ∧ (g'.instr k).result = some v ∧
      Grows (g.beforeInstr j) g' ∧
      Emitted ((g.beforeInstr j).addConstant
          (.i32 (Int32.ofInt (g.localSlot l).offset).toUInt32)).1 g' b D (j :: R) .loadLocal
        (some (g.localSlot l).ty) [⟨g.values.size⟩] k ∧
      IsAccess g' k .loadLocal (g.localSlot l).offset none := by
  have hp := point_beforeInstr h
  have hchain : (g.beforeInstr j).Chain b (D ++ j :: R) := h.setPoint _
  obtain ⟨g', k, hemit, hgrows, he, hacc⟩ := emitAccess_ok hchain hp .loadLocal
    (some ((g.beforeInstr j).localSlot l).ty) ((g.beforeInstr j).localSlot l).offset none
  have hresult := he.result_eq
  rw [Option.map_some] at hresult
  refine ⟨g', k, _, ?_, hresult, hgrows, he, hacc⟩
  simp only [Build.loadLocal, Build.int32, Build.i32, Build.constant, Build.extend,
    Build.emitValue, bind, StateT.bind, Except.bind, pure, get, getThe, MonadStateOf.get,
    StateT.get, Except.pure]
  rw [show Build.emit .loadLocal _ [(addConstant _ _).2] _ = .ok (k, g') from hemit]
  dsimp only
  rw [resultOf, hresult]
  rfl

theorem loadLocal_ok (h : g.Chain b (D ++ j :: R)) (l : LocalId) (saved : InsertPoint) :
    ∃ g' k v, Build.loadLocal l (g.beforeInstr j) = .ok (v, g') ∧
      Loaded g (g'.setPoint saved) b D (j :: R) l k v := by
  obtain ⟨g', k, v, hload, hresult, hgrows, he, hacc⟩ := loadLocal_emits h l
  obtain ⟨hty, horigin, -⟩ := he.value_eq _ rfl
  rw [he.result_eq, Option.map_some, Option.some.injEq] at hresult
  subst hresult
  refine ⟨g', k, _, hload, (grows_setPoint g _).trans (hgrows.trans (grows_setPoint g' saved)),
    he.chain.setPoint saved, he.order_eq, Nat.le_of_eq (by rw [he.id_eq]; rfl),
    ⟨hacc.op_eq, hacc.arg_zero, hacc.arg_one, hacc.arg_two⟩, he.result_eq, ?_, ?_, hty, horigin,
    he.locals_eq, he.localsSize_eq⟩
  · simp [addConstant, addValue, beforeInstr, setPoint]
  · change _ < g'.values.size
    rw [he.size_values]
    exact Nat.lt_succ_self _

/-! ### The code with a spill or a fill -/

theorem StoredNew.widens {u : ValueId} {k : InstrId} (h : StoredNew g g' b D R u k)
    (hty : 0 < (g.ty u).bytes) : Widens g g' where
  values_le := h.grows.values_le
  instrs_le := h.grows.instrs_le
  ty_eq := h.grows.ty_eq
  origin_eq := h.grows.origin_eq
  op_eq := h.grows.op_eq
  result_eq := h.grows.result_eq
  order_eq := h.order_eq
  locals_le := by simp [h.locals_eq, withSlot]
  localSlot_eq l hl := by
    rw [localSlot, h.locals_eq]
    exact getD_push_lt _ _ _ hl
  localsSize_le := by
    have := le_alignUp g.localsSize (g.ty u).bytes (by omega)
    rw [h.localsSize_eq, slotOffset]
    omega

theorem StoredNew.coded {u : ValueId} {k : InstrId} (hs : StoredNew g g' b D (j :: R) u k)
    (h : Coded f b regs D (j :: R) g) (hty : 0 < (g.ty u).bytes)
    (hd : ∃ i ∈ D, (g.instr i).result = some u)
    (hlt : ∀ i ∈ f.blockInstrs b, i.index < f.instrs.size) :
    Coded f b regs (D ++ [k]) (j :: R) g' := by
  obtain ⟨i, hi, hu⟩ := hd
  have hw := hs.widens hty
  have hk := h.keeps_of_grows hs.grows
  have hm := mentions_result hi hu
  obtain ⟨hreg, horigin⟩ := (h.final i hi).result u hu
  refine (h.widen hk hw hs.chain hlt).push ⟨fun n v hv => ?_, fun v hv => ?_⟩
  · match n with
    | 0 =>
      obtain ⟨c, hc, hclt, hcty, hco⟩ := hs.isAccess.arg_zero
      rw [hc] at hv
      cases hv
      exact .inl ⟨hclt, _, hco, hcty, by simp [Constant.ty]⟩
    | 1 =>
      rw [hs.isAccess.arg_one] at hv
      cases hv
      exact .inr ⟨hreg.keeps hk hw hm, i, hi, by rw [hk.origin_eq u hm]; exact horigin⟩
    | 2 =>
      rw [hs.isAccess.arg_two] at hv
      cases hv
  · rw [hs.result_eq] at hv
    cases hv

theorem Loaded.widens {l : LocalId} {k : InstrId} {v : ValueId} (h : Loaded g g' b D R l k v) :
    Widens g g' := widens_of_grows h.grows h.order_eq h.locals_eq h.localsSize_eq

/-! ### Their effect -/

theorem toNat_offset {n : Int} (h₀ : 0 ≤ n) (h : n ≤ maxLocalsSize) :
    (Int32.ofInt n).toUInt32.toUInt64.toNat = n.toNat := by
  rw [UInt32.toNat_toUInt64]
  change (BitVec.ofInt 32 n).toNat = n.toNat
  rw [maxLocalsSize] at h
  rw [BitVec.toNat_ofInt]
  omega

section
variable {σ : Type} {offset : Int} (gs : Guest σ) (o : Offsets) (rest : Point) (rf : Array UInt64)
  (area : Array UInt8) (w : World σ)

theorem IsAccess.runInstr_store {u : ValueId} {r : UInt8}
    (h : IsAccess g j .storeLocal offset (some u))
    (hres : (g.instr j).result = none) (h₀ : 0 ≤ offset)
    (harea : offset + (g.ty u).bytes ≤ area.size) (hmax : area.size ≤ maxLocalsSize.toNat)
    (ho : ∃ i, (g.value u).origin = .result i) (hr : (g.value u).reg = some r) :
    runInstr g (Meaning.registers g) gs o j rest rf ⟨area, w⟩ =
      .go ⟨rest, rf, ⟨Bytes.write area offset.toNat (g.ty u).bytes (rf.getD r.toNat 0), w⟩⟩ := by
  obtain ⟨c, hc, -, -, hco⟩ := h.arg_zero
  obtain ⟨i, ho⟩ := ho
  have hmax' : (area.size : Int) ≤ maxLocalsSize := by
    rw [maxLocalsSize] at *
    omega
  have hoff := toNat_offset h₀ (by omega)
  have ha : argBits g (Meaning.registers g) rf (g.instr j) 0 =
      (Int32.ofInt offset).toUInt32.toUInt64 := by
    simp only [argBits, hc, bits, hco]
    rfl
  have hb : argBits g (Meaning.registers g) rf (g.instr j) 1 = rf.getD r.toNat 0 := by
    simp only [argBits, h.arg_one, bits, ho, Meaning.registers, hr]
  have hty : opTy g (g.instr j) = g.ty u := by simp only [opTy, hres, argTy, h.arg_one]
  have hle : offset.toNat + (g.ty u).bytes ≤ area.size := by omega
  simp only [runInstr, h.op_eq, ha, hb, hty, perform, Memory.writeLocal, hoff, hle, if_true]
  simp only [keep, hres]
  rfl

theorem IsAccess.runInstr_load {v : ValueId} {r : UInt8} (h : IsAccess g j .loadLocal offset none)
    (hres : (g.instr j).result = some v) (h₀ : 0 ≤ offset)
    (harea : offset + (g.ty v).bytes ≤ area.size) (hmax : area.size ≤ maxLocalsSize.toNat)
    (hr : (g.value v).reg = some r) :
    runInstr g (Meaning.registers g) gs o j rest rf ⟨area, w⟩ =
      .go ⟨rest, rf.setIfInBounds r.toNat
        (fit (g.ty v) (Bytes.read area offset.toNat (g.ty v).bytes)), ⟨area, w⟩⟩ := by
  obtain ⟨c, hc, -, -, hco⟩ := h.arg_zero
  have hmax' : (area.size : Int) ≤ maxLocalsSize := by
    rw [maxLocalsSize] at *
    omega
  have hoff := toNat_offset h₀ (by omega)
  have ha : argBits g (Meaning.registers g) rf (g.instr j) 0 =
      (Int32.ofInt offset).toUInt32.toUInt64 := by
    simp only [argBits, hc, bits, hco]
    rfl
  have hty : opTy g (g.instr j) = g.ty v := by simp only [opTy, hres]
  have hle : offset.toNat + (g.ty v).bytes ≤ area.size := by omega
  have hkeep : ∀ x, keep g (Meaning.registers g) (g.instr j) rf (some x) =
      rf.setIfInBounds r.toNat (fit (g.ty v) x) := by
    intro x
    simp only [keep, hres, Meaning.registers, hr]
  rw [← hkeep]
  simp only [runInstr, h.op_eq, ha, hty, perform, Memory.readLocal, hoff, hle, if_true]
  rfl

end

end Recompiler.Pass.Allocation
