import Recompiler.Proofs.IR.Tolls

/-!
Building methods that leave a fragment tidy: what they emit works on integers, branches to words and
leaves the local area alone.
-/
namespace Recompiler.Meaning

open IR Fragment

variable {α β : Type} {f f' : Fragment} {b : BlockId} {i j : InstrId} {op : Opcode} {ty : Option Ty}
  {args : List ValueId} {act : Build α} {k : α → Build β}

/-! ### Instructions -/

/-- What is the same up to blocks and the links of instructions. -/
theorem Tidy.relinked (h : Tidy f) (hvalues : f'.values = f.values)
    (hinstr : ∀ j, (f'.instr j).op = (f.instr j).op ∧ (f'.instr j).args = (f.instr j).args ∧
      (f'.instr j).result = (f.instr j).result)
    (hedges : ∀ b, (f'.block b).edges = (f.block b).edges) (hlocals : f'.locals = f.locals)
    (hsize : f'.localsSize = f.localsSize) : Tidy f' := by
  have hvalue : ∀ v, f'.value v = f.value v := fun v => by rw [value, hvalues, value]
  have harg : ∀ j n, (f'.instr j).arg n = (f.instr j).arg n := fun j n => by
    rw [Instr.arg, (hinstr j).2.1, Instr.arg]
  refine h.sameValues ⟨by rw [hvalues], fun v => by rw [hvalue], fun v => by rw [hvalue],
    fun v => by rw [hvalue]⟩ (fun i => (hinstr i).1) (fun i => (hinstr i).2.2) hedges hlocals hsize
    (fun v u hu => ?_) fun i v hv => h.target i v ?_
  · rw [hvalue] at hu
    rw [harg]
    exact h.cited v u hu
  · rw [target?_eq_some] at hv ⊢
    rwa [(hinstr i).1, funext (harg i)] at hv

theorem Tidy.setPoint (h : Tidy f) (p : InsertPoint) : Tidy (f.setPoint p) :=
  h.relinked rfl (fun _ => ⟨rfl, rfl, rfl⟩) (fun _ => rfl) rfl rfl

theorem edges_linkAfter (f : Fragment) (b : BlockId) (after : Option InstrId) (i : InstrId)
    (c : BlockId) : ((f.linkAfter b after i).block c).edges = (f.block c).edges := by
  have hblock : ∀ (f : Fragment) (g : Block → Block), (∀ x, (g x).edges = x.edges) →
      ((f.modifyBlock b g).block c).edges = (f.block c).edges := by
    intro f g hg
    rw [block_modifyBlock]
    split
    · exact hg _
    · rfl
  unfold linkAfter
  dsimp only
  split <;> split <;> simp [hblock]

theorem Tidy.linkAfter (h : Tidy f) (b : BlockId) (after : Option InstrId) (i : InstrId) :
    Tidy (f.linkAfter b after i) := by
  refine h.relinked ?_ (same_linkAfter f b after i) (edges_linkAfter f b after i) ?_ ?_ <;>
    rw [linkAfter_eq]

theorem Tidy.ensureBlock (h : Tidy f) : Tidy f.ensureBlock.1 := by
  unfold Fragment.ensureBlock
  split
  · exact h
  · refine h.relinked rfl (fun _ => ⟨rfl, rfl, rfl⟩) (fun b => ?_) rfl rfl
    change ((f.blocks.push {}).getD b.index default).edges = _
    rcases Nat.lt_trichotomy b.index f.blocks.size with hb | hb | hb
    · rw [getD_push_lt _ _ _ hb]
      rfl
    · rw [hb, getD_push_self, h.edges]
    · rw [h.edges, Array.getD_eq_getD_getElem?, Array.getElem?_eq_none (by simpa using hb)]
      rfl

theorem tidy_empty : Tidy Fragment.empty where
  cited _ _ hu := by cases hu
  constant_ty _ _ hc := by cases hc
  isInt _ := rfl
  result _ _ hv := by cases hv
  target _ _ hv := by cases hv
  distant _ h := by rcases h with h | h <;> cases h
  edges _ := rfl
  locals_eq := rfl
  localsSize_eq := rfl

theorem instr_push (ins : Instr) (j : InstrId) :
    { f with instrs := f.instrs.push ins }.instr j =
      if j.index = f.instrs.size then ins else f.instr j := by
  change (f.instrs.push ins).getD j.index default = _
  rcases Nat.lt_trichotomy j.index f.instrs.size with hj | hj | hj
  · rw [if_neg (Nat.ne_of_lt hj)]
    exact getD_push_lt _ _ _ hj
  · rw [if_pos hj, hj]
    exact getD_push_self _ _ _
  · rw [if_neg (Nat.ne_of_gt hj), instr, Array.getD_eq_getD_getElem?, Array.getD_eq_getD_getElem?,
      Array.getElem?_eq_none (by simpa using hj), Array.getElem?_eq_none (Nat.le_of_lt hj)]

/-- A new instruction without arguments, behind its result. -/
theorem Tidy.push (h : Tidy f) {ins : Instr} (hop : ¬IsLocal ins.op) (hargs : ∀ n, ins.arg n = none)
    (hresult : ∀ v, ins.result = some v → Defined f ⟨f.instrs.size⟩ v) :
    Tidy { f with instrs := f.instrs.push ins } := by
  have harg : ∀ j n v, (f.instr j).arg n = some v →
      ({ f with instrs := f.instrs.push ins }.instr j).arg n = some v := by
    intro j n v hv
    rw [instr_push, if_neg (Nat.ne_of_lt (lt_of_arg hv))]
    exact hv
  refine ⟨fun v u hu => harg _ _ _ (h.cited v u hu), h.constant_ty, h.isInt, fun i v hv => ?_,
    fun i v hv => ?_, fun i => ?_, h.edges, h.locals_eq, h.localsSize_eq⟩
  · rw [instr_push] at hv
    split at hv
    case isTrue hi =>
      obtain ⟨hlt, horigin⟩ := hresult v hv
      exact ⟨hlt, horigin.trans (congrArg Origin.result (InstrId.ext_index hi.symm))⟩
    case isFalse =>
      obtain ⟨hlt, horigin⟩ := h.result i v hv
      exact ⟨hlt, horigin⟩
  · rw [instr_push] at hv
    split at hv
    case isTrue =>
      obtain ⟨n, -, hn⟩ := target?_eq_some.mp hv
      rw [hargs] at hn
      cases hn
    case isFalse => exact h.target i v hv
  · rw [instr_push]
    split
    · exact hop
    · exact h.distant i

theorem Tidy.withInstr (h : Tidy f) (hop : ¬IsLocal op) (hty : ∀ t, ty = some t → t.isInt = true)
    (b : BlockId) : Tidy (f.withInstr op ty b) := by
  have hargs : ∀ n : Slot, (Vector.replicate 3 (none : Option ValueId)).get n = none := by decide
  cases ty with
  | none => exact h.push hop hargs nofun
  | some t =>
    have hvalue : Tidy (f.addValue { ty := t, origin := .result ⟨f.instrs.size⟩ }).1 :=
      h.addValue rfl nofun (hty t rfl)
    refine hvalue.push hop hargs fun v hv => ?_
    cases hv
    refine ⟨?_, ?_⟩
    · change f.values.size < (f.values.push _).size
      simp
    · rw [value_addValue_new]
      rfl

/-- The instruction is there and has this operation. -/
structure Does (f : Fragment) (i : InstrId) (op : Opcode) : Prop where
  lt : i.index < f.instrs.size
  op_eq : (f.instr i).op = op

/-- A new instruction, wherever the insert point is. -/
theorem Tidy.appendInstr (h : Tidy f) (hop : ¬IsLocal op)
    (hty : ∀ t, ty = some t → t.isInt = true) :
    Tidy (f.appendInstr op ty).1 ∧ Grows f (f.appendInstr op ty).1 ∧
      Does (f.appendInstr op ty).1 (f.appendInstr op ty).2 op := by
  obtain ⟨b, after, hp⟩ : ∃ b after, f.ensureBlock.1.point = ⟨some b, after⟩ := by
    unfold Fragment.ensureBlock
    split
    · next b hb => exact ⟨b, f.point.after, by rw [← hb]⟩
    · exact ⟨_, none, rfl⟩
  have hensure : Grows f f.ensureBlock.1 := by
    unfold Fragment.ensureBlock
    split
    · exact .refl f
    · exact ⟨Nat.le_refl _, Nat.le_refl _, fun _ _ => rfl, fun _ _ => rfl, fun _ _ => rfl,
        fun _ _ => rfl, fun _ _ => rfl, fun _ _ => rfl⟩
  rw [appendInstr_ensureBlock, appendInstr_eq op ty hp]
  have htidy := h.ensureBlock
  generalize f.ensureBlock.1 = g at hensure htidy
  refine ⟨((htidy.withInstr hop hty b).linkAfter b after _).setPoint _,
    (hensure.trans (grows_withInstr op ty b)).trans ((grows_linkAfter _ b after _).trans
      (grows_setPoint _ _)), ?_, ?_⟩
  · change _ < ((g.withInstr op ty b).linkAfter b after _).instrs.size
    rw [size_instrs_linkAfter, size_instrs_withInstr]
    exact Nat.lt_succ_self _
  · change (((g.withInstr op ty b).linkAfter b after _).instr _).op = op
    rw [(same_linkAfter _ b after _ _).1, instr_withInstr_new]

theorem sameButArgs_setArg (f : Fragment) (i : InstrId) (n : Slot) (v : ValueId) (j : InstrId) :
    SameButArgs (f.instr j) ((f.setArg i n v).instr j) := by
  rw [instr_setArg]
  split
  · exact ⟨rfl, rfl, rfl, rfl, rfl, rfl⟩
  · exact .refl _

/-- An argument in a position that is not that of a target, or a word. -/
theorem Tidy.setArg (h : Tidy f) (hi : i.index < f.instrs.size) {n : Slot} {v : ValueId}
    (hv : targetSlot? (f.instr i).op = some n → f.ty v = .i32) : Tidy (f.setArg i n v) := by
  have hinstr := sameButArgs_setArg f i n v
  have hframe := sameFrame_setArg f i n v
  refine h.sameValues (sameValues_setArg f i n v) (fun j => (hinstr j).op_eq)
    (fun j => (hinstr j).result_eq) (fun b => by rw [block, hframe.blocks_eq, block])
      hframe.locals_eq
    hframe.localsSize_eq (h.cited.setArg hi n v) fun j w hw => ?_
  rw [target?_eq_some, (hinstr j).op_eq] at hw
  obtain ⟨m, hm, hw⟩ := hw
  rw [arg_setArg_ite] at hw
  split at hw
  case isTrue hj =>
    cases hw
    rw [hj.1.1, hj.2] at hm
    exact hv hm
  case isFalse => exact h.target j w (target?_eq_some.mpr ⟨m, hm, hw⟩)

theorem Does.setArg (h : Does f i op) (j : InstrId) (n : Slot) (v : ValueId) :
    Does (f.setArg j n v) i op where
  lt := by
    rw [size_instrs_setArg]
    exact h.lt
  op_eq := (sameButArgs_setArg f j n v i).op_eq.trans h.op_eq

theorem Tidy.setArgs (h : Tidy f) (hi : Does f i op) {vs : List ValueId}
    (hvs : ∀ p ∈ (List.finRange 3).zip vs, targetSlot? op = some p.1 → f.ty p.2 = .i32) :
    Tidy (f.setArgs i vs) ∧ Does (f.setArgs i vs) i op := by
  unfold Fragment.setArgs
  generalize (List.finRange 3).zip vs = ps at hvs
  induction ps generalizing f with
  | nil => exact ⟨h, hi⟩
  | cons p ps ih =>
    obtain ⟨hp, hps⟩ := List.forall_mem_cons.mp hvs
    rw [List.foldl_cons]
    refine ih (h.setArg hi.lt ?_) (hi.setArg i p.1 p.2) fun q hq hslot => ?_
    · rw [hi.op_eq]
      exact hp
    · exact ((sameValues_setArg f i p.1 p.2).ty_eq q.2).trans (hps q hq hslot)

/-! ### Methods -/

/-- The action leaves tidy fragments tidy. -/
def Tidies (act : Build α) : Prop := ∀ f a f', Tidy f → act f = .ok (a, f') → Tidy f'

theorem Tidies.bind (h : Tidies act) (hk : ∀ a, Tidies (k a)) : Tidies (act >>= k) := by
  intro f c f'' hf hboth
  obtain ⟨a, f', hact, hrest⟩ := ok_of_bind_ok hboth
  exact hk a f' c f'' (h f a f' hf hact) hrest

theorem Inspects.tidies (h : Inspects act) : Tidies act := by
  intro f a f' hf hact
  rwa [h f a f' hact]

theorem tidies_pure (a : α) : Tidies (pure a : Build α) := (inspects_pure a).tidies

theorem tidies_tyOf (v : ValueId) : Tidies (Build.tyOf v) := (inspects_tyOf v).tidies

theorem tidies_check (rule : Bool) (fault : Fault) : Tidies (Build.check rule fault) :=
  (inspects_check rule fault).tidies

/-- Behind a check, what it checks holds. -/
theorem tidies_check_bind {rule : Bool} {fault : Fault} {act : Build α}
    (h : rule = true → Tidies act) : Tidies (do Build.check rule fault; act) := by
  intro f a f' hf hboth
  obtain ⟨_, f₁, hcheck, hact⟩ := ok_of_bind_ok hboth
  unfold Build.check at hcheck
  split at hcheck
  case isTrue hrule =>
    cases hcheck
    exact h hrule f a f' hf hact
  case isFalse => cases hcheck

theorem tidies_setPoint (p : Fragment → InsertPoint) :
    Tidies (Build.update fun f => f.setPoint (p f)) := by
  intro f a f' hf hact
  cases hact
  exact hf.setPoint _

theorem tidies_constant {c : Constant} (hc : c.ty.isInt = true) : Tidies (Build.constant c) := by
  intro f a f' hf hact
  cases hact
  exact hf.addConstant hc

theorem tidies_i32 (x : UInt32) : Tidies (Build.i32 x) := tidies_constant rfl

theorem tidies_i64 (x : UInt64) : Tidies (Build.i64 x) := tidies_constant rfl

theorem tidy_emit (hop : ¬IsLocal op) (hty : ∀ t, ty = some t → t.isInt = true) (hf : Tidy f)
    (hargs : ∀ p ∈ (List.finRange 3).zip args, targetSlot? op = some p.1 → f.ty p.2 = .i32)
    (hact : Build.emit op ty args f = .ok (i, f')) : Tidy f' ∧ Does f' i op := by
  obtain ⟨hnew, hgrows, hstands⟩ := hf.appendInstr hop hty
  cases hact
  refine hnew.setArgs hstands fun p hp hslot => ?_
  have hold := hargs p hp hslot
  exact (hgrows.ty_eq p.2 (lt_of_ty hold)).trans hold

/-- The operation works on values, whatever their types are. -/
def Internal (op : Opcode) : Prop := targetSlot? op = none ∧ ¬IsLocal op

instance (op : Opcode) : Decidable (Internal op) := by
  unfold Internal
  infer_instance

theorem tidies_emitEffect (hop : Internal op) (args : List ValueId) :
    Tidies (Build.emitEffect op args) := by
  intro f a f' hf hact
  obtain ⟨i, f₁, hemit, hrest⟩ := ok_of_bind_ok hact
  cases hrest
  refine (tidy_emit hop.2 (fun _ h => by cases h) hf (fun p _ hp => ?_) hemit).1
  cases hop.1.symm.trans hp

theorem tidies_emitValue {t : Ty} (hop : Internal op) (ht : t.isInt = true) (args : List ValueId) :
    Tidies (Build.emitValue op t args) := by
  intro f a f' hf hact
  obtain ⟨i, f₁, hemit, hrest⟩ := ok_of_bind_ok hact
  have hread : Inspects (do let f ← get; (f.resultOf i : Build ValueId)) := by
    intro g v g' hv
    change (g.resultOf i >>= fun v => Except.ok (v, g)) = _ at hv
    cases hresult : g.resultOf i with
    | error => rw [hresult] at hv; cases hv
    | ok v => rw [hresult] at hv; cases hv; rfl
  cases hread f₁ a f' hrest
  refine (tidy_emit hop.2 (fun _ h => Option.some.inj h ▸ ht) hf (fun p _ hp => ?_) hemit).1
  cases hop.1.symm.trans hp

theorem tidies_loadContext (offset : Int) {t : Ty} (ht : t.isInt = true) :
    Tidies (Build.loadContext offset t) :=
  (tidies_i32 _).bind fun _ => tidies_emitValue (by decide) ht _

theorem tidies_storeContext (offset : Int) (v : ValueId) : Tidies (Build.storeContext offset v) :=
  (tidies_i32 _).bind fun _ => tidies_emitEffect (by decide) _

theorem tidies_sourceInfo (addr cycles : UInt32) : Tidies (Build.sourceInfo addr cycles) :=
  (tidies_i32 _).bind fun _ => (tidies_i32 _).bind fun _ => tidies_emitEffect (by decide) _

theorem tidies_fallback (routine : UInt64) (addr raw : UInt32) :
    Tidies (Build.fallback routine addr raw) :=
  (tidies_i64 _).bind fun _ => (tidies_i32 _).bind fun _ => (tidies_i32 _).bind fun _ =>
    tidies_emitEffect (by decide) _

theorem tidies_convert (hop : Internal op) (v : ValueId) {t : Ty} (ht : t.isInt = true) :
    Tidies (Build.convert op v t) :=
  (tidies_tyOf v).bind fun _ => (tidies_check _ _).bind fun _ => tidies_emitValue hop ht _

theorem tidies_intBinary (hop : Internal op) (a b : ValueId) : Tidies (Build.intBinary op a b) :=
  (tidies_tyOf a).bind fun _ => tidies_check_bind fun ht => (tidies_tyOf b).bind fun _ =>
    (tidies_check _ _).bind fun _ => tidies_emitValue hop ht _

theorem tidies_not (a : ValueId) : Tidies (Build.not a) :=
  (tidies_tyOf a).bind fun _ => tidies_check_bind fun ht => tidies_emitValue (by decide) ht _

theorem tidies_compare (hop : Internal op) (a b : ValueId) : Tidies (Build.compare op a b) :=
  (tidies_tyOf a).bind fun _ => (tidies_check _ _).bind fun _ => (tidies_tyOf a).bind fun _ =>
    (tidies_tyOf b).bind fun _ => (tidies_check _ _).bind fun _ => tidies_emitValue hop rfl _

theorem tidies_shift (hop : Internal op) (a n : ValueId) : Tidies (Build.shift op a n) :=
  (tidies_tyOf a).bind fun _ => tidies_check_bind fun ht => (tidies_tyOf n).bind fun _ =>
    (tidies_check _ _).bind fun _ => tidies_emitValue hop ht _

theorem tidies_shiftBy (hop : Internal op) (a : ValueId) (n : UInt32) :
    Tidies (Build.shiftBy op a n) := (tidies_i32 n).bind fun v => tidies_shift hop a v

theorem tidies_shiftSigned (hop : Internal op) (a n : ValueId) :
    Tidies (Build.shiftSigned op a n) :=
  (tidies_tyOf a).bind fun _ => (tidies_check _ _).bind fun _ => tidies_shift hop a n

theorem tidies_loadHost (addr : ValueId) {t : Ty} (ht : t.isInt = true) :
    Tidies (Build.loadHost addr t) :=
  (tidies_tyOf addr).bind fun _ => (tidies_check _ _).bind fun _ =>
    tidies_emitValue (by decide) ht _

theorem tidies_storeHost (addr v : ValueId) : Tidies (Build.storeHost addr v) :=
  (tidies_tyOf addr).bind fun _ => (tidies_check _ _).bind fun _ => tidies_emitEffect (by decide) _

theorem tidies_loadGuest (addr : ValueId) (t : Ty) : Tidies (Build.loadGuest addr t) :=
  (tidies_tyOf addr).bind fun _ => (tidies_check _ _).bind fun _ => tidies_check_bind fun ht =>
    tidies_emitValue (by decide) ht _

theorem tidies_storeGuest (addr v : ValueId) : Tidies (Build.storeGuest addr v) :=
  (tidies_tyOf addr).bind fun _ => (tidies_check _ _).bind fun _ => (tidies_tyOf v).bind fun _ =>
    (tidies_check _ _).bind fun _ => tidies_emitEffect (by decide) _

/-- A call takes its other arguments one by one. -/
theorem tidies_call (routine : UInt64) (a b : Option ValueId) :
    Tidies (Build.call routine a b) := by
  have hcallArg : ∀ {f f' : Fragment} {i : InstrId} (n : Slot) (a : Option ValueId) (u : Unit),
      Tidy f → Does f i .call → Build.callArg i n a f = .ok (u, f') → Tidy f' ∧
        Does f' i .call := by
    intro f f' i n a u hf hi hact
    cases a with
    | none =>
      cases hact
      exact ⟨hf, hi⟩
    | some v =>
      obtain ⟨_, f₁, hty, hact⟩ := ok_of_bind_ok hact
      obtain ⟨_, f₂, hcheck, hact⟩ := ok_of_bind_ok hact
      cases inspects_tyOf v _ _ _ hty
      cases inspects_check _ _ _ _ _ hcheck
      cases hact
      refine ⟨hf.setArg hi.lt fun hslot => ?_, hi.setArg i n v⟩
      rw [hi.op_eq] at hslot
      cases hslot
  intro f u f' hf hact
  obtain ⟨v, f₁, hconst, hact⟩ := ok_of_bind_ok hact
  obtain ⟨i, f₂, hemit, hact⟩ := ok_of_bind_ok hact
  obtain ⟨_, f₃, hfirst, hsecond⟩ := ok_of_bind_ok hact
  have hf₁ := tidies_i64 routine f v f₁ hf hconst
  obtain ⟨hf₂, hi₂⟩ :=
    tidy_emit (by decide) (fun _ h => by cases h) hf₁ (fun p _ hp => by cases hp) hemit
  obtain ⟨hf₃, hi₃⟩ := hcallArg 1 a _ hf₂ hi₂ hfirst
  exact (hcallArg 2 b u hf₃ hi₃ hsecond).1

/-! ### Branches -/

/-- No value of a tidy fragment refers to a block. -/
theorem Tidy.addBranchEdge (h : Tidy f) {dst : ValueId} {u : Unit}
    (hact : Build.addBranchEdge dst f = .ok (u, f')) : f' = f := by
  have hint : ∀ t : Ty, t.isInt = true → (t == .blk) = false := by
    intro t
    cases t <;> decide
  unfold Build.addBranchEdge at hact
  obtain ⟨g, f₁, hget, hact⟩ := ok_of_bind_ok hact
  cases hget
  rw [hint _ (h.isInt dst)] at hact
  cases hact
  rfl

/-- The type of a target that has been checked. -/
theorem Tidy.checkTarget (h : Tidy f) {dst : ValueId} {u : Unit}
    (hact : Build.checkTarget dst f = .ok (u, f')) : f' = f ∧ f.ty dst = .i32 := by
  obtain ⟨ty, f₁, hread, hcheck⟩ := ok_of_bind_ok hact
  cases hread
  unfold Build.check at hcheck
  split at hcheck
  case isTrue hrule =>
    cases hcheck
    have hword : ∀ t : Ty, t.isInt = true → (t == .blk || t == .i32) = true → t = .i32 := by
      intro t
      cases t <;> decide
    exact ⟨rfl, hword _ (h.isInt dst) hrule⟩
  case isFalse => cases hcheck

/-- A branch whose target is checked. -/
theorem tidies_branchTo {dst : ValueId} (hop : ¬IsLocal op)
    (hargs : ∀ p ∈ (List.finRange 3).zip args, targetSlot? op = some p.1 → p.2 = dst) : Tidies (do
      Build.checkTarget dst
      Build.emitEffect op args
      Build.addBranchEdge dst) := by
  intro f u f' hf hact
  obtain ⟨_, f₁, hcheck, hact⟩ := ok_of_bind_ok hact
  obtain ⟨_, f₂, heffect, hedge⟩ := ok_of_bind_ok hact
  obtain ⟨i, f₃, hemit, hrest⟩ := ok_of_bind_ok heffect
  cases hrest
  obtain ⟨rfl, hty⟩ := hf.checkTarget hcheck
  have hf' : Tidy f₂ := by
    refine (tidy_emit hop (fun _ h => by cases h) hf (fun p hp hslot => ?_) hemit).1
    rw [hargs p hp hslot]
    exact hty
  rwa [hf'.addBranchEdge hedge]

theorem tidies_branch (dst : ValueId) : Tidies (Build.branch dst) := by
  refine tidies_branchTo (by decide) fun p hp _ => ?_
  cases List.mem_singleton.mp hp
  rfl

theorem tidies_branchIf (hop : IsCondition op) (c dst : ValueId) :
    Tidies (Build.branchIf op c dst) := by
  refine (tidies_tyOf c).bind fun _ => (tidies_check _ _).bind fun _ => tidies_branchTo ?_ ?_
  · rcases hop with rfl | rfl <;> decide
  · intro p hp hslot
    have hone : targetSlot? op = some 1 := by rcases hop with rfl | rfl <;> rfl
    obtain rfl | hp := List.mem_cons.mp hp
    · cases hone.symm.trans hslot
    · cases List.mem_singleton.mp hp
      rfl

end Recompiler.Meaning
