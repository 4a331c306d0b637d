import Recompiler.Proofs.IR.Emit
import Recompiler.Proofs.IR.Meaning

/-!
What built code does. An action that extends a fragment puts instructions at the insert point; run
from a store of cells and a memory, they lead to another store and memory. Values that were there
before the action keep their cells, so what they hold can be relied on behind it.
-/
namespace Recompiler.Meaning

open IR Fragment Interp Machine

variable {σ α β : Type} {f f' f'' : Fragment} {b : BlockId} {l l' l₁ l₂ : List InstrId}
  {g : Guest σ} {o : Offsets} {s s' s'' : Cells} {m m' m'' : Memory σ}

/-! ### Places and growth -/

/-- The next instruction goes into `b`, between `l₁` and `l₂`. -/
structure Open (f : Fragment) (b : BlockId) (l₁ l₂ : List InstrId) : Prop where
  chain : f.Chain b (l₁ ++ l₂)
  point : f.point = ⟨some b, l₁.getLast?⟩

/-- The second fragment is the first one with the instructions `l` between `l₁` and `l₂`. -/
structure Extends (f f' : Fragment) (b : BlockId) (l₁ l l₂ : List InstrId) : Prop where
  grows : Grows f f'
  opened : Open f' b (l₁ ++ l) l₂
  order_eq : f'.order = f.order
  localsSize_eq : f'.localsSize = f.localsSize

theorem Extends.refl (h : Open f b l₁ l₂) : Extends f f b l₁ [] l₂ where
  grows := .refl f
  opened := by rwa [List.append_nil]
  order_eq := rfl
  localsSize_eq := rfl

theorem Extends.trans (h : Extends f f' b l₁ l l₂) (h' : Extends f' f'' b (l₁ ++ l) l' l₂) :
    Extends f f'' b l₁ (l ++ l') l₂ where
  grows := h.grows.trans h'.grows
  opened := by
    rw [← List.append_assoc]
    exact h'.opened
  order_eq := h'.order_eq.trans h.order_eq
  localsSize_eq := h'.localsSize_eq.trans h.localsSize_eq

theorem extends_of_emitted {op : Opcode} {ty : Option Ty} {args : List ValueId} {i : InstrId}
    (h : Emitted f f' b l₁ l₂ op ty args i) : Extends f f' b l₁ [i] l₂ where
  grows := h.grows
  opened := ⟨by simpa using h.chain, by rw [h.point_eq, List.getLast?_concat]⟩
  order_eq := h.order_eq
  localsSize_eq := h.localsSize_eq

/-! ### Values -/

/-- The value `v` is in the fragment, has the type and holds the bits. -/
structure Holds (f : Fragment) (s : Cells) (v : ValueId) (ty : Ty) (x : UInt64) : Prop where
  lt : v.index < f.values.size
  ty_eq : f.ty v = ty
  constant_ty : ∀ c, (f.value v).origin = .constant c → c.ty = ty
  bits_eq : bits f cells s v = x

theorem bits_grows (h : Grows f f') {v : ValueId} (hv : v.index < f.values.size)
    (hs : ∀ u : ValueId, u.index < f.values.size → s' u = s u) :
    bits f' cells s' v = bits f cells s v := by
  unfold bits
  rw [h.origin_eq v hv]
  split
  · rfl
  · exact hs v hv

theorem Holds.grows {v : ValueId} {ty : Ty} {x : UInt64} (h : Holds f s v ty x) (hf : Grows f f')
    (hs : ∀ u : ValueId, u.index < f.values.size → s' u = s u) : Holds f' s' v ty x where
  lt := Nat.lt_of_lt_of_le h.lt hf.values_le
  ty_eq := (hf.ty_eq v h.lt).trans h.ty_eq
  constant_ty c hc := h.constant_ty c ((hf.origin_eq v h.lt).symm.trans hc)
  bits_eq := (bits_grows hf h.lt hs).trans h.bits_eq

/-! ### Straight code -/

/-- The instruction and all values it refers to are in the fragment. -/
structure Within (f : Fragment) (i : InstrId) : Prop where
  lt : i.index < f.instrs.size
  arg_lt : ∀ n v, (f.instr i).arg n = some v → v.index < f.values.size
  result_lt : ∀ v, (f.instr i).result = some v → v.index < f.values.size

/-- The instructions of a list run one after another, and no branch among them is taken. -/
inductive Runs (f : Fragment) (g : Guest σ) (o : Offsets) :
    List InstrId → Cells → Memory σ → Cells → Memory σ → Prop
  | nil (s : Cells) (m : Memory σ) : Runs f g o [] s m s m
  | cons {i : InstrId} {l : List InstrId} {s s' : Cells} {m m' m'' : Memory σ} {out : Option UInt64}
      (within : Within f i) (straight : (f.instr i).op.isBranch = false)
      (done : perform g o (f.instr i).op (opTy f (f.instr i)) (argTy f (f.instr i) 0)
        (argTy f (f.instr i) 1) (argBits f cells s (f.instr i) 0) (argBits f cells s (f.instr i) 1)
        (argBits f cells s (f.instr i) 2) m = .ok (out, m'))
      (rest : Runs f g o l (keep f cells (f.instr i) s out) m' s' m'') :
        Runs f g o (i :: l) s m s' m''
  | skip {i : InstrId} {l : List InstrId} {s s' : Cells} {m m' : Memory σ} (within : Within f i)
      (branch : (f.instr i).op.isBranch = true)
      (untaken : isTaken (f.instr i).op (argBits f cells s (f.instr i) 0) = false)
      (rest : Runs f g o l s m s' m') : Runs f g o (i :: l) s m s' m'

theorem Runs.append (h : Runs f g o l s m s' m') (h' : Runs f g o l' s' m' s'' m'') :
    Runs f g o (l ++ l') s m s'' m'' := by
  induction h with
  | nil => exact h'
  | cons within straight done _ ih => exact .cons within straight done (ih h')
  | skip within branch untaken _ ih => exact .skip within branch untaken (ih h')

/-- Code leads to one store and one memory. -/
theorem Runs.unique {t : Cells} {n : Memory σ} (h : Runs f g o l s m s' m')
    (h' : Runs f g o l s m t n) : t = s' ∧ n = m' := by
  induction h with
  | nil =>
    cases h'
    exact ⟨rfl, rfl⟩
  | cons within straight done _ ih =>
    cases h' with
    | cons _ _ done' rest' =>
      rw [done] at done'
      cases done'
      exact ih rest'
    | skip _ branch =>
      rw [straight] at branch
      cases branch
  | skip within branch untaken _ ih =>
    cases h' with
    | cons _ straight =>
      rw [branch] at straight
      cases straight
    | skip _ _ _ rest' => exact ih rest'

theorem arg_grows (h : Grows f f') {i : InstrId} (hi : Within f i) (n : Slot) :
    (f'.instr i).arg n = (f.instr i).arg n := by
  unfold Instr.arg
  rw [h.args_eq i hi.lt]

theorem argTy_grows (h : Grows f f') {i : InstrId} (hi : Within f i) (n : Slot) :
    argTy f' (f'.instr i) n = argTy f (f.instr i) n := by
  unfold argTy
  rw [arg_grows h hi]
  cases hv : (f.instr i).arg n with
  | none => rfl
  | some v => exact h.ty_eq v (hi.arg_lt n v hv)

theorem opTy_grows (h : Grows f f') {i : InstrId} (hi : Within f i) :
    opTy f' (f'.instr i) = opTy f (f.instr i) := by
  unfold opTy
  rw [h.result_eq i hi.lt]
  cases hv : (f.instr i).result with
  | none => exact argTy_grows h hi 1
  | some v => exact h.ty_eq v (hi.result_lt v hv)

theorem argBits_grows (h : Grows f f') {i : InstrId} (hi : Within f i) (n : Slot) :
    argBits f' cells s (f'.instr i) n = argBits f cells s (f.instr i) n := by
  unfold argBits
  rw [arg_grows h hi]
  cases hv : (f.instr i).arg n with
  | none => rfl
  | some v => exact bits_grows h (hi.arg_lt n v hv) fun _ _ => rfl

theorem keep_grows (h : Grows f f') {i : InstrId} (hi : Within f i) (out : Option UInt64) :
    keep f' cells (f'.instr i) s out = keep f cells (f.instr i) s out := by
  unfold keep
  rw [h.result_eq i hi.lt]
  cases hv : (f.instr i).result with
  | none => rfl
  | some v =>
    cases out with
    | none => rfl
    | some x =>
      have hty : f'.ty v = f.ty v := h.ty_eq v (hi.result_lt v hv)
      simp only [hty]

theorem Within.grows (hi : Within f i) (h : Grows f f') : Within f' i where
  lt := Nat.lt_of_lt_of_le hi.lt h.instrs_le
  arg_lt n v hv := by
    rw [arg_grows h hi] at hv
    exact Nat.lt_of_lt_of_le (hi.arg_lt n v hv) h.values_le
  result_lt v hv := by
    rw [h.result_eq i hi.lt] at hv
    exact Nat.lt_of_lt_of_le (hi.result_lt v hv) h.values_le

/-- Code runs in the same way once more has been built. -/
theorem Runs.grows (h : Runs f g o l s m s' m') (hf : Grows f f') : Runs f' g o l s m s' m' := by
  induction h with
  | nil => exact .nil _ _
  | cons within straight done _ ih =>
    rw [← hf.op_eq _ within.lt] at straight
    rw [← hf.op_eq _ within.lt, ← opTy_grows hf within, ← argTy_grows hf within,
      ← argTy_grows hf within, ← argBits_grows hf within, ← argBits_grows hf within,
      ← argBits_grows hf within] at done
    rw [← keep_grows hf within] at ih
    exact .cons (within.grows hf) straight done ih
  | skip within branch untaken _ ih =>
    rw [← hf.op_eq _ within.lt] at branch untaken
    rw [← argBits_grows hf within] at untaken
    exact .skip (within.grows hf) branch untaken ih

theorem Runs.goesIn (h : Runs f g o l s m s' m') (rest : List InstrId) (blocks : List BlockId) :
    GoesIn (step f cells g o) l.length ⟨⟨l ++ rest, blocks⟩, s, m⟩ ⟨⟨rest, blocks⟩, s', m'⟩ := by
  induction h with
  | nil => exact .refl _
  | cons within straight done _ ih =>
    refine .step ?_ ih
    rw [List.cons_append, step_instr]
    unfold runInstr
    simp only [straight, Bool.false_eq_true, if_false, done]
  | skip within branch untaken _ ih =>
    refine .step ?_ ih
    rw [List.cons_append, step_instr]
    unfold runInstr
    simp only [branch, if_true, untaken, Bool.false_eq_true, if_false]

/-! ### Actions -/

/-- The action succeeds, and the code that it puts at the insert point leads from `s` and `m` to a
store and a memory of which `Q` holds. Older values keep their cells. -/
def Emits (g : Guest σ) (o : Offsets) (act : Build α) (f : Fragment) (s : Cells) (m : Memory σ)
    (Q : α → Fragment → Cells → Memory σ → Prop) : Prop :=
  ∀ b l₁ l₂, Open f b l₁ l₂ → ∃ a f' l s' m', act f = .ok (a, f') ∧ Extends f f' b l₁ l l₂ ∧
    Runs f' g o l s m s' m' ∧ (∀ v : ValueId, v.index < f.values.size → s' v = s v) ∧ Q a f' s' m'

theorem Emits.pure {Q : α → Fragment → Cells → Memory σ → Prop} {a : α} (h : Q a f s m) :
    Emits g o (Pure.pure a : Build α) f s m Q := fun _ _ _ hopen =>
  ⟨a, f, [], s, m, rfl, .refl hopen, .nil s m, fun _ _ => rfl, h⟩

/-- What holds in a fragment with its store still holds behind an action. -/
def Keeping (f : Fragment) (s : Cells) (f' : Fragment) (s' : Cells) : Prop :=
  ∀ {v : ValueId} {ty : Ty} {x : UInt64}, Holds f s v ty x → Holds f' s' v ty x

theorem Emits.bind {act : Build α} {k : α → Build β} {P : α → Fragment → Cells → Memory σ → Prop}
    {Q : β → Fragment → Cells → Memory σ → Prop} (h : Emits g o act f s m P)
    (hk : ∀ a f' s' m', Keeping f s f' s' → P a f' s' m' → Emits g o (k a) f' s' m' Q) :
    Emits g o (act >>= k) f s m Q := by
  intro b l₁ l₂ hopen
  obtain ⟨a, f', l, s', m', hact, hext, hrun, hsame, hP⟩ := h b l₁ l₂ hopen
  have hkeep : Keeping f s f' s' := fun hv => hv.grows hext.grows hsame
  obtain ⟨c, f'', l', s'', m'', hact', hext', hrun', hsame', hQ⟩ :=
    hk a f' s' m' hkeep hP b (l₁ ++ l) l₂ hext.opened
  refine ⟨c, f'', l ++ l', s'', m'', ?_, hext.trans hext', ?_, ?_, hQ⟩
  · change (act f >>= fun p => k p.1 p.2) = _
    rw [hact]
    exact hact'
  · exact (hrun.grows hext'.grows).append hrun'
  · intro v hv
    rw [hsame' v (Nat.lt_of_lt_of_le hv hext.grows.values_le), hsame v hv]

theorem Emits.mono {act : Build α} {P Q : α → Fragment → Cells → Memory σ → Prop}
    (h : Emits g o act f s m P)
    (hPQ : ∀ a f' s' m', Keeping f s f' s' → P a f' s' m' → Q a f' s' m') :
    Emits g o act f s m Q := by
  intro b l₁ l₂ hopen
  obtain ⟨a, f', l, s', m', hact, hext, hrun, hsame, hP⟩ := h b l₁ l₂ hopen
  exact ⟨a, f', l, s', m', hact, hext, hrun, hsame,
    hPQ a f' s' m' (fun hv => hv.grows hext.grows hsame) hP⟩

/-- The code of an action does not depend on the store and the memory that it is run from. -/
theorem Emits.forall {act : Build α} {P : Cells → Memory σ → Prop}
    {Q : Cells → Memory σ → α → Fragment → Cells → Memory σ → Prop} (hopen : Open f b l₁ l₂)
    (hne : ∃ s m, P s m) (h : ∀ s m, P s m → Emits g o act f s m (Q s m)) :
    ∃ a f' l, act f = .ok (a, f') ∧ Extends f f' b l₁ l l₂ ∧ ∀ s m, P s m → ∃ s' m',
      Runs f' g o l s m s' m' ∧ (∀ v : ValueId, v.index < f.values.size → s' v = s v) ∧
      Q s m a f' s' m' := by
  obtain ⟨s₀, m₀, h₀⟩ := hne
  obtain ⟨a, f', l, _, _, hact, hext, -, -, -⟩ := h s₀ m₀ h₀ b l₁ l₂ hopen
  refine ⟨a, f', l, hact, hext, ?_⟩
  intro s m hP
  obtain ⟨a', f'', l', s', m', hact', hext', hrun, hsame, hQ⟩ := h s m hP b l₁ l₂ hopen
  have hpair : (Except.ok (a', f'') : Except Fault (α × Fragment)) = .ok (a, f') :=
    hact'.symm.trans hact
  cases hpair
  have hcode := hext'.opened.chain.blockInstrs_eq.symm.trans hext.opened.chain.blockInstrs_eq
  have hl : l' = l := List.append_cancel_left (List.append_cancel_right hcode)
  subst hl
  exact ⟨s', m', hrun, hsame, hQ⟩

/-! ### Steps of actions -/

theorem emits_check {rule : Bool} (fault : Fault) (h : rule = true) :
    Emits g o (Build.check rule fault) f s m fun _ f' s' m' => f' = f ∧ s' = s ∧ m' = m := by
  intro b l₁ l₂ hopen
  refine ⟨(), f, [], s, m, ?_, .refl hopen, .nil s m, fun _ _ => rfl, rfl, rfl, rfl⟩
  unfold Build.check
  rw [if_pos h]

theorem emits_tyOf (v : ValueId) :
    Emits g o (Build.tyOf v) f s m fun ty f' s' m' => ty = f.ty v ∧ f' = f ∧ s' = s ∧ m' = m :=
  fun _ _ _ hopen =>
    ⟨f.ty v, f, [], s, m, rfl, .refl hopen, .nil s m, fun _ _ => rfl, rfl, rfl, rfl, rfl⟩

theorem open_addConstant (h : Open f b l₁ l₂) (c : Constant) :
    Open (f.addConstant c).1 b l₁ l₂ where
  chain := h.chain.congr h.chain.block_lt rfl rfl h.chain.lt fun _ _ => ⟨rfl, rfl, rfl, rfl⟩
  point := h.point

theorem constant_ok (h : Open f b l₁ l₂) (c : Constant) : ∃ v f', Build.constant c f = .ok (v, f') ∧
    Extends f f' b l₁ [] l₂ ∧ ∀ s, Holds f' s v c.ty (c.bits?.getD 0) := by
  have hgrows : Grows f (f.addConstant c).1 := grows_addValue f _
  have hnew : (f.addConstant c).1.value ⟨f.values.size⟩ = { ty := c.ty, origin := .constant c } :=
    value_addValue_new _
  refine ⟨⟨f.values.size⟩, (f.addConstant c).1, rfl, ⟨hgrows, ?_, rfl, rfl⟩, fun s => ?_⟩
  · rw [List.append_nil]
    exact open_addConstant h c
  · refine ⟨?_, ?_, ?_, ?_⟩
    · simp [addConstant, addValue]
    · unfold Fragment.ty
      rw [hnew]
    · intro c' hc'
      rw [hnew] at hc'
      cases hc'
      rfl
    · unfold bits
      rw [hnew]

theorem emits_constant (c : Constant) :
    Emits g o (Build.constant c) f s m fun v f' s' m' =>
      s' = s ∧ m' = m ∧ Holds f' s' v c.ty (c.bits?.getD 0) := by
  intro b l₁ l₂ hopen
  obtain ⟨v, f', hact, hext, hv⟩ := constant_ok hopen c
  exact ⟨v, f', [], s, m, hact, hext, .nil s m, fun _ _ => rfl, rfl, rfl, hv s⟩

/-- The type of an operand in a list of operand types and bits; a missing one counts as a full
word. -/
def tyAt (ts : List (Ty × UInt64)) (n : Nat) : Ty := (ts[n]?.map Prod.fst).getD .i64

/-- The bits of an operand in a list of operand types and bits; a missing one is zero. -/
def bitsAt (ts : List (Ty × UInt64)) (n : Nat) : UInt64 := (ts[n]?.map Prod.snd).getD 0

/-- The values of a list hold the operands of a list. -/
abbrev HoldAll (f : Fragment) (s : Cells) (args : List ValueId) (ts : List (Ty × UInt64)) : Prop :=
  List.Forall₂ (fun v t => Holds f s v t.1 t.2) args ts

section
variable {op : Opcode} {ty : Option Ty} {args : List ValueId}
  {ts : List (Ty × UInt64)} {i : InstrId}

theorem argTy_emitted (h : Emitted f f' b l₁ l₂ op ty args i)
    (hs : HoldAll f s args ts) (n : Slot) :
    argTy f' (f'.instr i) n = tyAt ts n := by
  unfold argTy tyAt
  rw [h.arg_eq]
  cases hv : args[n.val]? with
  | none =>
    have : ts[n.val]? = none := by
      rw [List.getElem?_eq_none_iff] at hv ⊢
      rwa [← hs.length_eq]
    simp [this]
  | some v =>
    obtain ⟨hlt, hget⟩ := List.getElem?_eq_some_iff.mp hv
    have hlt' : n.val < ts.length := by rwa [← hs.length_eq]
    have hold := hs.get hlt hlt'
    simp only [List.get_eq_getElem, hget] at hold
    rw [List.getElem?_eq_getElem hlt']
    exact (h.grows.ty_eq v hold.lt).trans hold.ty_eq

theorem argBits_emitted (h : Emitted f f' b l₁ l₂ op ty args i) (hs : HoldAll f s args ts)
    (n : Slot) : argBits f' cells s (f'.instr i) n = bitsAt ts n := by
  unfold argBits bitsAt
  rw [h.arg_eq]
  cases hv : args[n.val]? with
  | none =>
    have : ts[n.val]? = none := by
      rw [List.getElem?_eq_none_iff] at hv ⊢
      rwa [← hs.length_eq]
    simp [this]
  | some v =>
    obtain ⟨hlt, hget⟩ := List.getElem?_eq_some_iff.mp hv
    have hlt' : n.val < ts.length := by rwa [← hs.length_eq]
    have hold := hs.get hlt hlt'
    simp only [List.get_eq_getElem, hget] at hold
    rw [List.getElem?_eq_getElem hlt']
    exact (bits_grows h.grows hold.lt fun _ _ => rfl).trans hold.bits_eq

theorem opTy_emitted (h : Emitted f f' b l₁ l₂ op ty args i) (hs : HoldAll f s args ts) :
    opTy f' (f'.instr i) = ty.getD (tyAt ts 1) := by
  unfold opTy
  rw [h.result_eq]
  cases ty with
  | none => exact argTy_emitted h hs 1
  | some t => exact (h.value_eq t rfl).1

theorem within_of_emitted (h : Emitted f f' b l₁ l₂ op ty args i) (hs : HoldAll f s args ts) :
    Within f' i where
  lt := by rw [h.id_eq, h.size_instrs]; simp
  arg_lt n v hv := by
    rw [h.arg_eq] at hv
    obtain ⟨hlt, hget⟩ := List.getElem?_eq_some_iff.mp hv
    have hold := hs.get hlt (by rwa [← hs.length_eq])
    simp only [List.get_eq_getElem, hget] at hold
    exact Nat.lt_of_lt_of_le hold.lt h.grows.values_le
  result_lt v hv := by
    rw [h.result_eq] at hv
    obtain ⟨t, rfl, rfl⟩ := Option.map_eq_some_iff.mp hv
    rw [h.size_values]
    simp

/-- An emitted instruction that does not branch does what its operation does with its operands. -/
theorem emits_emit {out : Option UInt64} (hop : op.isBranch = false) (hlen : args.length ≤ 3)
    (hs : HoldAll f s args ts)
    (hdone : perform g o op (ty.getD (tyAt ts 1)) (tyAt ts 0) (tyAt ts 1)
    (bitsAt ts 0) (bitsAt ts 1)
      (bitsAt ts 2) m = .ok (out, m')) :
    Emits g o (Build.emit op ty args) f s m fun i f' s' m'' => m'' = m' ∧
      (ty = none → s' = s) ∧ ∀ t x, ty = some t → out = some x →
        ∃ v, f'.resultOf i = .ok v ∧ Holds f' s' v t (fit t x) := by
  intro b l₁ l₂ hopen
  obtain ⟨f', hemit, h⟩ := emit_spec hopen.chain hopen.point op ty args hlen
  set i : InstrId := ⟨f.instrs.size⟩
  have hrun : Runs f' g o [i] s m (keep f' cells (f'.instr i) s out) m' := by
    refine .cons (within_of_emitted h hs) (by rwa [h.op_eq]) ?_ (.nil _ _)
    have hty := argTy_emitted h hs
    have hbits := argBits_emitted h hs
    rw [h.op_eq, opTy_emitted h hs, hty, hty, hbits, hbits, hbits]
    exact hdone
  refine ⟨i, f', [i], _, m', hemit, extends_of_emitted h, hrun, ?_, rfl, ?_, ?_⟩
  · intro v hv
    unfold keep
    rw [h.result_eq]
    cases ty with
    | none => rfl
    | some t =>
      cases out with
      | none => rfl
      | some x =>
        have hne : v ≠ ⟨f.values.size⟩ := by
          rintro rfl
          exact Nat.lt_irrefl _ hv
        simp [cells, hne]
  · rintro rfl
    unfold keep
    rw [h.result_eq]
    rfl
  · rintro t x rfl rfl
    obtain ⟨hty, horigin, -⟩ := h.value_eq t rfl
    refine ⟨⟨f.values.size⟩, ?_, ?_, hty, ?_, ?_⟩
    · unfold resultOf
      rw [h.result_eq]
      rfl
    · rw [h.size_values]
      simp
    · intro c hc
      rw [horigin] at hc
      cases hc
    · unfold bits keep
      rw [h.result_eq, horigin]
      change (if (⟨f.values.size⟩ : ValueId) = ⟨f.values.size⟩ then _ else _) = _
      rw [if_pos rfl]
      change fit (f'.value _).ty x = _
      rw [hty]

theorem emits_effect (ts : List (Ty × UInt64)) {out : Option UInt64} (hop : op.isBranch = false)
    (hlen : args.length ≤ 3) (hs : HoldAll f s args ts)
    (hdone : perform g o op (tyAt ts 1) (tyAt ts 0) (tyAt ts 1) (bitsAt ts 0) (bitsAt ts 1)
      (bitsAt ts 2) m = .ok (out, m')) :
    Emits g o (Build.emitEffect op args) f s m fun _ _ s' m'' => s' = s ∧ m'' = m' := by
  unfold Build.emitEffect
  have hemit : Emits g o (Build.emit op none args) f s m _ := emits_emit hop hlen hs hdone
  refine hemit.bind ?_
  rintro _ f₁ s₁ m₁ - ⟨hm, hsame, -⟩
  exact .pure ⟨hsame rfl, hm⟩

theorem emits_value (ts : List (Ty × UInt64)) {t : Ty} {x : UInt64} (hop : op.isBranch = false)
    (hlen : args.length ≤ 3) (hs : HoldAll f s args ts)
    (hdone : perform g o op t (tyAt ts 0) (tyAt ts 1) (bitsAt ts 0) (bitsAt ts 1) (bitsAt ts 2) m =
      .ok (some x, m')) :
    Emits g o (Build.emitValue op t args) f s m fun v f' s' m'' =>
      m'' = m' ∧ Holds f' s' v t (fit t x) := by
  unfold Build.emitValue
  have hemit : Emits g o (Build.emit op (some t) args) f s m _ := emits_emit hop hlen hs hdone
  refine hemit.bind ?_
  rintro i f₁ s₁ m₁ - ⟨hm, -, hvalue⟩
  obtain ⟨v, hresult, hv⟩ := hvalue t x rfl rfl
  intro b l₁ l₂ hopen
  refine ⟨v, f₁, [], s₁, m₁, ?_, .refl hopen, .nil _ _, fun _ _ => rfl, hm, hv⟩
  change (f₁.resultOf i >>= fun v => Except.ok (v, f₁)) = _
  rw [hresult]
  rfl

end

/-! ### The first block and the last instruction -/

/-- A fragment with one empty block, in which instructions are put. -/
def opened : Fragment := Fragment.empty.ensureBlock.1

theorem open_opened : Open opened ⟨0⟩ [] [] where
  chain := ⟨by decide, rfl, rfl, by simp, by simp, List.nodup_nil, by simp, by simp, by simp⟩
  point := rfl

/-- The first instruction opens the first block. -/
theorem sourceInfo_empty (addr cycles : UInt32) (k : Unit → Build α) :
    (Build.sourceInfo addr cycles >>= k) Fragment.empty =
      (Build.sourceInfo addr cycles >>= k) opened := rfl

theorem bind_ok {x : Build α} {k : α → Build β} {a : α} (h : x f = .ok (a, f')) :
    (x >>= k) f = k a f' := by
  change (x f >>= fun p => k p.1 p.2) = _
  rw [h]
  rfl

theorem branch_ok {v : ValueId} (hopen : Open f b l₁ l₂) (hv : v.index < f.values.size)
    (hty : f.ty v = .i32) : ∃ f', Build.branch v f = .ok ((), f') ∧
      Emitted f f' b l₁ l₂ .branch none [v] ⟨f.instrs.size⟩ := by
  obtain ⟨f', hemit, h⟩ := emit_spec hopen.chain hopen.point .branch none [v] (by simp)
  refine ⟨f', ?_, h⟩
  have hty' : f'.ty v = .i32 := (h.grows.ty_eq v hv).trans hty
  have hcheck : Build.checkTarget v f = .ok ((), f) := by
    unfold Build.checkTarget
    rw [bind_ok (show Build.tyOf v f = .ok (f.ty v, f) from rfl), hty]
    rfl
  have heffect : Build.emitEffect .branch [v] f = .ok ((), f') := by
    unfold Build.emitEffect
    rw [bind_ok hemit]
    rfl
  have hedge : Build.addBranchEdge v f' = .ok ((), f') := by
    unfold Build.addBranchEdge
    rw [bind_ok (show (get : Build Fragment) f' = .ok (f', f') from rfl), hty']
    rfl
  unfold Build.branch
  rw [bind_ok hcheck, bind_ok heffect, hedge]

end Recompiler.Meaning
