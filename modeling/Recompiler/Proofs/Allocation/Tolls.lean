import Recompiler.Proofs.Allocation.Assignment
import Recompiler.Proofs.IR.Tolls

/-!
Allocation keeps the toll of a fragment, whatever the registers are. Spills and fills are put in
front of instructions, and arguments that are results become other results.
-/
namespace Recompiler.Pass.Allocation

open IR IR.Fragment Interp Machine Meaning

variable {o : Offsets} {g g' : Fragment} {b : BlockId} {l l' l₁ l₂ : List InstrId} {i j k : InstrId}
  {cs : List (UInt32 × UInt32)} {s s' s'' : State} {u v : ValueId}
  {v? : Option ValueId} {bin t : Nat} {regs : Array Register}

/-! ### Fragments -/

/-- A fragment with a toll under allocation: all values are integers, and slots lie in the local
area. -/
structure Laden (o : Offsets) (g : Fragment) (b : BlockId) (l : List InstrId)
    (cs : List (UInt32 × UInt32)) : Prop where
  order_eq : g.order = [b]
  chain : g.Chain b l
  toll : Toll o g l cs
  isInt : ∀ v, (g.ty v).isInt = true
  result : ∀ i v, (g.instr i).result = some v → Defined g i v
  localsSize_nonneg : 0 ≤ g.localsSize
  localsSize_le : g.localsSize ≤ maxLocalsSize
  slot : ∀ l : LocalId, l.index < g.locals.size → (g.localSlot l).ty.isInt = true ∧
    0 ≤ (g.localSlot l).offset ∧ (g.localSlot l).offset + (g.localSlot l).ty.bytes ≤ g.localsSize

theorem instr_eq_default (h : g.instrs.size ≤ i.index) : g.instr i = default := by
  unfold instr
  rw [Array.getD_eq_getD_getElem?, Array.getElem?_eq_none h]
  rfl

theorem widens_defined (hw : Widens g g') (h : Defined g i v) : Defined g' i v :=
  ⟨Nat.lt_of_lt_of_le h.lt hw.values_le, (hw.origin_eq v h.lt).trans h.origin_eq⟩

/-- An argument stays, or a result takes the place of a value that is not a constant. -/
def Rereads (g g' : Fragment) (i : InstrId) (n : Slot) : Prop :=
  (g'.instr i).arg n = (g.instr i).arg n ∨
    ∃ a v j, (g.instr i).arg n = some a ∧ g.isConstant a = false ∧
      (g'.instr i).arg n = some v ∧ Defined g' j v

theorem hasWord_of_rereads {n : Slot} {x : UInt32} (h : HasWord g i n x) (hw : Widens g g')
    (harg : Rereads g g' i n) : HasWord g' i n x := by
  obtain ⟨v, hv, hlt, horigin⟩ := h
  obtain hsame | ⟨a, _, _, ha, hconst, -⟩ := harg
  · exact ⟨v, hsame.trans hv, Nat.lt_of_lt_of_le hlt hw.values_le,
      (hw.origin_eq v hlt).trans horigin⟩
  · cases ha.symm.trans hv
    unfold isConstant Value.isConstant at hconst
    rw [horigin] at hconst
    cases hconst

theorem departs_of_rereads (h : Departs g i) (hw : Widens g g') (harg : ∀ n, Rereads g g' i n) :
    Departs g' i := by
  have hop := hw.op_eq i h.lt
  obtain ⟨v, hv, hlt, hconst⟩ := h.target
  obtain ⟨n, hn, hv⟩ := target?_eq_some.mp hv
  refine ⟨by rw [hop]; exact h.branch, ?_⟩
  obtain hsame | ⟨_, w, _, _, _, hw', hdef⟩ := harg n
  · refine ⟨v, target?_eq_some.mpr ⟨n, by rw [hop]; exact hn, hsame.trans hv⟩,
      Nat.lt_of_lt_of_le hlt hw.values_le, fun c hc => hconst c ?_⟩
    rw [← hw.origin_eq v hlt]
    exact hc
  · refine ⟨w, target?_eq_some.mpr ⟨n, by rw [hop]; exact hn, hw'⟩, hdef.lt, fun c hc => ?_⟩
    cases hdef.origin_eq.symm.trans hc

theorem opTy_widens (hw : Widens g g') (hi : Within g i)
    (hargs : (g'.instr i).args = (g.instr i).args) :
    opTy g' (g'.instr i) = opTy g (g.instr i) := by
  unfold opTy argTy Instr.arg
  rw [hw.result_eq i hi.lt, hargs]
  cases hr : (g.instr i).result with
  | some v => exact hw.ty_eq v (hi.result_lt v hr)
  | none =>
    cases hv : (g.instr i).args.get 1 with
    | none => rfl
    | some v => exact hw.ty_eq v (hi.arg_lt 1 v hv)

theorem retains_of_rereads (hw : Widens g g') (hi : i.index < g.instrs.size)
    (harg : ∀ n, Rereads g g' i n)
    (hlocal : IsLocal (g.instr i).op → (g'.instr i).args = (g.instr i).args) : Retains g g' i where
  lt := Nat.lt_of_lt_of_le hi hw.instrs_le
  op_eq := hw.op_eq i hi
  word n _ h := hasWord_of_rereads h hw (harg n)
  departs h := departs_of_rereads h hw harg
  near hop h := by
    have hargs := hlocal hop
    obtain ⟨x, hx, hle⟩ := h.offset
    refine ⟨⟨Nat.lt_of_lt_of_le hi hw.instrs_le, fun n v hv => ?_, fun v hv => ?_⟩, x,
      hasWord_of_rereads hx hw (harg 0), ?_⟩
    · unfold Instr.arg at hv
      rw [hargs] at hv
      exact Nat.lt_of_lt_of_le (h.within.arg_lt n v hv) hw.values_le
    · rw [hw.result_eq i hi] at hv
      exact Nat.lt_of_lt_of_le (h.within.result_lt v hv) hw.values_le
    · rw [opTy_widens hw h.within hargs]
      have hsize := hw.localsSize_le
      omega

/-- Only registers and arguments change. -/
theorem Laden.rereads (h : Laden o g b l cs) (hw : Widens g g')
    (hvalues : g'.values.size = g.values.size)
    (hinstrs : g'.instrs.size = g.instrs.size) (hlocals : g'.locals = g.locals)
    (hsize : g'.localsSize = g.localsSize) (hchain : g'.Chain b l)
    (harg : ∀ i ∈ l, ∀ n, Rereads g g' i n)
    (hlocal : ∀ i ∈ l, IsLocal (g.instr i).op → (g'.instr i).args = (g.instr i).args) :
    Laden o g' b l cs where
  order_eq := hw.order_eq.trans h.order_eq
  chain := hchain
  toll := h.toll.retains fun i hi => retains_of_rereads hw (h.chain.lt i hi)
    (harg i hi) (hlocal i hi)
  isInt v := by
    by_cases hv : v.index < g.values.size
    · unfold Fragment.ty
      rw [hw.ty_eq v hv]
      exact h.isInt v
    · unfold Fragment.ty
      rw [value_eq_default (by omega)]
      rfl
  result i v hv := by
    by_cases hi : i.index < g.instrs.size
    · rw [hw.result_eq i hi] at hv
      exact widens_defined hw (h.result i v hv)
    · rw [instr_eq_default (by omega)] at hv
      cases hv
  localsSize_nonneg := hsize ▸ h.localsSize_nonneg
  localsSize_le := hsize ▸ h.localsSize_le
  slot l hl := by
    unfold localSlot
    rw [hlocals, hsize]
    rw [hlocals] at hl
    exact h.slot l hl

/-- The code grows, and the local area does not. -/
theorem Laden.grows (h : Laden o g b l cs) (hg : Grows g g') (horder : g'.order = g.order)
    (hlocals : g'.locals = g.locals) (hsize : g'.localsSize = g.localsSize) (hchain : g'.Chain b l')
    (htoll : Toll o g' l' cs)
    (hint : ∀ v : ValueId, g.values.size ≤ v.index → (g'.ty v).isInt = true)
    (hresult : ∀ i v, g.instrs.size ≤ i.index → (g'.instr i).result = some v → Defined g' i v) :
    Laden o g' b l' cs where
  order_eq := horder.trans h.order_eq
  chain := hchain
  toll := htoll
  isInt v := by
    by_cases hv : v.index < g.values.size
    · unfold Fragment.ty
      rw [hg.ty_eq v hv]
      exact h.isInt v
    · exact hint v (by omega)
  result i v hv := by
    by_cases hi : i.index < g.instrs.size
    · rw [hg.result_eq i hi] at hv
      exact (h.result i v hv).grows hg
    · exact hresult i v (by omega) hv
  localsSize_nonneg := hsize ▸ h.localsSize_nonneg
  localsSize_le := hsize ▸ h.localsSize_le
  slot l hl := by
    unfold localSlot
    rw [hlocals, hsize]
    rw [hlocals] at hl
    exact h.slot l hl

theorem Laden.setPoint (h : Laden o g b l cs) (p : InsertPoint) : Laden o (g.setPoint p) b l cs :=
  h.grows (grows_setPoint g p) rfl rfl rfl (h.chain.setPoint p)
    (h.toll.grows (grows_setPoint g p) (Int.le_refl _))
    (fun v _ => h.isInt v) (fun i v _ hv => (h.result i v hv).grows (grows_setPoint g p))

theorem Laden.addConstant (h : Laden o g b l cs) {c : Constant} (hc : c.ty.isInt = true) :
    Laden o (g.addConstant c).1 b l cs := by
  have hg : Grows g (g.addConstant c).1 := grows_addValue g _
  refine h.grows hg rfl rfl rfl (h.chain.sameButArgs rfl rfl fun _ => .refl _)
    (h.toll.grows hg (Int.le_refl _)) (fun v hv => ?_) fun i v _ hv => (h.result i v hv).grows hg
  have hvalue : (g.addConstant c).1.value v =
      if v.index = g.values.size then { ty := c.ty, origin := .constant c } else g.value v :=
    value_addValue _ v
  unfold Fragment.ty
  rw [hvalue]
  split
  · exact hc
  · exact h.isInt v

/-- A slot of its own for an integer. -/
theorem Laden.withSlot (h : Laden o g b l cs) {ty : Ty} (hty : ty.isInt = true)
    (hroom : slotOffset g ty + ty.bytes ≤ maxLocalsSize) : Laden o (withSlot g ty) b l cs := by
  obtain ⟨hpos, -⟩ := bytes_of_scalar (.inl hty)
  have hle : g.localsSize ≤ slotOffset g ty := le_alignUp _ _ (by exact_mod_cast hpos)
  have hnonneg := h.localsSize_nonneg
  have hgrow : g.localsSize ≤ slotOffset g ty + ty.bytes := by omega
  refine ⟨h.order_eq, chain_withSlot h.chain ty, h.toll.grows (grows_withSlot g ty) hgrow, h.isInt,
    fun i v hv => (h.result i v hv).grows (grows_withSlot g ty), Int.le_trans hnonneg hgrow, hroom,
    fun l hl => ?_⟩
  change l.index < (g.locals.push _).size at hl
  rw [Array.size_push] at hl
  have hslot : (Allocation.withSlot g ty).localSlot l =
      (g.locals.push { ty, offset := slotOffset g ty }).getD l.index default := rfl
  change _ ∧ _ ∧ _ ≤ slotOffset g ty + ty.bytes
  by_cases hlt : l.index < g.locals.size
  · rw [hslot, getD_push_lt _ _ _ hlt]
    obtain ⟨hint, hoffset, hend⟩ := h.slot l hlt
    unfold localSlot at hint hoffset hend
    exact ⟨hint, hoffset, by omega⟩
  · have hl : l.index = g.locals.size := by omega
    rw [hslot, hl, getD_push_self]
    exact ⟨hty, Int.le_trans hnonneg hle, Int.le_refl _⟩

/-- An access to a slot is put in front of an instruction. -/
theorem Laden.access {x : UInt32} {op : Opcode} {ty : Option Ty} {args : List ValueId}
    {offset : Int}
    (h : Laden o g b (l₁ ++ j :: l₂) cs)
    (he : Emitted (g.addConstant (.i32 x)).1 g' b l₁ (j :: l₂) op ty args k) (hop : IsLocal op)
    (hacc : IsAccess g' k op offset v?) (hoffset : 0 ≤ offset)
    (hargs : ∀ v ∈ args, v.index < g'.values.size)
    (hty : ∀ t, ty = some t → t.isInt = true)
    (hend : offset + (opTy g' (g'.instr k)).bytes ≤ g.localsSize) :
    Laden o g' b (l₁ ++ k :: j :: l₂) cs := by
  have h₁ : Laden o (g.addConstant (.i32 x)).1 b (l₁ ++ j :: l₂) cs := h.addConstant rfl
  have hle := h.localsSize_le
  have hlt : k.index < g'.instrs.size := he.chain.lt k (by simp)
  have hsize : g'.localsSize = g.localsSize := he.localsSize_eq
  obtain ⟨c, hc, hclt, -, hcorigin⟩ := hacc.arg_zero
  have hresult : ∀ v, (g'.instr k).result = some v → Defined g' k v := by
    intro v hv
    rw [he.result_eq] at hv
    obtain ⟨t, rfl, rfl⟩ := Option.map_eq_some_iff.mp hv
    refine ⟨?_, (he.value_eq t rfl).2.1⟩
    rw [he.size_values]
    exact Nat.lt_succ_self _
  have hoff := toNat_offset hoffset (by omega)
  rw [UInt32.toNat_toUInt64] at hoff
  have hcalm : Calm o g' k := by
    refine ⟨⟨hlt, ?_, ?_, ?_⟩, fun _ => ⟨⟨hlt, fun n v hv => ?_, fun v hv => (hresult v hv).lt⟩, _,
      ⟨c, hc, hclt, hcorigin⟩, ?_⟩⟩
    · rw [hacc.op_eq]
      obtain rfl | rfl := hop <;> decide
    · rw [hacc.op_eq]
      obtain rfl | rfl := hop <;> rfl
    · rw [hacc.op_eq]
      obtain rfl | rfl := hop <;> nofun
    · rw [he.arg_eq] at hv
      exact hargs v (List.mem_of_getElem? hv)
    · rw [hoff, hsize]
      omega
  refine h₁.grows he.grows he.order_eq he.locals_eq he.localsSize_eq he.chain
    (Toll.insert (h₁.toll.grows he.grows (Int.le_of_eq he.localsSize_eq.symm)) (by simp) hcalm)
    (fun v hv => ?_) fun i v hi hv => ?_
  · cases ty with
    | none =>
      have hnone : g'.values.size ≤ v.index := by
        rw [he.size_values]
        exact hv
      unfold Fragment.ty
      rw [value_eq_default hnone]
      rfl
    | some t =>
      by_cases hnew : v.index = (g.addConstant (.i32 x)).1.values.size
      · obtain rfl : v = ⟨(g.addConstant (.i32 x)).1.values.size⟩ := ValueId.ext_index hnew
        exact (congrArg Ty.isInt (he.value_eq t rfl).1).trans (hty t rfl)
      · have hnone : g'.values.size ≤ v.index := by
          rw [he.size_values]
          simp only [Option.toList_some, List.length_singleton]
          omega
        unfold Fragment.ty
        rw [value_eq_default hnone]
        rfl
  · by_cases hik : i = k
    · rw [hik] at hv ⊢
      exact hresult v hv
    · have hout : g'.instrs.size ≤ i.index := by
        have hne : i.index ≠ k.index := fun e => hik (InstrId.ext_index e)
        rw [he.id_eq] at hne
        rw [he.size_instrs]
        dsimp only at hne
        have hi' : (g.addConstant (.i32 x)).1.instrs.size = g.instrs.size := rfl
        omega
      rw [instr_eq_default hout] at hv
      cases hv

/-! ### The allocator -/

/-- The allocator works on a fragment with a toll. Temporaries are held by results, and spilled to
slots that are there. -/
structure Bears (o : Offsets) (b : BlockId) (cs : List (UInt32 × UInt32)) (l : List InstrId)
    (s : State) : Prop where
  laden : Laden o s.fragment b l cs
  value : ∀ t v, (temp s t).value = some v → ∃ i, Defined s.fragment i v
  slot : ∀ t k, (temp s t).slot = some k → k.index < s.fragment.locals.size

/-- The allocator puts instructions in, and changes the arguments of none. -/
structure Advances (o : Offsets) (b : BlockId) (cs : List (UInt32 × UInt32)) (l : List InstrId)
    (s s' : State) : Prop where
  bears : ∃ l', Bears o b cs l' s' ∧ l ⊆ l'
  widens : Widens s.fragment s'.fragment
  args_eq : ∀ i : InstrId, i.index < s.fragment.instrs.size →
    (s'.fragment.instr i).args = (s.fragment.instr i).args

theorem Bears.advances (h : Bears o b cs l s) : Advances o b cs l s s :=
  ⟨⟨l, h, List.Subset.refl l⟩, .refl _, fun _ _ => rfl⟩

theorem Advances.trans (h : Advances o b cs l s s')
    (h' : ∀ l', Bears o b cs l' s' → l ⊆ l' → Advances o b cs l' s' s'') :
    Advances o b cs l s s'' := by
  obtain ⟨⟨l', hbears, hsub⟩, hw, hargs⟩ := h
  obtain ⟨⟨l'', hbears', hsub'⟩, hw', hargs'⟩ := h' l' hbears hsub
  exact ⟨⟨l'', hbears', List.Subset.trans hsub hsub'⟩, hw.trans hw', fun i hi =>
    (hargs' i (Nat.lt_of_lt_of_le hi hw.instrs_le)).trans (hargs i hi)⟩

/-- A change to a temporary. -/
theorem Bears.modifyTemp (h : Bears o b cs l s) (t : Nat) {m : Temp → Temp}
    (hvalue : ∀ v, (m (temp s t)).value = some v → ∃ i, Defined s.fragment i v)
    (hslot : ∀ k, (m (temp s t)).slot = some k → k.index < s.fragment.locals.size) :
    Bears o b cs l (modifyTemp s t m) where
  laden := h.laden
  value u v hv := by
    rw [temp_modifyTemp] at hv
    split at hv
    case isTrue hu =>
      rw [← hu.1] at hv
      exact hvalue v hv
    case isFalse => exact h.value u v hv
  slot u k hk := by
    rw [temp_modifyTemp] at hk
    split at hk
    case isTrue hu =>
      rw [← hu.1] at hk
      exact hslot k hk
    case isFalse => exact h.slot u k hk

theorem Bears.setReg (h : Bears o b cs l s) (v : ValueId) (r : Option UInt8) :
    Bears o b cs l { s with fragment := s.fragment.modifyValue v ({ · with reg := r }) } := by
  have hw := widens_setReg s.fragment v r
  refine ⟨h.laden.rereads hw (by simp) rfl rfl rfl ?_ (fun i _ n => .inl rfl) fun _ _ _ => rfl,
    fun t u hu => ?_, h.slot⟩
  · exact h.laden.chain.sameButArgs rfl rfl fun _ => .refl _
  · obtain ⟨i, hi⟩ := h.value t u hu
    exact ⟨i, widens_defined hw hi⟩

/-- A bin is given to a temporary, whose value gets its register. -/
theorem Bears.give (h : Bears o b cs l s) (bin : Nat) (v? : Option ValueId)
    (packed : Array (Option Nat)) :
    Advances o b cs l s
      { s with
        fragment := match v? with
          | some v => s.fragment.modifyValue v ({ · with reg := some bin.toUInt8 })
          | none => s.fragment
        bins := { s.bins with packed } } := by
  cases v? with
  | none => exact ⟨⟨l, ⟨h.laden, h.value, h.slot⟩, List.Subset.refl l⟩, .refl _, fun _ _ => rfl⟩
  | some v =>
    have h₁ := h.setReg v (some bin.toUInt8)
    exact ⟨⟨l, ⟨h₁.laden, h₁.value, h₁.slot⟩, List.Subset.refl l⟩, widens_setReg s.fragment v _,
      fun _ _ => rfl⟩

/-- Bins may be emptied and given away. -/
theorem Bears.pack (h : Bears o b cs l s) (bin : Nat) (new : Option Nat) :
    Advances o b cs l s (pack bin new s) := by
  rw [Allocation.pack]
  cases s.bins.packed.getD bin none with
  | none =>
    dsimp only
    cases new.bind fun t => (temp s t).value with
    | none => exact h.give bin none _
    | some v => exact h.give bin (some v) _
  | some old =>
    have h₁ : Bears o b cs l (Allocation.modifyTemp s old ({ · with value := none })) :=
      h.modifyTemp old (fun _ hv => by cases hv) (h.slot old)
    dsimp only
    refine Advances.trans ⟨⟨l, h₁, List.Subset.refl l⟩, .refl _, fun _ _ => rfl⟩ fun l' h₂ _ => ?_
    cases new.bind fun t =>
      (temp (Allocation.modifyTemp s old ({ · with value := none })) t).value with
    | none => exact h₂.give bin none _
    | some v => exact h₂.give bin (some v) _

theorem Bears.expireBin (h : Bears o b cs l s) (pos : Int) (bin : Nat) :
    Advances o b cs l s (expireBin pos s bin) := by
  unfold Allocation.expireBin
  split
  · exact h.advances
  · next t _ =>
    have h₁ : Bears o b cs l
        (Allocation.modifyTemp s t ({ · with uses := dropUses pos (temp s t).uses })) :=
      h.modifyTemp t (h.value t) (h.slot t)
    have hstart : Advances o b cs l s
        (Allocation.modifyTemp s t ({ · with uses := dropUses pos (temp s t).uses })) :=
      ⟨⟨l, h₁, List.Subset.refl l⟩, .refl _, fun _ _ => rfl⟩
    dsimp only
    split
    · split
      · exact hstart.trans fun _ h₁ _ => h₁.pack bin none
      · exact hstart
    · exact hstart.trans fun _ h₁ _ => h₁.pack bin none

theorem Bears.expire (h : Bears o b cs l s) (pos : Int) : Advances o b cs l s (expire pos s) := by
  unfold Allocation.expire
  generalize List.range s.bins.packed.size = bins
  induction bins generalizing s l with
  | nil => exact h.advances
  | cons bin bins ih => exact (h.expireBin pos bin).trans fun _ h₁ _ => ih h₁

/-! ### Spills and fills -/

theorem ok_of_bind {α β : Type} {m : Alloc α} {k : α → Alloc β} {c : β}
    (h : (m >>= k : Alloc β) s = .ok (c, s'')) : ∃ a s', m s = .ok (a, s') ∧
      k a s' = .ok (c, s'') := by
  obtain ⟨⟨a, s'⟩, hm, hk⟩ := Interp.bind_eq_ok (show (m s >>= fun p => k p.1 p.2) = _ from h)
  exact ⟨a, s', hm, hk⟩

theorem insertBefore_ok {α : Type} {m : Build α} {a : α} (h : insertBefore i m s = .ok (a, s')) :
    ∃ g', m (s.fragment.beforeInstr i) = .ok (a, g') ∧
      s' = { s with fragment := g'.setPoint s.fragment.point } := by
  obtain ⟨⟨a', g'⟩, hm, hs⟩ := Interp.bind_eq_ok h
  cases hs
  exact ⟨g', hm, rfl⟩

theorem room_of_storeNew {a : LocalId} (h : storeNew u g = .ok (a, g')) :
    slotOffset g (g.ty u) + (g.ty u).bytes ≤ maxLocalsSize := by
  obtain ⟨ty, g₁, hty, h⟩ := ok_of_bind_ok h
  cases hty
  obtain ⟨slot, g₂, hslot, -⟩ := ok_of_bind_ok h
  obtain ⟨p, halloc, -⟩ := Interp.bind_eq_ok hslot
  unfold Fragment.allocLocal at halloc
  split at halloc
  · cases halloc
  dsimp only at halloc
  split at halloc
  · cases halloc
  next hroom => exact Int.not_lt.mp hroom

/-- The code gains an instruction in front of another one. -/
theorem Bears.inserted (h : Bears o b cs (l₁ ++ i :: l₂) s) (hg : Grows s.fragment g')
    (hladen : Laden o g' b (l₁ ++ k :: i :: l₂) cs) (hw : Widens s.fragment g') :
    Advances o b cs (l₁ ++ i :: l₂) s { s with fragment := g' } := by
  refine ⟨⟨_, ⟨hladen, fun t v hv => ?_, fun t k hk => ?_⟩, ?_⟩, hw, hg.args_eq⟩
  · obtain ⟨j, hj⟩ := h.value t v hv
    exact ⟨j, hj.grows hg⟩
  · exact Nat.lt_of_lt_of_le (h.slot t k hk) hw.locals_le
  · exact List.append_subset.mpr ⟨List.subset_append_left _ _,
      List.subset_append_of_subset_right _ (List.subset_cons_self k _)⟩

theorem widens_withSlot (g : Fragment) {ty : Ty} (hty : 0 < ty.bytes) :
    Widens g (withSlot g ty) := by
  have hle : g.localsSize ≤ slotOffset g ty := le_alignUp _ _ (by exact_mod_cast hty)
  refine ⟨Nat.le_refl _, Nat.le_refl _, fun _ _ => rfl, fun _ _ => rfl, fun _ _ => rfl,
    fun _ _ => rfl, rfl, ?_, fun l hl => getD_push_lt _ _ _ hl, ?_⟩
  · change g.locals.size ≤ (g.locals.push _).size
    rw [Array.size_push]
    omega
  · change g.localsSize ≤ slotOffset g ty + ty.bytes
    omega

theorem Bears.stored {a : LocalId} (h : Bears o b cs l s) (hi : i ∈ l) (hu : Defined s.fragment j u)
    (hrun : insertBefore i (storeNew u) s = .ok (a, s')) :
    Advances o b cs l s s' ∧ a.index < s'.fragment.locals.size := by
  obtain ⟨l₁, l₂, rfl⟩ := List.append_of_mem hi
  obtain ⟨g', hstore, rfl⟩ := insertBefore_ok hrun
  have hty := h.laden.isInt u
  obtain ⟨hpos, -⟩ := bytes_of_scalar (.inl hty)
  have hroom : slotOffset s.fragment (s.fragment.ty u) + (s.fragment.ty u).bytes ≤ maxLocalsSize :=
    room_of_storeNew (g := s.fragment.beforeInstr i) hstore
  obtain ⟨g₁, k, hstore₁, hgrows, he, hacc⟩ := storeNew_emits h.laden.chain hpos hroom
  obtain ⟨rfl, rfl⟩ := Prod.mk.inj (Except.ok.inj (hstore₁.symm.trans hstore))
  have hladen :
    Laden o (withSlot (s.fragment.beforeInstr i) (s.fragment.ty u)) b (l₁ ++ i :: l₂) cs :=
    Laden.withSlot (h.laden.setPoint _) hty hroom
  have hg : Grows s.fragment (withSlot (s.fragment.beforeInstr i) (s.fragment.ty u)) :=
    (grows_setPoint _ _).trans (grows_withSlot _ _)
  have hult : u.index < g₁.values.size :=
    Nat.lt_of_lt_of_le hu.lt (hg.trans hgrows).values_le
  have hopTy : opTy g₁ (g₁.instr k) = s.fragment.ty u := by
    have hnone : (g₁.instr k).result = none := he.result_eq
    unfold opTy argTy
    rw [hnone, hacc.arg_one]
    exact (hg.trans hgrows).ty_eq u hu.lt
  have hnonneg : 0 ≤ slotOffset s.fragment (s.fragment.ty u) :=
    Int.le_trans h.laden.localsSize_nonneg (le_alignUp _ _ (by exact_mod_cast hpos))
  have hnew : (⟨s.fragment.values.size⟩ : ValueId).index < g₁.values.size := by
    rw [he.size_values]
    simp [addConstant, addValue, withSlot, beforeInstr, setPoint]
  have hladen₁ : Laden o g₁ b (l₁ ++ k :: i :: l₂) cs := by
    refine hladen.access he (.inr rfl) hacc hnonneg (fun v hv => ?_) (fun _ h => by cases h) ?_
    · rcases List.mem_cons.mp hv with rfl | hv
      · exact hnew
      · rw [List.mem_singleton.mp hv]
        exact hult
    · rw [hopTy]
      exact Int.le_refl _
  have hw : Widens s.fragment (g₁.setPoint s.fragment.point) := by
    have hpoint : Widens s.fragment (s.fragment.beforeInstr i) :=
      widens_of_grows (grows_setPoint s.fragment (s.fragment.beforeInstr i).point) rfl rfl rfl
    refine hpoint.trans ((widens_withSlot _ hpos).trans ?_)
    exact widens_of_grows (hgrows.trans (grows_setPoint _ _)) he.order_eq he.locals_eq
      he.localsSize_eq
  refine ⟨h.inserted (hg.trans (hgrows.trans (grows_setPoint _ _))) (hladen₁.setPoint _) hw, ?_⟩
  change s.fragment.locals.size < g₁.locals.size
  have hlocals : g₁.locals = s.fragment.locals.push _ := he.locals_eq
  rw [hlocals, Array.size_push]
  exact Nat.lt_succ_self _

/-- A slot is loaded in front of an instruction. -/
theorem Bears.loaded {a : LocalId} (h : Bears o b cs l s) (hi : i ∈ l)
    (ha : a.index < s.fragment.locals.size)
    (hrun : insertBefore i (Build.loadLocal a) s = .ok (v, s')) :
    Advances o b cs l s s' ∧ (s'.bins = s.bins) ∧ ∃ k, (s'.fragment.instr k).result = some v ∧
      ∀ l', Bears o b cs l' s' → k ∈ l' := by
  obtain ⟨l₁, l₂, rfl⟩ := List.append_of_mem hi
  obtain ⟨g', hload, rfl⟩ := insertBefore_ok hrun
  obtain ⟨hint, hoffset, hend⟩ := h.laden.slot a ha
  obtain ⟨g₁, k, v₁, hload₁, hresult, hgrows, he, hacc⟩ := loadLocal_emits h.laden.chain a
  obtain ⟨rfl, rfl⟩ := Prod.mk.inj (Except.ok.inj (hload₁.symm.trans hload))
  have hg := grows_setPoint s.fragment (s.fragment.beforeInstr i).point
  have hladen : Laden o (s.fragment.beforeInstr i) b (l₁ ++ i :: l₂) cs := h.laden.setPoint _
  have hopTy : opTy g₁ (g₁.instr k) = (s.fragment.localSlot a).ty := by
    unfold opTy
    rw [hresult]
    rw [he.result_eq, Option.map_some, Option.some.injEq] at hresult
    rw [← hresult]
    exact (he.value_eq _ rfl).1
  have hnew : (⟨s.fragment.values.size⟩ : ValueId).index < g₁.values.size := by
    rw [he.size_values]
    simp [addConstant, addValue, beforeInstr, setPoint]
  have hladen₁ : Laden o g₁ b (l₁ ++ k :: i :: l₂) cs := by
    refine hladen.access he (.inl rfl) hacc hoffset (fun v hv => ?_) (fun t ht => ?_) ?_
    · rw [List.mem_singleton.mp hv]
      exact hnew
    · cases ht
      exact hint
    · rw [hopTy]
      exact hend
  have hw : Widens s.fragment (g₁.setPoint s.fragment.point) := by
    refine Widens.trans (widens_of_grows hg rfl rfl rfl) ?_
    exact widens_of_grows (hgrows.trans (grows_setPoint _ _)) he.order_eq he.locals_eq
      he.localsSize_eq
  have hbears := h.inserted (hg.trans (hgrows.trans (grows_setPoint _ _))) (hladen₁.setPoint _) hw
  refine ⟨hbears, rfl, k, hresult, fun l' h' => ?_⟩
  have hl' := (hladen₁.setPoint s.fragment.point).chain.blockInstrs_eq.symm.trans
    h'.laden.chain.blockInstrs_eq
  rw [← hl']
  simp

theorem Bears.store {r : Bool} {ty : Ty} (h : Bears o b cs l s) (hi : i ∈ l)
    (hu : Defined s.fragment j u) (hrun : (do
      let slot ← insertBefore i (storeNew u)
      modify fun s => Allocation.modifyTemp s t ({ · with slot := some slot })
      modify fun s =>
        if ty.isInt then { s with gprsSpilled := s.gprsSpilled + 1 }
        else { s with fprsSpilled := s.fprsSpilled + 1 }
      return true : Alloc Bool) s = .ok (r, s')) : Advances o b cs l s s' := by
  obtain ⟨a, s₁, hstore, hrun⟩ := ok_of_bind hrun
  obtain ⟨hadv, ha⟩ := h.stored hi hu hstore
  rw [bind_modify, bind_modify] at hrun
  cases hrun
  refine hadv.trans fun l' h' _ => ?_
  have h₁ : Bears o b cs l' (Allocation.modifyTemp s₁ t ({ · with slot := some a })) :=
    h'.modifyTemp t (h'.value t) fun k hk => by cases hk; exact ha
  split
  · exact ⟨⟨l', ⟨h₁.laden, h₁.value, h₁.slot⟩, List.Subset.refl l'⟩, .refl _, fun _ _ => rfl⟩
  · exact ⟨⟨l', ⟨h₁.laden, h₁.value, h₁.slot⟩, List.Subset.refl l'⟩, .refl _, fun _ _ => rfl⟩

/-- A bin whose temporary has no slot is spilled in front of an instruction. -/
theorem Bears.spill {r : Bool} (h : Bears o b cs l s) (hi : i ∈ l)
    (hrun : spill bin i s = .ok (r, s')) :
    Advances o b cs l s s' := by
  rw [Allocation.spill, bind_get] at hrun
  cases hbin : s.bins.packed.getD bin none with
  | none =>
    rw [hbin] at hrun
    cases hrun
    exact h.advances
  | some t =>
    rw [hbin] at hrun
    dsimp only at hrun
    cases hslot : (temp s t).slot with
    | some a =>
      rw [hslot] at hrun
      cases hrun
      exact h.advances
    | none =>
      rw [hslot] at hrun
      cases hu : (temp s t).value with
      | none =>
        rw [hu] at hrun
        cases hrun
        exact h.advances
      | some u =>
        rw [hu] at hrun
        obtain ⟨j, hj⟩ := h.value t u hu
        exact h.store hi hj hrun

theorem Bears.assign {ty : Ty} {a : Unit} (h : Bears o b cs l s) (hi : i ∈ l)
    (hrun : assign regs t ty i s = .ok (a, s')) : Advances o b cs l s s' := by
  rw [Allocation.assign, bind_get] at hrun
  cases hchoice : reusable? regs s ty i <|> free? regs s ty with
  | some bin =>
    rw [hchoice] at hrun
    cases hrun
    exact h.pack _ _
  | none =>
    rw [hchoice] at hrun
    dsimp only at hrun
    cases hvictim : victim? regs s ty with
    | none =>
      rw [hvictim] at hrun
      cases hrun
    | some bin =>
      rw [hvictim] at hrun
      obtain ⟨spilled, s₁, hspill, hrun⟩ := ok_of_bind hrun
      refine (h.spill hi hspill).trans fun l' h' _ => ?_
      cases spilled <;> cases hrun
      exact h'.pack _ _

/-- A register for the result of an instruction. -/
theorem Bears.allocate {a : Unit} (h : Bears o b cs l s) (hi : i ∈ l)
    (hv : (s.fragment.instr i).result = some v) (hrun : allocate regs v s = .ok (a, s')) :
    Advances o b cs l s s' := by
  have hdef := h.laden.result i v hv
  rw [Allocation.allocate, bind_get, bind_modify, bind_get] at hrun
  have h₁ :
    Bears o b cs l (Allocation.modifyTemp s (s.tempOf.getD v 0) ({ · with value := some v })) :=
    h.modifyTemp _ (fun w hw => by cases hw; exact ⟨i, hdef⟩) (h.slot _)
  have hinstr :
    ((Allocation.modifyTemp s (s.tempOf.getD v 0) ({ · with value := some v })).fragment.value
      v).definition? = some i := by
    unfold Value.definition?
    rw [show
      ((Allocation.modifyTemp s (s.tempOf.getD v 0) ({ · with value := some v })).fragment.value
      v).origin = _ from hdef.origin_eq]
  rw [hinstr] at hrun
  refine Advances.trans ⟨⟨l, h₁, List.Subset.refl l⟩, .refl _, fun _ _ => rfl⟩ fun l' h' hsub => ?_
  exact h'.assign (hsub hi) hrun

theorem Bears.fill {a : LocalId} {r : Unit} (h : Bears o b cs l s) (hi : i ∈ l)
    (ha : a.index < s.fragment.locals.size) (hrun : fill regs i t a s = .ok (r, s')) :
    Advances o b cs l s s' := by
  obtain ⟨v, s₁, hload, hrun⟩ := ok_of_bind hrun
  obtain ⟨hadv, hbins, k, hk, hmem⟩ := h.loaded hi ha hload
  rw [bind_modify] at hrun
  refine hadv.trans fun l' h' _ => ?_
  have h₁ : Bears o b cs l' { s₁ with tempOf := s₁.tempOf.insert v t } :=
    ⟨h'.laden, h'.value, h'.slot⟩
  obtain ⟨hbears, hw, hargs⟩ := h₁.allocate (hmem l' h') hk hrun
  exact ⟨hbears, hw, hargs⟩

theorem Bears.reload {n : Slot} {r : Unit} (h : Bears o b cs l s) (hi : i ∈ l)
    (hrun : reload regs i n t s = .ok (r, s')) : Advances o b cs l s s' := by
  rw [Allocation.reload, bind_get] at hrun
  cases hv : (temp s t).value with
  | some v =>
    rw [hv] at hrun
    cases hrun
    exact h.advances
  | none =>
    cases ha : (temp s t).slot with
    | some a =>
      rw [hv, ha] at hrun
      exact h.fill hi (h.slot t a ha) hrun
    | none =>
      rw [hv, ha] at hrun
      cases hrun

/-! ### Visits -/

/-- The arguments of an instruction are there. -/
def Supplied (g : Fragment) (i : InstrId) : Prop :=
  ∀ n v, (g.instr i).arg n = some v → v.index < g.values.size

/-- The allocator puts instructions in, and changes arguments. -/
structure Reworks (o : Offsets) (b : BlockId) (cs : List (UInt32 × UInt32)) (l : List InstrId)
    (s s' : State) : Prop where
  bears : ∃ l', Bears o b cs l' s' ∧ l ⊆ l'
  widens : Widens s.fragment s'.fragment
  supplied : ∀ i : InstrId, i.index < s.fragment.instrs.size → Supplied s.fragment i →
    Supplied s'.fragment i

theorem Bears.reworks (h : Bears o b cs l s) : Reworks o b cs l s s :=
  ⟨⟨l, h, List.Subset.refl l⟩, .refl _, fun _ _ hi => hi⟩

theorem Advances.reworks (h : Advances o b cs l s s') : Reworks o b cs l s s' := by
  refine ⟨h.bears, h.widens, fun i hi hsup n v hv => ?_⟩
  unfold Instr.arg at hv
  rw [h.args_eq i hi] at hv
  exact Nat.lt_of_lt_of_le (hsup n v hv) h.widens.values_le

theorem Reworks.trans (h : Reworks o b cs l s s')
    (h' : ∀ l', Bears o b cs l' s' → l ⊆ l' → Reworks o b cs l' s' s'') :
    Reworks o b cs l s s'' := by
  obtain ⟨⟨l', hbears, hsub⟩, hw, hsup⟩ := h
  obtain ⟨⟨l'', hbears', hsub'⟩, hw', hsup'⟩ := h' l' hbears hsub
  exact ⟨⟨l'', hbears', List.Subset.trans hsub hsub'⟩, hw.trans hw', fun i hi h =>
    hsup' i (Nat.lt_of_lt_of_le hi hw.instrs_le) (hsup i hi h)⟩

/-- A result takes the place of an argument that is not a constant, outside of accesses to slots. -/
theorem Bears.setArg {n : Slot} (h : Bears o b cs l s) (hlocal : ¬IsLocal (s.fragment.instr i).op)
    (hv : (s.fragment.instr i).arg n = some v) (hconst : s.fragment.isConstant v = false)
    (hu : Defined s.fragment j u) :
    Reworks o b cs l s { s with fragment := s.fragment.setArg i n u } := by
  have hw := widens_setArg s.fragment i n u
  have hframe := sameFrame_setArg s.fragment i n u
  have hsame : ∀ k, k ≠ i → (s.fragment.setArg i n u).instr k = s.fragment.instr k := by
    intro k hk
    rw [instr_setArg, if_neg fun hki => hk hki.1]
  refine ⟨⟨l, ⟨?_, fun t w hw' => ?_, fun t k hk => ?_⟩, List.Subset.refl l⟩,
    hw, fun k _ hk m w hw' => ?_⟩
  · refine h.laden.rereads hw (sameValues_setArg s.fragment i n u).size_eq
      (size_instrs_setArg i n u)
      hframe.locals_eq hframe.localsSize_eq (h.laden.chain.setArg i n u)
        (fun k hk m => ?_) fun k _ hop => ?_
    · unfold Rereads
      rw [arg_setArg_ite]
      split
      case isTrue hkm =>
        obtain ⟨⟨rfl, -⟩, rfl⟩ := hkm
        exact .inr ⟨v, u, j, hv, hconst, rfl, widens_defined hw hu⟩
      case isFalse => exact .inl rfl
    · rw [hsame k fun hki => hlocal (hki ▸ hop)]
  · obtain ⟨k, hk⟩ := h.value t w hw'
    exact ⟨k, widens_defined hw hk⟩
  · dsimp only
    rw [hframe.locals_eq]
    exact h.slot t k hk
  · refine Nat.lt_of_lt_of_le ?_ hw.values_le
    rw [arg_setArg_ite] at hw'
    split at hw'
    · cases hw'
      exact hu.lt
    · exact hk m w hw'

theorem Bears.refer {n : Slot} {r : Unit} (h : Bears o b cs l s)
    (hlocal : ¬IsLocal (s.fragment.instr i).op) (hv : (s.fragment.instr i).arg n = some v)
    (hconst : s.fragment.isConstant v = false) (hrun : refer i n v t s = .ok (r, s')) :
    Reworks o b cs l s s' := by
  cases hrun
  dsimp only
  cases hu : (temp s t).value with
  | none => exact h.reworks
  | some u =>
    obtain ⟨j, hj⟩ := h.value t u hu
    dsimp only
    split
    · exact h.setArg hlocal hv hconst hj
    · exact h.reworks

theorem Bears.placeArg {n : Slot} {r : Unit} (h : Bears o b cs l s) (hi : i ∈ l)
    (hlocal : ¬IsLocal (s.fragment.instr i).op) (hsup : Supplied s.fragment i)
    (hrun : placeArg regs i n s = .ok (r, s')) : Reworks o b cs l s s' := by
  have hilt := h.laden.chain.lt i hi
  rw [Allocation.placeArg, bind_get] at hrun
  cases hv : (s.fragment.instr i).arg n with
  | none =>
    rw [hv] at hrun
    cases hrun
    exact h.reworks
  | some v =>
    rw [hv] at hrun
    dsimp only at hrun
    cases hconst : s.fragment.isConstant v with
    | true =>
      rw [hconst] at hrun
      cases hrun
      exact h.reworks
    | false =>
      rw [hconst] at hrun
      obtain ⟨_, s₁, hreload, hrun⟩ := ok_of_bind hrun
      have hadv := h.reload hi hreload
      refine hadv.reworks.trans fun l' h' _ => h'.refer ?_ ?_ ?_ hrun
      · rw [hadv.widens.op_eq i hilt]
        exact hlocal
      · -- the argument is as it was before the fill
        unfold Instr.arg at hv ⊢
        rw [hadv.args_eq i hilt]
        exact hv
      · unfold isConstant Value.isConstant at hconst ⊢
        rw [hadv.widens.origin_eq v (hsup n v hv)]
        exact hconst

/-- An instruction that was there before allocation. -/
structure Original (g : Fragment) (i : InstrId) : Prop where
  lt : i.index < g.instrs.size
  distant : ¬IsLocal (g.instr i).op
  supplied : Supplied g i

theorem Original.reworks (h : Original s.fragment i) (hr : Reworks o b cs l s s') :
    Original s'.fragment i where
  lt := Nat.lt_of_lt_of_le h.lt hr.widens.instrs_le
  distant := by
    rw [hr.widens.op_eq i h.lt]
    exact h.distant
  supplied := hr.supplied i h.lt h.supplied

/-- Visits of original instructions, one after the other. -/
theorem Bears.forM {α : Type} (subject : α → InstrId) {visit : α → Alloc Unit}
    (hvisit : ∀ a l s r s', Bears o b cs l s → subject a ∈ l → Original s.fragment (subject a) →
      visit a s = .ok (r, s') → Reworks o b cs l s s')
    {as : List α} {r : Unit} (h : Bears o b cs l s)
    (has : ∀ a ∈ as, subject a ∈ l ∧ Original s.fragment (subject a))
    (hrun : as.forM visit s = .ok (r, s')) : Reworks o b cs l s s' := by
  induction as generalizing s l with
  | nil =>
    cases hrun
    exact h.reworks
  | cons a as ih =>
    obtain ⟨_, s₁, hrun₁, hrun⟩ :=
      ok_of_bind (show (visit a >>= fun _ => as.forM visit) s = _ from hrun)
    obtain ⟨hmem, horig⟩ := has a List.mem_cons_self
    have hstep := hvisit a l s _ s₁ h hmem horig hrun₁
    refine hstep.trans fun l' h' hsub => ih h' (fun c hc => ?_) hrun
    obtain ⟨hmem, horig⟩ := has c (List.mem_cons_of_mem a hc)
    exact ⟨hsub hmem, horig.reworks hstep⟩

theorem Bears.visitInstr {r : Unit} (h : Bears o b cs l s) (hi : i ∈ l)
    (horig : Original s.fragment i)
    (hrun : visitInstr regs i s = .ok (r, s')) : Reworks o b cs l s s' := by
  rw [Allocation.visitInstr, bind_modify] at hrun
  have hexpire := (Bears.expire h (position s i)).reworks
  refine hexpire.trans fun l₁ h₁ hsub₁ => ?_
  obtain ⟨_, s₂, hargs, hrun⟩ := ok_of_bind hrun
  have hplace := Bears.forM (fun _ => i)
    (fun n l s r s' h hi horig hrun => h.placeArg hi horig.distant horig.supplied hrun) h₁
    (fun _ _ => ⟨hsub₁ hi, horig.reworks hexpire⟩) hargs
  refine hplace.trans fun l₂ h₂ hsub₂ => ?_
  rw [bind_get] at hrun
  cases hv : (s₂.fragment.instr i).result with
  | none =>
    rw [hv] at hrun
    cases hrun
    exact h₂.reworks
  | some v =>
    rw [hv] at hrun
    exact (h₂.allocate (hsub₂ (hsub₁ hi)) hv hrun).reworks

/-! ### The pass -/

/-- The recorded state: the fragment is that of the start, and no temporary has a place yet. The
arguments of the recorded instructions are there. -/
structure Noted (g : Fragment) (l : List InstrId) (s : State) : Prop where
  fragment_eq : s.fragment = g
  fresh : ∀ t, (temp s t).value = none ∧ (temp s t).slot = none
  tempOf_lt : ∀ (v : ValueId) t, s.tempOf[v]? = some t → v.index < g.values.size
  supplied : ∀ i ∈ l, Supplied g i

theorem Noted.recordArg {op : Opcode} {pos : Int} (h : Noted g l s)
    (hrun : recordArg op pos s v = .ok s') : Noted g l s' ∧ v.index < g.values.size := by
  unfold Allocation.recordArg at hrun
  split at hrun
  case isTrue hconst =>
    cases hrun
    refine ⟨h, ?_⟩
    by_contra hlt
    rw [h.fragment_eq, isConstant, value_eq_default (by omega)] at hconst
    cases hconst
  case isFalse =>
    split at hrun
    case h_1 t ht =>
      cases hrun
      refine ⟨⟨h.fragment_eq, fun u => ?_, h.tempOf_lt, h.supplied⟩, h.tempOf_lt v t ht⟩
      unfold addUse
      rw [temp_modifyTemp]
      split <;> exact h.fresh u
    case h_2 => cases hrun

theorem Noted.recordArgs {op : Opcode} {pos : Int} {args : List (Slot × ValueId)} (h : Noted g l s)
    (hrun : args.foldlM (fun s a => Allocation.recordArg op pos s a.2) s = .ok s') :
    Noted g l s' ∧ ∀ a ∈ args, a.2.index < g.values.size := by
  induction args generalizing s with
  | nil =>
    cases hrun
    exact ⟨h, nofun⟩
  | cons a args ih =>
    rw [List.foldlM_cons] at hrun
    obtain ⟨s₁, hs₁, hrun⟩ := Interp.bind_eq_ok hrun
    obtain ⟨h₁, ha⟩ := h.recordArg hs₁
    obtain ⟨h', hargs⟩ := ih h₁ hrun
    exact ⟨h', List.forall_mem_cons.mpr ⟨ha, hargs⟩⟩

theorem Noted.recordResult {pos : Int} {r : Option ValueId} (h : Noted g l s)
    (hr : ∀ v : ValueId, r = some v → v.index < g.values.size) :
    Noted g l (recordResult pos s r) := by
  cases r with
  | none => exact h
  | some v =>
    refine ⟨h.fragment_eq, fun t => ?_, fun u t hu => ?_, h.supplied⟩
    · change ((s.bins.temps.push _).getD t default).value = none ∧
        ((s.bins.temps.push _).getD t default).slot = none
      rcases Nat.lt_trichotomy t s.bins.temps.size with hlt | rfl | hlt
      · rw [getD_push_lt _ _ _ hlt]
        exact h.fresh t
      · rw [getD_push_self]
        exact ⟨rfl, rfl⟩
      · rw [Array.getD_eq_getD_getElem?, Array.getElem?_eq_none (by rw [Array.size_push]; omega)]
        exact ⟨rfl, rfl⟩
    · change (s.tempOf.insert v s.bins.temps.size)[u]? = some t at hu
      rw [Std.HashMap.getElem?_insert] at hu
      split at hu
      next hv =>
        rw [← beq_iff_eq.mp hv]
        exact hr v rfl
      next => exact h.tempOf_lt u t hu

theorem Noted.record (h : Noted g l s) (hresult : ∀ v, (g.instr i).result = some v → Defined g i v)
    (hrun : record s i = .ok s') : Noted g (i :: l) s' := by
  unfold Allocation.record at hrun
  dsimp only at hrun
  have h₁ : Noted g l (Allocation.recordResult (position s i) s (s.fragment.instr i).result) :=
    h.recordResult fun v hv => (hresult v (h.fragment_eq ▸ hv)).lt
  obtain ⟨h', hargs⟩ := h₁.recordArgs hrun
  refine ⟨h'.fragment_eq, h'.fresh, h'.tempOf_lt,
    List.forall_mem_cons.mpr ⟨fun n v hv => ?_, h'.supplied⟩⟩
  rw [h.fragment_eq] at hargs
  exact hargs (n, v) (Instr.mem_operands.mpr hv)

theorem noted_recordAll {is : List InstrId} (h : Noted g l s)
    (hresult : ∀ i v, (g.instr i).result = some v → Defined g i v)
    (hrun : is.foldlM record s = .ok s') : ∃ l', Noted g l' s' ∧ l ⊆ l' ∧ is ⊆ l' := by
  induction is generalizing s l with
  | nil =>
    cases hrun
    exact ⟨l, h, List.Subset.refl l, List.nil_subset l⟩
  | cons i is ih =>
    rw [List.foldlM_cons] at hrun
    obtain ⟨s₁, hs₁, hrun⟩ := Interp.bind_eq_ok hrun
    obtain ⟨l', h', hsub, his⟩ := ih (h.record (hresult i) hs₁) hrun
    exact ⟨l', h', fun j hj => hsub (List.mem_cons_of_mem i hj),
      List.cons_subset.mpr ⟨hsub List.mem_cons_self, his⟩⟩

theorem laden_of_tolled (h : Tolled o g b l cs) : Laden o g b l cs where
  order_eq := h.order_eq
  chain := h.chain
  toll := h.toll
  isInt := h.tidy.isInt
  result := h.tidy.result
  localsSize_nonneg := Int.le_of_eq h.tidy.localsSize_eq.symm
  localsSize_le := by
    rw [h.tidy.localsSize_eq]
    decide
  slot k hk := by
    rw [h.tidy.locals_eq] at hk
    exact absurd hk (Nat.not_lt_zero _)

/-- Allocation keeps the toll of a tidy fragment. -/
theorem laden_run {out : Outcome} (h : Tolled o g b l cs) (hrun : run g regs = .ok out) :
    ∃ l', Laden o out.fragment b l' cs := by
  have hedges : ∀ c ∈ (g.block b).edges, c ∈ [b] := by
    rw [h.tidy.edges b]
    exact nofun
  unfold run at hrun
  rw [visits_of_edges h.chain.block_lt h.order_eq hedges] at hrun
  simp only [List.map_cons, List.map_nil, List.flatMap_cons, List.flatMap_nil, List.append_nil,
    h.chain.blockInstrs_eq] at hrun
  obtain ⟨s₁, hrecord, hrun⟩ := Interp.bind_eq_ok hrun
  obtain ⟨⟨_, s₂⟩, hvisits, hrun⟩ := Interp.bind_eq_ok hrun
  cases hrun
  obtain ⟨l₁, hnoted, -, hl₁⟩ :=
    noted_recordAll (l := []) ⟨rfl, fun _ => ⟨rfl, rfl⟩, by simp, nofun⟩
    h.tidy.result hrecord
  have hbears : Bears o b cs l s₁ := by
    refine ⟨hnoted.fragment_eq ▸ laden_of_tolled h, fun t v hv => ?_, fun t k hk => ?_⟩
    · rw [(hnoted.fresh t).1] at hv
      cases hv
    · rw [(hnoted.fresh t).2] at hk
      cases hk
  obtain ⟨_, s₃, hblock, hvisits⟩ := ok_of_bind hvisits
  cases hvisits
  rw [visitBlock, bind_modify, bind_get] at hblock
  obtain ⟨_, s₄, hinstrs, hblock⟩ := ok_of_bind hblock
  cases hblock
  have hcode : s₁.fragment.blockInstrs b = l := by
    rw [hnoted.fragment_eq]
    exact h.chain.blockInstrs_eq
  change (s₁.fragment.blockInstrs b).forM (visitInstr regs) s₁ = _ at hinstrs
  rw [hcode] at hinstrs
  have horig : ∀ i ∈ l, i ∈ l ∧ Original s₁.fragment i := by
    intro i hi
    rw [hnoted.fragment_eq]
    exact ⟨hi, h.chain.lt i hi, h.tidy.distant i, hnoted.supplied i (hl₁ hi)⟩
  obtain ⟨⟨l', hlast, -⟩, -, -⟩ := Bears.forM id
    (fun i l s r s' h hi horig hrun => h.visitInstr hi horig hrun) hbears horig hinstrs
  exact ⟨l', hlast.laden⟩

end Recompiler.Pass.Allocation
