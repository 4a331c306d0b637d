import Recompiler.Proofs.IR.Linked
import Recompiler.Proofs.IR.Metering

/-!
Code that pays a toll: it charges what a list says, then it leaves, and nothing in it can fail but
the routines of the guest. What passes do to a fragment one change at a time keeps that, and the
list with it.
-/
namespace Recompiler.Meaning

open IR Fragment Interp

variable {o : Offsets} {f f' : Fragment} {b : BlockId} {i j : InstrId} {l l₁ l₂ : List InstrId}
  {cs : List (UInt32 × UInt32)}

/-! ### Code with a toll -/

/-- The position of its target among the arguments of a branch. -/
def targetSlot? : Opcode → Option Slot
  | .branch => some 0
  | .branchTrue | .branchFalse => some 1
  | _ => none

theorem target?_eq_some {ins : Instr} {v : ValueId} : Exit.target? ins = some v ↔
    ∃ n, targetSlot? ins.op = some n ∧ ins.arg n = some v := by
  rw [← Option.bind_eq_some_iff]
  unfold Exit.target? targetSlot?
  cases ins.op <;> simp

/-- The branch leaves the fragment for a word. -/
structure Departs (f : Fragment) (i : InstrId) : Prop where
  branch : (f.instr i).op.isBranch = true
  target : ∃ v, Exit.target? (f.instr i) = some v ∧ v.index < f.values.size ∧
    ∀ c, (f.value v).origin = .constant c → c.ty = .i32

/-- Access to the local area. -/
def IsLocal (op : Opcode) : Prop := op = .loadLocal ∨ op = .storeLocal

instance (op : Opcode) : Decidable (IsLocal op) := inferInstanceAs (Decidable (_ ∨ _))

/-- The instruction refers to bytes of the local area. -/
structure Near (f : Fragment) (i : InstrId) : Prop where
  within : Within f i
  offset : ∃ x, HasWord f i 0 x ∧ x.toNat + (opTy f (f.instr i)).bytes ≤ f.localsSize.toNat

/-- The instruction is idle, and what it accesses of the local area is there. -/
structure Calm (o : Offsets) (f : Fragment) (i : InstrId) : Prop extends Idle o f i where
  near : IsLocal (f.instr i).op → Near f i

/-- Code that charges the list before its first branch, and ends with a branch that is always
taken. -/
inductive Toll (o : Offsets) (f : Fragment) : List InstrId → List (UInt32 × UInt32) → Prop
  | last {i : InstrId} (h : Departs f i) (hop : (f.instr i).op = .branch) : Toll o f [i] []
  | exit {i : InstrId} {l : List InstrId} (h : Departs f i) (rest : Toll o f l []) :
      Toll o f (i :: l) []
  | calm {i : InstrId} {l : List InstrId} {cs : List (UInt32 × UInt32)} (h : Calm o f i)
      (rest : Toll o f l cs) : Toll o f (i :: l) cs
  | charge {i : InstrId} {l : List InstrId} {cs : List (UInt32 × UInt32)} {addr cycles : UInt32}
      (h : Charges f i addr cycles) (rest : Toll o f l cs) :
        Toll o f (i :: l) ((addr, cycles) :: cs)

theorem Departs.lt (h : Departs f i) : i.index < f.instrs.size := by
  obtain ⟨v, hv, -⟩ := h.target
  obtain ⟨n, hn⟩ := target?_mem hv
  exact lt_of_arg hn

theorem Departs.op_ne (h : Departs f i) : (f.instr i).op ≠ .sourceInfo := by
  intro hop
  have hbranch := h.branch
  rw [hop] at hbranch
  cases hbranch

theorem Toll.mem (h : Toll o f l cs) (hi : i ∈ l) :
    Calm o f i ∨ (∃ addr cycles, Charges f i addr cycles) ∨ Departs f i := by
  induction h with
  | last h =>
    cases List.mem_singleton.mp hi
    exact .inr (.inr h)
  | exit h _ ih =>
    obtain rfl | hi := List.mem_cons.mp hi
    · exact .inr (.inr h)
    · exact ih hi
  | calm h _ ih =>
    obtain rfl | hi := List.mem_cons.mp hi
    · exact .inl h
    · exact ih hi
  | charge h _ ih =>
    obtain rfl | hi := List.mem_cons.mp hi
    · exact .inr (.inl ⟨_, _, h⟩)
    · exact ih hi

/-- The charges in the code are those of the list. -/
theorem Toll.charges_eq (h : Toll o f l cs) :
    (l.filter fun i => (f.instr i).op = .sourceInfo).map (charge? f) = cs.map some := by
  induction h with
  | last h => simp [h.op_ne]
  | exit h _ ih => rw [List.filter_cons_of_neg (by simpa using h.op_ne), ih]
  | calm h _ ih => rw [List.filter_cons_of_neg (by simpa using h.op_ne), ih]
  | charge h _ ih =>
    rw [List.filter_cons_of_pos (by simpa using h.op_eq), List.map_cons, List.map_cons,
      ih, h.charge?_eq]

/-- What does not charge can be taken out, unless it branches. -/
theorem Toll.erase (h : Toll o f (l₁ ++ i :: l₂) cs) (hop : (f.instr i).op ≠ .sourceInfo)
    (hbranch : (f.instr i).op.isBranch = false) : Toll o f (l₁ ++ l₂) cs := by
  have hdeparts : ¬Departs f i := by
    intro hi
    rw [hi.branch] at hbranch
    cases hbranch
  induction l₁ generalizing cs with
  | nil =>
    cases h with
    | last h => exact absurd h hdeparts
    | exit h => exact absurd h hdeparts
    | calm _ rest => exact rest
    | charge h => exact absurd h.op_eq hop
  | cons k l₁ ih =>
    rw [List.cons_append] at h ⊢
    generalize hl : l₁ ++ i :: l₂ = l at h
    cases h with
    | last => simp at hl
    | exit h rest => exact .exit h (ih (hl ▸ rest))
    | calm h rest => exact .calm h (ih (hl ▸ rest))
    | charge h rest => exact .charge h (ih (hl ▸ rest))

/-- Something calm can be put in, except behind the end. -/
theorem Toll.insert (h : Toll o f (l₁ ++ l₂) cs) (hl₂ : l₂ ≠ []) (hi : Calm o f i) :
    Toll o f (l₁ ++ i :: l₂) cs := by
  induction l₁ generalizing cs with
  | nil => exact .calm hi h
  | cons k l₁ ih =>
    rw [List.cons_append] at h ⊢
    generalize hl : l₁ ++ l₂ = l at h
    cases h with
    | last =>
      rw [List.append_eq_nil_iff] at hl
      exact absurd hl.2 hl₂
    | exit h rest => exact .exit h (ih (hl ▸ rest))
    | calm h rest => exact .calm h (ih (hl ▸ rest))
    | charge h rest => exact .charge h (ih (hl ▸ rest))

/-! ### Changes that keep the toll -/

/-- What a change keeps of an instruction: its operation, its constant words, where it leaves to and
what it accesses of the local area. -/
structure Retains (f f' : Fragment) (i : InstrId) : Prop where
  lt : i.index < f'.instrs.size
  op_eq : (f'.instr i).op = (f.instr i).op
  word : ∀ k x, HasWord f i k x → HasWord f' i k x
  departs : Departs f i → Departs f' i
  near : IsLocal (f.instr i).op → Near f i → Near f' i

theorem Retains.idle (h : Retains f f' i) (hi : Idle o f i) : Idle o f' i where
  lt := h.lt
  op_ne := by
    rw [h.op_eq]
    exact hi.op_ne
  straight := by
    rw [h.op_eq]
    exact hi.straight
  clear hop := by
    rw [h.op_eq] at hop
    obtain ⟨x, hx, hclear⟩ := hi.clear hop
    exact ⟨x, h.word 0 x hx, hclear⟩

theorem Retains.calm (h : Retains f f' i) (hi : Calm o f i) : Calm o f' i where
  toIdle := h.idle hi.toIdle
  near hop := by
    rw [h.op_eq] at hop
    exact h.near hop (hi.near hop)

theorem Retains.charges {addr cycles : UInt32} (h : Retains f f' i) (hi : Charges f i addr cycles) :
    Charges f' i addr cycles where
  lt := h.lt
  op_eq := h.op_eq.trans hi.op_eq
  addr_eq := h.word 0 addr hi.addr_eq
  cycles_eq := h.word 1 cycles hi.cycles_eq

theorem Toll.retains (h : Toll o f l cs) (hl : ∀ i ∈ l, Retains f f' i) : Toll o f' l cs := by
  induction h with
  | last h hop =>
    have hi := hl _ List.mem_cons_self
    exact .last (hi.departs h) (hi.op_eq.trans hop)
  | exit h _ ih =>
    obtain ⟨hi, hl⟩ := List.forall_mem_cons.mp hl
    exact .exit (hi.departs h) (ih hl)
  | calm h _ ih =>
    obtain ⟨hi, hl⟩ := List.forall_mem_cons.mp hl
    exact .calm (hi.calm h) (ih hl)
  | charge h _ ih =>
    obtain ⟨hi, hl⟩ := List.forall_mem_cons.mp hl
    exact .charge (hi.charges h) (ih hl)

theorem Departs.grows (h : Departs f i) (hf : Grows f f') : Departs f' i where
  branch := by
    rw [hf.op_eq i h.lt]
    exact h.branch
  target := by
    obtain ⟨v, hv, hlt, hconst⟩ := h.target
    refine ⟨v, ?_, Nat.lt_of_lt_of_le hlt hf.values_le, fun c hc => hconst c ?_⟩
    · unfold Exit.target? Instr.arg at hv ⊢
      rw [hf.op_eq i h.lt, hf.args_eq i h.lt]
      exact hv
    · rw [← hf.origin_eq v hlt]
      exact hc

theorem retains_of_grows (hf : Grows f f') (hlocals : f.localsSize ≤ f'.localsSize)
    (hi : i.index < f.instrs.size) : Retains f f' i where
  lt := Nat.lt_of_lt_of_le hi hf.instrs_le
  op_eq := hf.op_eq i hi
  word _ _ h := h.grows hi hf
  departs h := h.grows hf
  near _ h := by
    obtain ⟨x, hx, hle⟩ := h.offset
    refine ⟨h.within.grows hf, x, hx.grows hi hf, ?_⟩
    rw [opTy_grows hf h.within]
    omega

theorem Calm.grows (h : Calm o f i) (hf : Grows f f') (hlocals : f.localsSize ≤ f'.localsSize) :
    Calm o f' i := (retains_of_grows hf hlocals h.lt).calm h

theorem Toll.lt (h : Toll o f l cs) (hi : i ∈ l) : i.index < f.instrs.size := by
  obtain h | ⟨_, _, h⟩ | h := h.mem hi
  · exact h.lt
  · exact h.lt
  · exact h.lt

theorem Toll.grows (h : Toll o f l cs) (hf : Grows f f') (hlocals : f.localsSize ≤ f'.localsSize) :
    Toll o f' l cs := h.retains fun _ hi => retains_of_grows hf hlocals (h.lt hi)

/-! ### Fragments before allocation -/

/-- The uses that values list are there. -/
def Cited (f : Fragment) : Prop :=
  ∀ (v : ValueId) (u : Use), u ∈ (f.value v).uses → (f.instr u.instr).arg u.slot = some v

/-- The value is there, and the instruction defines it. -/
structure Defined (f : Fragment) (i : InstrId) (v : ValueId) : Prop where
  lt : v.index < f.values.size
  origin_eq : (f.value v).origin = .result i

theorem Defined.grows {v : ValueId} (h : Defined f i v) (hf : Grows f f') : Defined f' i v :=
  ⟨Nat.lt_of_lt_of_le h.lt hf.values_le, (hf.origin_eq v h.lt).trans h.origin_eq⟩

/-- All values are integers, branches go to words, instructions define their results, and neither
edges nor the local area are used. -/
structure Tidy (f : Fragment) : Prop where
  cited : Cited f
  constant_ty : ∀ v c, (f.value v).origin = .constant c → f.ty v = c.ty
  isInt : ∀ v, (f.ty v).isInt = true
  result : ∀ i v, (f.instr i).result = some v → Defined f i v
  target : ∀ i v, Exit.target? (f.instr i) = some v → f.ty v = .i32
  distant : ∀ i, ¬IsLocal (f.instr i).op
  edges : ∀ b, (f.block b).edges = []
  locals_eq : f.locals = #[]
  localsSize_eq : f.localsSize = 0

/-- A value of a type other than that of missing ones is there. -/
theorem lt_of_ty {v : ValueId} (h : f.ty v = .i32) : v.index < f.values.size := by
  by_contra hlt
  unfold Fragment.ty at h
  rw [value_eq_default (by omega)] at h
  cases h

/-- The branches of a tidy fragment leave for words. -/
theorem Tidy.departs (h : Tidy f) (hi : Leaves f i) : Departs f i where
  branch := hi.branch
  target := by
    obtain ⟨v, hv, hlt, -⟩ := hi.target
    exact ⟨v, hv, hlt, fun c hc => (h.constant_ty v c hc).symm.trans (h.target i v hv)⟩

theorem Tidy.calm (h : Tidy f) (hi : Idle o f i) : Calm o f i :=
  ⟨hi, fun hop => absurd hop (h.distant i)⟩

/-- Metered code with its exits in a tidy fragment has a toll. -/
theorem Tidy.toll (h : Tidy f) (hl₁ : Metered o f l₁ cs) (hl₂ : Exits o f l₂) (hi : Leaves f i)
    (hop : (f.instr i).op = .branch) : Toll o f (l₁ ++ (l₂ ++ [i])) cs := by
  have hexits : Toll o f (l₂ ++ [i]) [] := by
    induction l₂ with
    | nil => exact .last (h.departs hi) hop
    | cons j l₂ ih =>
      obtain ⟨hj, hl₂⟩ := List.forall_mem_cons.mp hl₂
      obtain hj | hj := hj
      · exact .calm (h.calm hj) (ih hl₂)
      · exact .exit (h.departs hj) (ih hl₂)
  induction hl₁ with
  | nil => exact hexits
  | idle hj _ ih => exact .calm (h.calm hj) ih
  | charge hj _ ih => exact .charge hj ih

/-- A tidy fragment with the only block `b`, whose instructions are those of the list and charge the
other one. -/
structure Tolled (o : Offsets) (f : Fragment) (b : BlockId) (l : List InstrId)
    (cs : List (UInt32 × UInt32)) : Prop where
  tidy : Tidy f
  order_eq : f.order = [b]
  chain : f.Chain b l
  toll : Toll o f l cs

/-! ### Changes in tidy fragments -/

/-- New values. -/
theorem Tidy.addValue (h : Tidy f) {val : Value} (huses : val.uses = [])
    (hconst : ∀ c, val.origin = .constant c → val.ty = c.ty) (hty : val.ty.isInt = true) :
    Tidy (f.addValue val).1 := by
  have hgrows : Grows f (f.addValue val).1 := grows_addValue f val
  refine ⟨fun v u hu => ?_, fun v c hc => ?_, fun v => ?_, fun i v hv => ?_, fun i v hv => ?_,
    h.distant, h.edges, h.locals_eq, h.localsSize_eq⟩
  · rw [uses_addValue huses] at hu
    exact h.cited v u hu
  · unfold Fragment.ty
    rw [value_addValue] at hc ⊢
    split
    case isTrue hv =>
      rw [if_pos hv] at hc
      exact hconst c hc
    case isFalse hv =>
      rw [if_neg hv] at hc
      exact h.constant_ty v c hc
  · unfold Fragment.ty
    rw [value_addValue]
    split
    · exact hty
    · exact h.isInt v
  · exact (h.result i v hv).grows hgrows
  · have hty := h.target i v hv
    exact (hgrows.ty_eq v (lt_of_ty hty)).trans hty

theorem Tidy.addConstant (h : Tidy f) {c : Constant} (hc : c.ty.isInt = true) :
    Tidy (f.addConstant c).1 :=
  h.addValue rfl (fun _ hc => congrArg Constant.ty (Origin.constant.inj hc)) hc

/-- What keeps values and instructions, up to uses and arguments. -/
theorem Tidy.sameValues (h : Tidy f) (hvalues : SameValues f f')
    (hop : ∀ i, (f'.instr i).op = (f.instr i).op)
    (hresult : ∀ i, (f'.instr i).result = (f.instr i).result)
    (hedges : ∀ b, (f'.block b).edges = (f.block b).edges) (hlocals : f'.locals = f.locals)
    (hsize : f'.localsSize = f.localsSize) (hcited : Cited f')
    (htarget : ∀ i v, Exit.target? (f'.instr i) = some v → f.ty v = .i32) : Tidy f' where
  cited := hcited
  constant_ty v c hc := by
    rw [hvalues.origin_eq] at hc
    exact (hvalues.ty_eq v).trans (h.constant_ty v c hc)
  isInt v := by
    unfold Fragment.ty
    rw [hvalues.ty_eq]
    exact h.isInt v
  result i v hv := by
    rw [hresult] at hv
    obtain ⟨hlt, horigin⟩ := h.result i v hv
    exact ⟨by rwa [hvalues.size_eq], (hvalues.origin_eq v).trans horigin⟩
  target i v hv := (hvalues.ty_eq v).trans (htarget i v hv)
  distant i := by
    rw [hop]
    exact h.distant i
  edges b := (hedges b).trans (h.edges b)
  locals_eq := hlocals.trans h.locals_eq
  localsSize_eq := hsize.trans h.localsSize_eq

/-- A constant word as an argument, where only the uses of values differ. -/
theorem HasWord.same {k : Slot} {x : UInt32} (h : HasWord f i k x) (hvalues : SameValues f f')
    (harg : ∀ v, (f.instr i).arg k = some v → (f.value v).origin = .constant (.i32 x) →
      (f'.instr i).arg k = some v) : HasWord f' i k x := by
  obtain ⟨v, hv, hlt, horigin⟩ := h
  exact ⟨v, harg v hv horigin, by rwa [hvalues.size_eq], (hvalues.origin_eq v).trans horigin⟩

/-! ### Arguments and their uses -/

theorem arg_setArg_ite (i : InstrId) (n : Slot) (v : ValueId) (j : InstrId) (k : Slot) :
    ((f.setArg i n v).instr j).arg k =
      if (j = i ∧ j.index < f.instrs.size) ∧ k = n then some v else (f.instr j).arg k := by
  rw [instr_setArg]
  by_cases hj : j = i ∧ j.index < f.instrs.size
  · rw [if_pos hj, Instr.arg, Slot.get_put, hj.1]
    by_cases hk : k = n
    · rw [if_pos hk, if_pos ⟨⟨rfl, hj.1 ▸ hj.2⟩, hk⟩]
    · rw [if_neg hk, if_neg fun h => hk h.2]
      rfl
  · rw [if_neg hj, if_neg fun h => hj h.1]

theorem lt_of_use {v : ValueId} {u : Use} (h : u ∈ (f.value v).uses) : v.index < f.values.size := by
  by_contra hlt
  rw [value_eq_default (by omega)] at h
  cases h

theorem Cited.clearArg (h : Cited f) (i : InstrId) (n : Slot) : Cited (f.clearArg i n) := by
  intro v u hu
  rw [arg_clearArg]
  have hold : u ∈ (f.value v).uses ∧ ((f.instr i).arg n = some v → u ≠ ⟨i, n⟩) := by
    unfold Fragment.clearArg at hu
    split at hu
    case h_1 w hw =>
      rw [value_modifyValue, value_modifyInstr] at hu
      split at hu
      case isTrue hv =>
        rw [List.mem_filter] at hu
        exact ⟨hu.1, fun _ => by simpa using hu.2⟩
      case isFalse hv =>
        refine ⟨hu, fun hv' => absurd ⟨Option.some.inj (hv'.symm.trans hw), ?_⟩ hv⟩
        exact lt_of_use hu
    case h_2 hnone => exact ⟨hu, fun hv => by rw [hnone] at hv; cases hv⟩
  have harg := h v u hold.1
  rw [if_neg, harg]
  rintro ⟨hi, hn⟩
  rw [hi, hn] at harg
  exact hold.2 harg (by rw [← hi, ← hn])

theorem Cited.setArg (h : Cited f) (hi : i.index < f.instrs.size) (n : Slot) (v : ValueId) :
    Cited (f.setArg i n v) := by
  intro w u hu
  rw [arg_setArg_ite]
  have hcases : (u ∈ ((f.clearArg i n).value w).uses) ∨ (w = v ∧ u = ⟨i, n⟩) := by
    unfold Fragment.setArg at hu
    rw [value_modifyValue, value_modifyInstr] at hu
    split at hu
    case isTrue hw =>
      obtain hu | hu := List.mem_append.mp hu
      · exact .inl hu
      · exact .inr ⟨hw.1, List.mem_singleton.mp hu⟩
    case isFalse => exact .inl hu
  obtain hu | ⟨rfl, rfl⟩ := hcases
  · have harg := h.clearArg i n w u hu
    rw [arg_clearArg] at harg
    split at harg
    case isTrue => cases harg
    case isFalse hne =>
      rw [if_neg fun hu => hne ⟨hu.1.1, hu.2⟩]
      exact harg
  · rw [if_pos ⟨⟨rfl, hi⟩, rfl⟩]

theorem Cited.clearArgs (h : Cited f) (i : InstrId) : Cited (f.clearArgs i) := by
  rw [clearArgs_eq]
  exact ((h.clearArg i 0).clearArg i 1).clearArg i 2

/-- The second fragment is the first one with `v` for `a` in some arguments. -/
structure Swaps (f f' : Fragment) (a v : ValueId) : Prop where
  values : SameValues f f'
  frame : SameFrame f f'
  size_instrs : f'.instrs.size = f.instrs.size
  instr : ∀ j, SameButArgs (f.instr j) (f'.instr j)
  arg : ∀ j n, (f'.instr j).arg n = (f.instr j).arg n ∨
    (f.instr j).arg n = some a ∧ (f'.instr j).arg n = some v
  cited : Cited f'

/-- Wherever uses are redirected, they were those of the value that is replaced. -/
theorem Cited.swaps (h : Cited f) {a v : ValueId} (hreplace : f.replaceUses a v = .ok f') :
    Swaps f f' a v ∧ f.ty a = f.ty v := by
  unfold replaceUses at hreplace
  split at hreplace
  · cases hreplace
  split at hreplace
  · cases hreplace
  next hne hty =>
  refine ⟨?_, not_not.mp hty⟩
  cases hreplace
  have hcleared : SameValues f (f.modifyValue a ({ · with uses := [] })) :=
    sameValues_modifyUses a (fun _ => []) rfl
  have hframe : SameFrame f (f.modifyValue a ({ · with uses := [] })) := ⟨rfl, rfl, rfl, rfl, rfl⟩
  have hr := redirects_foldl (f.value a).uses v (f.modifyValue a ({ · with uses := [] }))
  generalize (f.value a).uses.foldl (fun f u => f.redirect u v)
    (f.modifyValue a ({ · with uses := [] })) = f' at hr
  have harg : ∀ (j : InstrId) (n : Slot), (⟨j, n⟩ : Use) ∉ (f.value a).uses →
      (f'.instr j).arg n = (f.instr j).arg n := by
    intro j n hu
    rw [hr.arg_eq, if_neg fun h => hu h.1]
    rfl
  have hto : ∀ (j : InstrId) (n : Slot), (⟨j, n⟩ : Use) ∈ (f.value a).uses →
      (f'.instr j).arg n = some v := by
    intro j n hu
    rw [hr.arg_eq, if_pos ⟨hu, lt_of_arg (h a _ hu)⟩]
  refine ⟨hcleared.trans hr.values, hframe.trans hr.frame, hr.size_instrs, hr.instr, ?_, ?_⟩
  · intro j n
    by_cases hu : (⟨j, n⟩ : Use) ∈ (f.value a).uses
    · exact .inr ⟨h a _ hu, hto j n hu⟩
    · exact .inl (harg j n hu)
  · intro w u hu
    have hold : u ∈ ((f.modifyValue a ({ · with uses := [] })).value w).uses →
        w ≠ a ∧ u ∈ (f.value w).uses := by
      rw [value_modifyValue]
      split
      case isTrue => nofun
      case isFalse hwa => exact fun hu => ⟨fun hw => hwa ⟨hw, lt_of_use hu⟩, hu⟩
    have hmem : u ∈ (f.value a).uses ∧ w = v ∨ w ≠ a ∧ u ∈ (f.value w).uses := by
      rw [hr.uses_eq] at hu
      split at hu
      case isTrue hw =>
        obtain hu | hu := List.mem_append.mp hu
        · exact .inr (hold hu)
        · exact .inl ⟨hu, hw.1⟩
      case isFalse => exact .inr (hold hu)
    clear hu
    obtain ⟨hu, rfl⟩ | ⟨hwa, hu⟩ := hmem
    · exact hto u.instr u.slot hu
    · rw [harg u.instr u.slot, h w u hu]
      intro hu'
      exact hwa (Option.some.inj ((h w u hu).symm.trans (h a u hu')))

/-! ### Changes that keep the charges -/

theorem Tidy.departs_of_target (h : Tidy f) (hbranch : (f.instr i).op.isBranch = true) {v : ValueId}
    (hv : Exit.target? (f.instr i) = some v) : Departs f i := by
  have hty := h.target i v hv
  exact ⟨hbranch, v, hv, lt_of_ty hty, fun c hc => (h.constant_ty v c hc).symm.trans hty⟩

theorem Tolled.addConstant (h : Tolled o f b l cs) {c : Constant} (hc : c.ty.isInt = true) :
    Tolled o (f.addConstant c).1 b l cs where
  tidy := h.tidy.addConstant hc
  order_eq := h.order_eq
  chain := h.chain.sameButArgs rfl rfl fun _ => .refl _
  toll := h.toll.grows (grows_addValue f _) (Int.le_refl _)

/-- Where an argument is swapped, the branch still has a target. -/
theorem Swaps.target {a v w : ValueId} (h : Swaps f f' a v)
    (hw : Exit.target? (f'.instr i) = some w) :
    Exit.target? (f.instr i) = some w ∨ Exit.target? (f.instr i) = some a ∧ w = v := by
  rw [target?_eq_some, (h.instr i).op_eq] at hw
  obtain ⟨n, hn, hw⟩ := hw
  obtain harg | ⟨harg, hv⟩ := h.arg i n
  · exact .inl (target?_eq_some.mpr ⟨n, hn, harg.symm.trans hw⟩)
  · exact .inr ⟨target?_eq_some.mpr ⟨n, hn, harg⟩, Option.some.inj (hw.symm.trans hv)⟩

theorem Swaps.target_of {a v w : ValueId} (h : Swaps f f' a v)
    (hw : Exit.target? (f.instr i) = some w) :
    ∃ u, Exit.target? (f'.instr i) = some u := by
  rw [target?_eq_some, ← (h.instr i).op_eq] at hw
  obtain ⟨n, hn, hw⟩ := hw
  obtain harg | ⟨-, hv⟩ := h.arg i n
  · exact ⟨w, target?_eq_some.mpr ⟨n, hn, harg.trans hw⟩⟩
  · exact ⟨v, target?_eq_some.mpr ⟨n, hn, hv⟩⟩

/-- Results can be replaced. -/
theorem Tolled.replaceUses (h : Tolled o f b l cs) {r v : ValueId}
    (hr : (f.instr j).result = some r)
    (hreplace : f.replaceUses r v = .ok f') : Tolled o f' b l cs := by
  obtain ⟨hswaps, hty⟩ := h.tidy.cited.swaps hreplace
  have hblock : ∀ c, f'.block c = f.block c := by
    intro c
    unfold block
    rw [hswaps.frame.blocks_eq]
  have htidy : Tidy f' := by
    refine h.tidy.sameValues hswaps.values (fun i => (hswaps.instr i).op_eq)
      (fun i => (hswaps.instr i).result_eq) (fun c => by rw [hblock]) hswaps.frame.locals_eq
      hswaps.frame.localsSize_eq hswaps.cited fun i w hw => ?_
    obtain hw | ⟨hw, rfl⟩ := hswaps.target hw
    · exact h.tidy.target i w hw
    · exact hty.symm.trans (h.tidy.target i r hw)
  refine ⟨htidy, hswaps.frame.order_eq.trans h.order_eq,
    h.chain.sameButArgs hswaps.frame.blocks_eq hswaps.size_instrs hswaps.instr, ?_⟩
  refine h.toll.retains fun i hi => ⟨?_, (hswaps.instr i).op_eq, fun k x hx => ?_, fun hd => ?_,
    fun hlocal => absurd hlocal (h.tidy.distant i)⟩
  · rw [hswaps.size_instrs]
    exact h.toll.lt hi
  · refine hx.same hswaps.values fun w hw horigin => ?_
    obtain harg | ⟨harg, -⟩ := hswaps.arg i k
    · exact harg.trans hw
    · -- a constant is not the result that was replaced
      cases harg.symm.trans hw
      cases horigin.symm.trans (h.tidy.result j r hr).origin_eq
  · obtain ⟨w, hw, -⟩ := hd.target
    obtain ⟨u, hu⟩ := hswaps.target_of hw
    refine htidy.departs_of_target ?_ hu
    rw [(hswaps.instr i).op_eq]
    exact hd.branch

/-- Code loses an instruction that neither charges nor branches. -/
theorem Tolled.removeInstr (h : Tolled o f b (l₁ ++ i :: l₂) cs)
    (hop : (f.instr i).op ≠ .sourceInfo) (hbranch : (f.instr i).op.isBranch = false)
    (hremove : f.removeInstr i = .ok f') : Tolled o f' b (l₁ ++ l₂) cs := by
  have hf' : f' = (f.clearArgs i).unlink i := by
    unfold Fragment.removeInstr at hremove
    dsimp only at hremove
    split at hremove
    · cases hremove
    split at hremove
    · cases hremove
    · exact (Except.ok.inj hremove).symm
  subst hf'
  have hempty := empties_clearArgs f i
  have hcited := h.tidy.cited.clearArgs i
  have hsame := instr_unlink_same (f.clearArgs i) i
  obtain ⟨hvalues, horder, hsize, hlocals⟩ := unlink_frame (f.clearArgs i) i
  have hsameValues : SameValues f ((f.clearArgs i).unlink i) :=
    hempty.values.trans ⟨by rw [hvalues], fun v => by rw [value_unlink],
      fun v => by rw [value_unlink], fun v => by rw [value_unlink]⟩
  have hop_eq : ∀ j, (((f.clearArgs i).unlink i).instr j).op = (f.instr j).op := fun j =>
    (hsame j).1.trans (hempty.instr j).op_eq
  have htarget : ∀ j v, Exit.target? (((f.clearArgs i).unlink i).instr j) = some v →
      Exit.target? (f.instr j) = some v := by
    intro j v hv
    rw [target?_eq_some, hop_eq] at hv
    obtain ⟨n, hn, hv⟩ := hv
    rw [arg_unlink, arg_clearArgs] at hv
    split at hv
    case isTrue => cases hv
    case isFalse => exact target?_eq_some.mpr ⟨n, hn, hv⟩
  have hchain : (f.clearArgs i).Chain b (l₁ ++ i :: l₂) :=
    h.chain.sameButArgs hempty.frame.blocks_eq hempty.size_instrs hempty.instr
  have hargs : ∀ j ∈ l₁ ++ l₂, (((f.clearArgs i).unlink i).instr j).args = (f.instr j).args := by
    intro j hj
    have hji : j ≠ i := by
      rintro rfl
      have hnodup := h.chain.nodup
      rw [List.perm_middle.nodup_iff, List.nodup_cons] at hnodup
      exact hnodup.1 hj
    exact (hsame j).2.1.trans (hempty.args_eq j hji)
  have htidy : Tidy ((f.clearArgs i).unlink i) := by
    refine h.tidy.sameValues hsameValues hop_eq
      (fun j => (hsame j).2.2.trans (hempty.instr j).result_eq) (fun c => ?_)
      (hlocals.trans hempty.frame.locals_eq) (hsize.trans hempty.frame.localsSize_eq)
      (fun v u hu => ?_) fun j v hv => h.tidy.target j v (htarget j v hv)
    · have hblock : (f.clearArgs i).block c = f.block c := by
        unfold block
        rw [hempty.frame.blocks_eq]
      rw [hchain.block_unlink, hblock]
      split <;> rfl
    · rw [value_unlink] at hu
      rw [arg_unlink]
      exact hcited v u hu
  refine ⟨htidy, ?_, hchain.unlink, ?_⟩
  · exact horder.trans (hempty.frame.order_eq.trans h.order_eq)
  · refine (h.toll.erase hop hbranch).retains fun j hj =>
      ⟨?_, hop_eq j, fun k x hx => ?_, fun hd => ?_,
      fun hlocal => absurd hlocal (h.tidy.distant j)⟩
    · rw [(size_unlink _ i).1, hempty.size_instrs]
      exact h.chain.lt j (List.append_subset.mpr ⟨List.subset_append_left l₁ _,
        List.subset_append_of_subset_right l₁ (List.subset_cons_self i l₂)⟩ hj)
    · refine hx.same hsameValues fun w hw _ => ?_
      unfold Instr.arg at hw ⊢
      rw [hargs j hj]
      exact hw
    · obtain ⟨w, hw, -⟩ := hd.target
      refine htidy.departs_of_target (by rw [hop_eq]; exact hd.branch) (v := w) ?_
      unfold Exit.target? Instr.arg at hw ⊢
      rw [hop_eq, hargs j hj]
      exact hw

end Recompiler.Meaning
