import Recompiler.Proofs.Allocation.Recording
import Recompiler.Proofs.IR.Emit
import Recompiler.Proofs.IR.Meaning

/-!
The invariant of allocation. The code up to the current instruction is final: its values have
registers, and what it mentions is not changed any more. A temporary is in the bin of its current
value, in its slot, in both or, once it is not needed, in none. Run on a register file, the final
code has the value of each temporary there.
-/
namespace Recompiler.Pass.Allocation

open IR Interp Machine Meaning

/-- Integers and floats are kept in registers. -/
def IsScalar (ty : Ty) : Prop := ty.isInt ∨ ty.isFloat

/-- The value that a temporary stands for. -/
def home (f : Fragment) (b : BlockId) (t : Nat) : ValueId :=
  (results f (f.blockInstrs b)).getD t default

/-! ### Final code -/

/-- A result in a register. -/
structure InRegister (regs : Array Register) (g : Fragment) (v : ValueId) : Prop where
  lt : v.index < g.values.size
  scalar : IsScalar (g.ty v)
  reg : ∃ r, (g.value v).reg = some r ∧ r.toNat < regs.size

/-- Instruction `j` behind the final instructions `D` is final too: its arguments are constants and
results of `D`, and these and its own result are in registers. -/
structure Final (regs : Array Register) (D : List InstrId) (g : Fragment) (j : InstrId) : Prop where
  arg : ∀ n v, (g.instr j).arg n = some v →
    (v.index < g.values.size ∧ ∃ c, (g.value v).origin = .constant c ∧ (g.value v).ty = c.ty ∧
      c.ty ≠ .str) ∨
    (InRegister regs g v ∧ ∃ k ∈ D, (g.value v).origin = .result k)
  result : ∀ v, (g.instr j).result = some v →
    InRegister regs g v ∧ (g.value v).origin = .result j

/-- An instruction of `D` refers to `v`. -/
def Mentions (D : List InstrId) (g : Fragment) (v : ValueId) : Prop :=
  ∃ j ∈ D, (∃ n, (g.instr j).arg n = some v) ∨ (g.instr j).result = some v

/-- The instructions `D` are the same in two fragments, with all values they refer to. -/
structure Keeps (D : List InstrId) (g g' : Fragment) : Prop where
  op_eq : ∀ j ∈ D, (g'.instr j).op = (g.instr j).op
  args_eq : ∀ j ∈ D, (g'.instr j).args = (g.instr j).args
  result_eq : ∀ j ∈ D, (g'.instr j).result = (g.instr j).result
  ty_eq : ∀ v, Mentions D g v → (g'.value v).ty = (g.value v).ty
  origin_eq : ∀ v, Mentions D g v → (g'.value v).origin = (g.value v).origin
  reg_eq : ∀ v, Mentions D g v → (g'.value v).reg = (g.value v).reg

/-- The code of an allocation in progress: `D` is final, `R` is to come. -/
structure Coded (f : Fragment) (b : BlockId) (regs : Array Register) (D R : List InstrId)
    (g : Fragment) : Prop where
  chain : g.Chain b (D ++ R)
  order_eq : g.order = f.order
  values_le : f.values.size ≤ g.values.size
  instrs_le : f.instrs.size ≤ g.instrs.size
  ty_eq : ∀ v : ValueId, v.index < f.values.size → (g.value v).ty = (f.value v).ty
  origin_eq : ∀ v : ValueId, v.index < f.values.size → (g.value v).origin = (f.value v).origin
  op_eq : ∀ i ∈ f.blockInstrs b, (g.instr i).op = (f.instr i).op
  result_eq : ∀ i ∈ f.blockInstrs b, (g.instr i).result = (f.instr i).result
  final : ∀ j ∈ D, Final regs D g j

/-! ### Bins -/

/-- `u` is the value of final code that holds temporary `t` in bin `bin`. -/
structure Holder (f : Fragment) (b : BlockId) (regs : Array Register) (D : List InstrId)
    (g : Fragment) (t : Nat) (u : ValueId) (bin : Nat) : Prop where
  lt : bin < regs.size
  reg_eq : (g.value u).reg = some bin.toUInt8
  ty_eq : (g.value u).ty = f.ty (home f b t)
  defined : ∃ j ∈ D, (g.instr j).result = some u

/-- The bytes of a slot. -/
structure InArea (f : Fragment) (b : BlockId) (g : Fragment) (t : Nat) (l : LocalId) : Prop where
  lt : l.index < g.locals.size
  ty_eq : (g.localSlot l).ty = f.ty (home f b t)
  offset_le : f.localsSize ≤ (g.localSlot l).offset
  le_size : (g.localSlot l).offset + (f.ty (home f b t)).bytes ≤ g.localsSize

/-- How many temporaries have a slot. -/
def spilled (s : State) : Nat :=
  (List.range s.bins.temps.size).countP fun t => (temp s t).slot.isSome

/-- The bins and temporaries of an allocation in progress. The instructions `pre` are done. Uses
before `pos` may be forgotten; what is used from `cut` on is in a bin or in a slot. The temporary
that is just being loaded has a value, and no bin yet. -/
structure Packed (f : Fragment) (b : BlockId) (regs : Array Register) (s₀ : State)
    (pre : List InstrId) (pos cut : Int) (loading : Option Nat) (D : List InstrId) (s : State) :
    Prop where
  size_eq : s.bins.temps.size = s₀.bins.temps.size
  packed_size : s.bins.packed.size = regs.size
  positions_eq : s.positions = s₀.positions
  tempOf_eq : ∀ v : ValueId, v.index < f.values.size → s.tempOf[v]? = s₀.tempOf[v]?
  held : ∀ bin t, s.bins.packed.getD bin none = some t → loading ≠ some t ∧
    ∃ u, (temp s t).value = some u ∧ Holder f b regs D s.fragment t u bin
  located : ∀ t u, loading ≠ some t → (temp s t).value = some u →
    ∃ bin, s.bins.packed.getD bin none = some t
  slot : ∀ t l, (temp s t).slot = some l → InArea f b s.fragment t l
  disjoint : ∀ t t' l l', t ≠ t' → (temp s t).slot = some l → (temp s t').slot = some l' →
    (s.fragment.localSlot l).offset + (f.ty (home f b t)).bytes ≤
        (s.fragment.localSlot l').offset ∨
      (s.fragment.localSlot l').offset + (f.ty (home f b t')).bytes ≤
        (s.fragment.localSlot l).offset
  uses : ∀ t, ∃ dropped, (temp s₀ t).uses = dropped ++ (temp s t).uses ∧ ∀ u ∈ dropped, u < pos
  nonempty : ∀ t < s.bins.temps.size, (temp s t).uses ≠ []
  kept : ∀ t < s.bins.temps.size, home f b t ∈ results f pre → (∃ u ∈ (temp s₀ t).uses, cut ≤ u) →
    (temp s t).value.isSome ∨ (temp s t).slot.isSome
  pending : ∀ t < s.bins.temps.size, home f b t ∉ results f pre → (temp s t).slot = none ∧
    (loading ≠ some t → (temp s t).value = none)
  size_ge : f.localsSize ≤ s.fragment.localsSize
  size_le : s.fragment.localsSize ≤ f.localsSize + 16 * spilled s

/-! ### Final code at work -/

/-- On the registers `rf` and the local area `area`, the temporaries have the values that they have
in `cells`, up to the one that is just being loaded. The local area starts with `base`. -/
structure Holds (f : Fragment) (b : BlockId) (regs : Array Register) (s : State)
    (loading : Option Nat) (cells : Cells) (rf : Array UInt64)
    (area base : Array UInt8) : Prop where
  regs_size : rf.size = regs.size
  base_size : base.size = f.localsSize.toNat
  area_size : s.fragment.localsSize.toNat ≤ area.size
  area_le : area.size ≤ Fragment.maxLocalsSize.toNat
  shared : ∀ i < base.size, area.getD i 0 = base.getD i 0
  fits : ∀ v, (f.ty v).isInt → Eval.truncate (f.ty v) (cells v) = cells v
  value : ∀ t u, loading ≠ some t → (temp s t).value = some u → ∀ r,
    (s.fragment.value u).reg = some r →
    Agree (f.ty (home f b t)) (cells (home f b t)) (rf.getD r.toNat 0)
  slot : ∀ t l, (temp s t).slot = some l → Agree (f.ty (home f b t)) (cells (home f b t))
    (Bytes.read area (s.fragment.localSlot l).offset.toNat (f.ty (home f b t)).bytes)

/-- Wherever it ends up, the code `chunk` takes what holds in `s` to what holds in `s'`. -/
def Runs (f : Fragment) (b : BlockId) (regs : Array Register) (s : State) (chunk : List InstrId)
    (s' : State) (loading : Option Nat) (out : Fragment) : Prop :=
  ∀ {σ : Type} (g : Guest σ) (o : Offsets) (rest : List InstrId) (cells : Cells)
    (rf : Array UInt64) (area base : Array UInt8) (w : World σ),
    area.size = out.localsSize.toNat → Holds f b regs s none cells rf area base →
    ∃ n rf' area', GoesIn (Meaning.step out (Meaning.registers out) g o) n
        ⟨⟨chunk ++ rest, []⟩, rf, ⟨area, w⟩⟩ ⟨⟨rest, []⟩, rf', ⟨area', w⟩⟩ ∧
      area'.size = area.size ∧ Holds f b regs s' loading cells rf' area' base

/-! ### Frames -/

variable {f g g' out : Fragment} {b : BlockId} {regs : Array Register} {D D' R : List InstrId}

theorem Keeps.refl (D : List InstrId) (g : Fragment) : Keeps D g g :=
  ⟨fun _ _ => rfl, fun _ _ => rfl, fun _ _ => rfl, fun _ _ => rfl, fun _ _ => rfl, fun _ _ => rfl⟩

theorem Keeps.mentions (h : Keeps D g g') {v : ValueId} (hv : Mentions D g v) :
    Mentions D g' v := by
  obtain ⟨j, hj, hm⟩ := hv
  refine ⟨j, hj, ?_⟩
  rw [h.result_eq j hj]
  simpa only [Instr.arg, h.args_eq j hj] using hm

theorem Keeps.trans {g'' : Fragment} (h : Keeps D g g') (h' : Keeps D g' g'') : Keeps D g g'' where
  op_eq j hj := (h'.op_eq j hj).trans (h.op_eq j hj)
  args_eq j hj := (h'.args_eq j hj).trans (h.args_eq j hj)
  result_eq j hj := (h'.result_eq j hj).trans (h.result_eq j hj)
  ty_eq v hv := (h'.ty_eq v (h.mentions hv)).trans (h.ty_eq v hv)
  origin_eq v hv := (h'.origin_eq v (h.mentions hv)).trans (h.origin_eq v hv)
  reg_eq v hv := (h'.reg_eq v (h.mentions hv)).trans (h.reg_eq v hv)

theorem Mentions.mono {v : ValueId} (hD : D ⊆ D') (hv : Mentions D g v) : Mentions D' g v := by
  obtain ⟨j, hj, hm⟩ := hv
  exact ⟨j, hD hj, hm⟩

theorem Keeps.mono (hD : D ⊆ D') (h : Keeps D' g g') : Keeps D g g' where
  op_eq j hj := h.op_eq j (hD hj)
  args_eq j hj := h.args_eq j (hD hj)
  result_eq j hj := h.result_eq j (hD hj)
  ty_eq v hv := h.ty_eq v (hv.mono hD)
  origin_eq v hv := h.origin_eq v (hv.mono hD)
  reg_eq v hv := h.reg_eq v (hv.mono hD)

theorem mentions_arg {j : InstrId} (hj : j ∈ D) {n : Slot} {v : ValueId}
    (h : (g.instr j).arg n = some v) : Mentions D g v := ⟨j, hj, .inl ⟨n, h⟩⟩

theorem mentions_result {j : InstrId} (hj : j ∈ D) {v : ValueId}
    (h : (g.instr j).result = some v) : Mentions D g v := ⟨j, hj, .inr h⟩

section
variable (h : Keeps D g out) {j : InstrId} (hj : j ∈ D)
include h hj

theorem Keeps.arg_eq (n : Slot) : (out.instr j).arg n = (g.instr j).arg n := by
  rw [Instr.arg, h.args_eq j hj, Instr.arg]

theorem Keeps.argTy_eq (n : Slot) : argTy out (out.instr j) n = argTy g (g.instr j) n := by
  rw [argTy, argTy, h.arg_eq hj n]
  cases ha : (g.instr j).arg n with
  | none => rfl
  | some v => exact h.ty_eq v (mentions_arg hj ha)

theorem Keeps.opTy_eq : opTy out (out.instr j) = opTy g (g.instr j) := by
  rw [opTy, opTy, h.result_eq j hj, h.argTy_eq hj 1]
  cases hr : (g.instr j).result with
  | none => rfl
  | some v => exact h.ty_eq v (mentions_result hj hr)

theorem Keeps.argBits_eq (n : Slot) (rf : Array UInt64) :
    argBits out (Meaning.registers out) rf (out.instr j) n =
      argBits g (Meaning.registers g) rf (g.instr j) n := by
  rw [argBits, argBits, h.arg_eq hj n]
  cases ha : (g.instr j).arg n with
  | none => rfl
  | some v =>
    have hv := mentions_arg hj ha
    simp only [bits, Meaning.registers, h.origin_eq v hv, h.reg_eq v hv]

theorem Keeps.keep_eq (rf : Array UInt64) (bits : Option UInt64) :
    keep out (Meaning.registers out) (out.instr j) rf bits =
      keep g (Meaning.registers g) (g.instr j) rf bits := by
  unfold keep
  rw [h.result_eq j hj]
  cases hr : (g.instr j).result with
  | none => rfl
  | some v =>
    have hv := mentions_result hj hr
    cases bits with
    | none => rfl
    | some x => simp only [Meaning.registers, Fragment.ty, h.ty_eq v hv, h.reg_eq v hv]

/-- Final code does the same in every fragment that keeps it. -/
theorem Keeps.runInstr_eq {σ : Type} (hbr : (g.instr j).op.isBranch = false) (gs : Guest σ)
    (o : Offsets) (rest : Point) (rf : Array UInt64) (m : Memory σ) :
    runInstr out (Meaning.registers out) gs o j rest rf m =
      runInstr g (Meaning.registers g) gs o j rest rf m := by
  simp only [runInstr, h.op_eq j hj, hbr, h.argBits_eq hj, h.argTy_eq hj, h.opTy_eq hj,
    h.keep_eq hj, Bool.false_eq_true, if_false]

end

end Recompiler.Pass.Allocation
