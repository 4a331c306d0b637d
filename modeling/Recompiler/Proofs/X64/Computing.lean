import Recompiler.Proofs.Pass.Replacement
import Recompiler.Proofs.X64.Bodies

/-!
Integer operations on the machine. The code of an operation takes its operands from constants and
allocated registers, leaves in the register of its result what the operation computes, cut to its
type, and changes no other allocatable register.
-/
namespace Recompiler.X64

open IR Interp X64.Machine

variable {σ : Type}

/-! ### Values in their places -/

/-- The register in which a value lives. -/
def place? (f : Fragment) (v : ValueId) : Option HostReg :=
  (f.value v).reg.bind fun r => hostRegs[r.toNat]?

/-- The machine as a store of values. -/
def hosts (f : Fragment) : Meaning.Store (Machine σ) where
  get m v := (place? f v).elim 0 (HostReg.get m)
  set m v bits := (place? f v).elim m (HostReg.put m bits)

/-- A number that is a constant, or a result in an allocatable register. Strings and blocks are in
none. -/
def Placed (f : Fragment) (v : ValueId) : Prop :=
  ((f.ty v).isInt || (f.ty v).isFloat) = true ∧
    match (f.value v).origin with
    | .constant k => k.bits?.isSome
    | .result _ => (place? f v).isSome

theorem isVector_of_number {ty : Ty} (h : (ty.isInt || ty.isFloat) = true) :
    ty.isVector = false := by
  cases ty <;> first | rfl | cases h

theorem place?_mem {f : Fragment} {v : ValueId} {h : HostReg} (hplace : place? f v = some h) :
    h ∈ hostRegs := by
  obtain ⟨r, -, hr⟩ := Option.bind_eq_some_iff.mp hplace
  exact Array.mem_of_getElem? hr

namespace Lowering

variable {c : Lowering} {i : InstrId} {n : Slot} {s t u : Source} {h : HostReg} {a body : Assembly}

/-- An argument that is taken from `s`. -/
structure Operand (c : Lowering) (i : InstrId) (n : Slot) (s : Source) : Prop where
  placed : s.IsPlaced
  taken : ∃ v, (c.fragment.instr i).arg n = some v ∧ (∀ op, c.source op v = .ok s) ∧
    ∀ {σ : Type} (m : Machine σ), s.bits m = Meaning.bits c.fragment (hosts c.fragment) m v

theorem exists_operand {v : ValueId} (harg : (c.fragment.instr i).arg n = some v)
    (hv : Placed c.fragment v) : ∃ s, c.Operand i n s := by
  obtain ⟨hnumber, hplace⟩ := hv
  have hvector' : (c.fragment.value v).ty.isVector = false := isVector_of_number hnumber
  cases horigin : (c.fragment.value v).origin with
  | constant k =>
    rw [horigin] at hplace
    obtain ⟨bits, hbits⟩ := Option.isSome_iff_exists.mp hplace
    have hnone : Source.IsPlaced (.imm bits) := fun _ h => nomatch h
    refine ⟨.imm bits, hnone, v, harg, fun op => ?_, fun m => ?_⟩
    · simp [source, hvector', horigin, hbits]
    · simp [Source.bits, Meaning.bits, horigin, hbits]
  | result j =>
    rw [horigin] at hplace
    obtain ⟨h, hh⟩ := Option.isSome_iff_exists.mp hplace
    have hmem := place?_mem hh
    obtain ⟨r, hreg, hr⟩ := Option.bind_eq_some_iff.mp hh
    have hplaced : Source.IsPlaced (.reg h) := fun h' hh' => by
      cases hh'
      exact hmem
    refine ⟨.reg h, hplaced, v, harg, fun op => ?_, fun m => ?_⟩
    · simp [source, hvector', horigin, hreg, hostReg, hr]
    · simp [Source.bits, Meaning.bits, horigin, hosts, hh]

theorem Operand.argGpr_eq (hs : c.Operand i n s) (dst : Gpr) :
    c.argGpr i n dst = .ok (loadSource dst s) := by
  obtain ⟨-, v, harg, hsource, -⟩ := hs
  simp only [argGpr, arg, harg, loadGpr]
  change (do return loadSource dst (← c.source _ v)) = _
  rw [hsource]
  rfl

/-- The bits of an argument are those of its source. -/
theorem Operand.bits_eq (hs : c.Operand i n s) (m : Machine σ) :
    Meaning.argBits c.fragment (hosts c.fragment) m (c.fragment.instr i) n = s.bits m := by
  obtain ⟨-, v, harg, -, hbits⟩ := hs
  simp only [Meaning.argBits, harg]
  exact (hbits m).symm

theorem setResult_eq (ht : c.target? i = .ok (some h)) (src : Gpr) :
    c.setResult i src = .ok (moveOut h (.gpr src)) := by
  unfold setResult
  rw [ht]
  cases h <;> rfl

theorem setResultXmm_eq (ht : c.target? i = .ok (some h)) (src : Xmm) :
    c.setResultXmm i src = .ok (moveOut h (.xmm src)) := by
  unfold setResultXmm
  rw [ht]
  cases h <;> rfl

theorem target?_eq {v : ValueId} (hv : (c.fragment.instr i).result = some v)
    (hplace : place? c.fragment v = some h) : c.target? i = .ok (some h) := by
  obtain ⟨r, hreg, hr⟩ := Option.bind_eq_some_iff.mp hplace
  unfold target?
  simp only [hv, Option.bind_some, hreg, hostReg, hr]
  rfl

/-! ### Operands, body and result -/

/-- The code puts a number that depends on the machine into a register. -/
def Gives (x : Assembling Assembly) (h : HostReg) (y : ∀ σ : Type, Machine σ → UInt64) : Prop :=
  ∃ lines, x = .ok lines ∧ ∀ (σ : Type) (g : Guest σ) (m : Machine σ),
    ∃ m', Runs g lines m m' ∧ Delivers h (y σ m) m m'

theorem works_one {g : Guest σ} (s : Source) (m : Machine σ) :
    ∃ m', Works g (loadSource tmp0 s) m m' ∧ m'.gpr tmp0 = s.bits m :=
  ⟨_, works_loadSource tmp0 rfl s m, gpr_setGpr_self m tmp0 _⟩

theorem works_two {g : Guest σ} (ht : t.IsPlaced) (s : Source) (m : Machine σ) :
    ∃ m', Works g (loadSource tmp0 s ++ loadSource tmp1 t) m m' ∧ m'.gpr tmp0 = s.bits m ∧
      m'.gpr tmp1 = t.bits m := by
  have hfirst := works_loadSource (g := g) tmp0 rfl s m
  have hsecond := works_loadSource (g := g) tmp1 rfl t (m.setGpr tmp0 (s.bits m))
  have hbits := hfirst.undisturbed.bits_eq ht
  refine ⟨_, hfirst.append hsecond, ?_, ?_⟩
  · rw [gpr_setGpr_of_ne _ (by decide), gpr_setGpr_self]
  · rw [gpr_setGpr_self, hbits]

/-- Code for one operand. -/
theorem gives_one {x : Assembling Assembly} {F : UInt64 → UInt64}
    (hx : x = .ok (loadSource tmp0 s ++ body ++ moveOut h (.gpr tmp0)))
    (hbody : ∀ (σ : Type) (g : Guest σ) (m : Machine σ), Makes g body m (F (m.gpr tmp0))) :
    Gives x h fun _ m => F (s.bits m) := by
  refine ⟨_, hx, fun σ g m => ?_⟩
  obtain ⟨m₁, hload, hs⟩ := works_one (g := g) s m
  obtain ⟨m₂, hwork, hresult⟩ := hbody σ g m₁
  rw [hs] at hresult
  exact (hload.append hwork).delivers (.gpr tmp0) hresult h

/-- Code for two operands. -/
theorem gives_two {x : Assembling Assembly} {F : UInt64 → UInt64 → UInt64} (ht : t.IsPlaced)
    (hx : x = .ok (loadSource tmp0 s ++ loadSource tmp1 t ++ body ++ moveOut h (.gpr tmp0)))
    (hbody : ∀ (σ : Type) (g : Guest σ) (m : Machine σ),
      Makes g body m (F (m.gpr tmp0) (m.gpr tmp1))) :
    Gives x h fun _ m => F (s.bits m) (t.bits m) := by
  refine ⟨_, hx, fun σ g m => ?_⟩
  obtain ⟨m₁, hload, hs, ht⟩ := works_two (g := g) ht s m
  obtain ⟨m₂, hwork, hresult⟩ := hbody σ g m₁
  rw [hs, ht] at hresult
  exact (hload.append hwork).delivers (.gpr tmp0) hresult h

theorem gives_intUnary {F : UInt64 → UInt64} (ty : Ty) (hs : c.Operand i 0 s)
    (ht : c.target? i = .ok (some h))
    (hbody : ∀ (σ : Type) (g : Guest σ) (m : Machine σ), Makes g body m (F (m.gpr tmp0))) :
    Gives (c.intUnary i ty body) h fun _ m => Eval.truncate ty (F (s.bits m)) := by
  have hlines : c.intUnary i ty body =
      .ok (loadSource tmp0 s ++ (body ++ zeroExtend ty tmp0) ++ moveOut h (.gpr tmp0)) := by
    unfold intUnary
    rw [hs.argGpr_eq, setResult_eq ht, ← List.append_assoc]
    rfl
  exact gives_one (F := fun x => Eval.truncate ty (F x)) hlines
    fun σ g m => (hbody σ g m).zeroExtend ty

theorem gives_intBinary {F : UInt64 → UInt64 → UInt64} {f : Gpr → Gpr → Instruction} (ty : Ty)
    (hs : c.Operand i 0 s) (ht : c.Operand i 1 t) (htarget : c.target? i = .ok (some h))
    (hbody : ∀ (σ : Type) (g : Guest σ) (m : Machine σ),
      Makes g [.instr (f tmp0 tmp1)] m (F (m.gpr tmp0) (m.gpr tmp1))) :
    Gives (c.intBinary i ty f) h fun _ m => Eval.truncate ty (F (s.bits m) (t.bits m)) := by
  have hlines : c.intBinary i ty f = .ok (loadSource tmp0 s ++ loadSource tmp1 t ++
      ([.instr (f tmp0 tmp1)] ++ zeroExtend ty tmp0) ++ moveOut h (.gpr tmp0)) := by
    unfold intBinary
    rw [hs.argGpr_eq, ht.argGpr_eq, setResult_eq htarget, ← List.append_assoc]
    rfl
  exact gives_two (F := fun x y => Eval.truncate ty (F x y)) ht.placed hlines
    fun σ g m => (hbody σ g m).zeroExtend ty

/-- Both operands are extended with their signs. -/
theorem works_signExtendBoth {g : Guest σ} {ty : Ty} (hty : ty.isInt = true) (m : Machine σ) :
    ∃ m', Works g (signExtend ty tmp0 ++ signExtend ty tmp1) m m' ∧
      m'.gpr tmp0 = (Eval.signed ty (m.gpr tmp0)).toUInt64 ∧
      m'.gpr tmp1 = (Eval.signed ty (m.gpr tmp1)).toUInt64 := by
  have hfirst := works_signExtend (g := g) (r := tmp0) rfl hty m
  have hkept : (m.setGpr tmp0 (Eval.signed ty (m.gpr tmp0)).toUInt64).gpr tmp1 = m.gpr tmp1 :=
    gpr_setGpr_of_ne m (by decide) _
  have hsecond := works_signExtend (g := g) (r := tmp1) rfl hty
    (m.setGpr tmp0 (Eval.signed ty (m.gpr tmp0)).toUInt64)
  rw [hkept] at hsecond
  refine ⟨_, hfirst.append hsecond, ?_, gpr_setGpr_self _ tmp1 _⟩
  rw [gpr_setGpr_of_ne _ (by decide), gpr_setGpr_self]

theorem works_compared {g : Guest σ} (op : Opcode) {ty : Ty} (hty : ty.isInt = true)
    (m : Machine σ) : ∃ m', Works g (if (conditionOf op).2 then
      signExtend ty tmp0 ++ signExtend ty tmp1 else []) m m' ∧
      m'.gpr tmp0 = compared op ty (m.gpr tmp0) ∧ m'.gpr tmp1 = compared op ty (m.gpr tmp1) := by
  unfold compared
  cases (conditionOf op).2 with
  | true => exact works_signExtendBoth hty m
  | false => exact ⟨m, works_nil m, rfl, rfl⟩

theorem gives_compare (op : Opcode) {ty : Ty} (hty : ty.isInt = true) (hs : c.Operand i 0 s)
    (ht : c.Operand i 1 t) (htarget : c.target? i = .ok (some h)) :
    Gives (c.compare i op ty) h fun _ m => ((conditionOf op).1.holds (ArithOp.cmp.apply true
      (compared op ty (s.bits m)) (compared op ty (t.bits m))).2).toUInt64 := by
  have hlines : c.compare i op ty = .ok (loadSource tmp0 s ++ loadSource tmp1 t ++
      ((if (conditionOf op).2 then signExtend ty tmp0 ++ signExtend ty tmp1 else []) ++
        [.instr (.arith .cmp true tmp0 tmp1), .instr (.setcc (conditionOf op).1 tmp0),
         .instr (.extend .movzbl tmp0 tmp0)]) ++ moveOut h (.gpr tmp0)) := by
    unfold compare
    rw [hs.argGpr_eq, ht.argGpr_eq, setResult_eq htarget, ← List.append_assoc]
    rfl
  refine gives_two (F := fun x y => ((conditionOf op).1.holds (ArithOp.cmp.apply true
    (compared op ty x) (compared op ty y)).2).toUInt64) ht.placed hlines fun σ g m => ?_
  obtain ⟨m₁, hextend, hx, hy⟩ := works_compared (g := g) op hty m
  obtain ⟨m₂, hcompare, hresult⟩ := makes_compare (g := g) (conditionOf op).1 m₁
  rw [hx, hy] at hresult
  exact ⟨m₂, hextend.append hcompare, hresult⟩

theorem gives_divide {ty : Ty} (hty : ty.isInt = true) (hs : c.Operand i 0 s)
    (ht : c.Operand i 1 t) (htarget : c.target? i = .ok (some h)) :
    Gives (c.divide i ty) h fun _ m => Eval.truncate ty
      (Eval.divide (Eval.signed ty (s.bits m)) (Eval.signed ty (t.bits m))).toUInt64 := by
  have hlines : c.divide i ty = .ok (loadSource tmp0 s ++ loadSource tmp1 t ++
      (signExtend ty tmp0 ++ signExtend ty tmp1 ++ divideLines i ++ zeroExtend ty tmp0) ++
        moveOut h (.gpr tmp0)) := by
    unfold divide
    rw [hs.argGpr_eq, ht.argGpr_eq, setResult_eq htarget, ← List.append_assoc, ← List.append_assoc,
      ← List.append_assoc]
    rfl
  refine gives_two (F := fun x y => Eval.truncate ty
    (Eval.divide (Eval.signed ty x) (Eval.signed ty y)).toUInt64) ht.placed hlines fun σ g m => ?_
  obtain ⟨m₁, hextend, hx, hy⟩ := works_signExtendBoth (g := g) hty m
  obtain ⟨m₂, hdivide, hresult⟩ := makes_divide (g := g) hx hy i
  have hmakes : Makes g (signExtend ty tmp0 ++ signExtend ty tmp1 ++ divideLines i) m _ :=
    ⟨m₂, hextend.append hdivide, hresult⟩
  exact hmakes.zeroExtend ty

theorem gives_shift (op : ShiftOp) {ty : Ty} (hty : ty.isInt = true) (hs : c.Operand i 0 s)
    (ht : c.Operand i 1 t) (htarget : c.target? i = .ok (some h)) :
    Gives (c.shift i ty op) h fun _ m => Eval.truncate ty
      (op.apply true (if op = .sar then (Eval.signed ty (s.bits m)).toUInt64 else s.bits m)
        (t.bits m).toUInt8) := by
  have hlines : c.shift i ty op = .ok (loadSource tmp0 s ++ loadSource tmp1 t ++
      ((if op = .sar then signExtend ty tmp0 else []) ++ [.instr (.shiftCl op true tmp0)] ++
        zeroExtend ty tmp0) ++ moveOut h (.gpr tmp0)) := by
    unfold shift
    rw [hs.argGpr_eq, ht.argGpr_eq, setResult_eq htarget, ← List.append_assoc, ← List.append_assoc]
    rfl
  refine gives_two (F := fun x y => Eval.truncate ty (op.apply true
    (if op = .sar then (Eval.signed ty x).toUInt64 else x) y.toUInt8)) ht.placed hlines
    fun σ g m => ?_
  have hextend : ∃ m', Works g (if op = .sar then signExtend ty tmp0 else []) m m' ∧
      m'.gpr tmp0 = (if op = .sar then (Eval.signed ty (m.gpr tmp0)).toUInt64 else m.gpr tmp0) ∧
      m'.gpr tmp1 = m.gpr tmp1 := by
    by_cases hop : op = .sar
    · rw [if_pos hop, if_pos hop]
      exact ⟨_, works_signExtend rfl hty m, gpr_setGpr_self m tmp0 _,
        gpr_setGpr_of_ne m (by decide) _⟩
    · rw [if_neg hop, if_neg hop]
      exact ⟨m, works_nil m, rfl, rfl⟩
  obtain ⟨m₁, hextend, hx, hy⟩ := hextend
  obtain ⟨m₂, hshift, hresult⟩ := makes_shiftCl (g := g) op m₁
  rw [hx, hy] at hresult
  have hmakes : Makes g ((if op = .sar then signExtend ty tmp0 else []) ++
    [.instr (.shiftCl op true tmp0)]) m _ := ⟨m₂, hextend.append hshift, hresult⟩
  exact hmakes.zeroExtend ty

theorem gives_shiftSigned (op : Opcode) (hs : c.Operand i 0 s) (ht : c.Operand i 1 t)
    (htarget : c.target? i = .ok (some h)) :
    Gives (c.shiftSigned i op) h fun _ m => Eval.truncate .i32
      (Eval.shiftSigned (s.bits m).toUInt32 (t.bits m).toUInt32 (op == .ashd)).toUInt64 := by
  have hlines : c.shiftSigned i op = .ok (loadSource tmp0 s ++ loadSource tmp1 t ++
      (shiftSignedLines i (op == .ashd) ++ zeroExtend .i32 tmp0) ++ moveOut h (.gpr tmp0)) := by
    unfold shiftSigned
    rw [hs.argGpr_eq, ht.argGpr_eq, setResult_eq htarget, ← List.append_assoc]
    rfl
  exact gives_two (F := fun x y => Eval.truncate .i32
    (Eval.shiftSigned x.toUInt32 y.toUInt32 (op == .ashd)).toUInt64) ht.placed hlines
    fun σ g m => (makes_shiftSigned i (op == .ashd) m).zeroExtend .i32

/-! ### Choice -/

theorem Operand.loadGpr_eq {v : ValueId} (hs : c.Operand i n s)
    (harg : (c.fragment.instr i).arg n = some v) (op : Opcode) (dst : Gpr) :
    c.loadGpr op dst v = .ok (loadSource dst s) := by
  obtain ⟨-, w, hw, hsource, -⟩ := hs
  cases harg.symm.trans hw
  unfold loadGpr
  rw [hsource]
  rfl

theorem Operand.loadXmm_eq {v : ValueId} (hs : c.Operand i n s)
    (harg : (c.fragment.instr i).arg n = some v) (op : Opcode) (dst : Xmm) :
    c.loadXmm op dst v = .ok (loadXmmSource dst s) := by
  obtain ⟨-, w, hw, hsource, -⟩ := hs
  cases harg.symm.trans hw
  unfold loadXmm
  rw [hsource]
  rfl

/-- The choice between general-purpose registers. -/
theorem runs_selectGpr {g : Guest σ} (hs : s.IsPlaced) (hu : u.IsPlaced) (h : HostReg)
    (m : Machine σ) : ∃ m', Runs g (loadSource tmp1 t ++ loadSource tmp2 u ++ loadSource tmp0 s ++
      [.instr (.test true tmp0 tmp0), .instr (.cmov .e true tmp1 tmp2)] ++ moveOut h (.gpr tmp1))
        m m' ∧ Delivers h (if s.bits m ≠ 0 then t.bits m else u.bits m) m m' := by
  have hfirst := works_loadSource (g := g) tmp1 rfl t m
  have hsecond := works_loadSource (g := g) tmp2 rfl u (m.setGpr tmp1 (t.bits m))
  rw [hfirst.undisturbed.bits_eq hu] at hsecond
  have hpair := hfirst.append hsecond
  have hthird := works_loadSource (g := g) tmp0 rfl s
    ((m.setGpr tmp1 (t.bits m)).setGpr tmp2 (u.bits m))
  rw [hpair.undisturbed.bits_eq hs] at hthird
  have hloads := hpair.append hthird
  obtain ⟨m₁, hchoose, hresult⟩ := works_choose (g := g)
    (((m.setGpr tmp1 (t.bits m)).setGpr tmp2 (u.bits m)).setGpr tmp0 (s.bits m))
  rw [gpr_setGpr_self, gpr_setGpr_of_ne _ (by decide), gpr_setGpr_of_ne _ (by decide),
    gpr_setGpr_self, gpr_setGpr_of_ne _ (by decide), gpr_setGpr_self] at hresult
  exact (hloads.append hchoose).delivers (.gpr tmp1) hresult h

theorem all_isPlain_loadXmmSource (dst : Xmm) (t : Source) :
    (loadXmmSource dst t).all Line.isPlain = true := by
  match t with
  | .imm bits => rfl
  | .reg (.gpr r) => rfl
  | .reg (.xmm x) =>
    simp only [loadXmmSource]
    split <;> rfl

/-- The choice between SSE registers skips the load of the second operand. -/
theorem runs_selectXmm {g : Guest σ} (hs : s.IsPlaced) (ht : t.IsPlaced) (h : HostReg)
    (i : InstrId) (m : Machine σ) : ∃ m', Runs g (loadXmmSource xtmp0 u ++ loadSource tmp2 s ++
      [.instr (.test true tmp2 tmp2)] ++ (.jump (some .e) (.inside i 0) :: loadXmmSource xtmp0 t ++
        [.label (.inside i 0)]) ++ moveOut h (.xmm xtmp0)) m m' ∧
      Delivers h (if s.bits m ≠ 0 then t.bits m else u.bits m) m m' := by
  obtain ⟨m₁, hfirst, hu₁⟩ := works_loadXmmSource (g := g) xtmp0 rfl u m
  have hsecond := works_loadSource (g := g) tmp2 rfl s m₁
  rw [hfirst.undisturbed.bits_eq hs] at hsecond
  have hloads := hfirst.append hsecond
  obtain ⟨m₂, htest, -, hflags, hxmms⟩ := works_test (g := g) true tmp2 (m₁.setGpr tmp2 (s.bits m))
  have hhead := hloads.append htest
  have hu₂ : m₂.xmm xtmp0 = u.bits m := (hxmms xtmp0).trans hu₁
  have hz₂ : taken (some .e) m₂.flags = decide (s.bits m = 0) := by
    rw [hflags, gpr_setGpr_self]
    rfl
  by_cases hzero : s.bits m = 0
  · rw [if_neg (not_not.mpr hzero)]
    have hskip : Works g _ m₂ m₂ :=
      works_taken (t := .inside i 0) (hz₂.trans (decide_eq_true hzero))
      (all_isPlain_loadXmmSource xtmp0 t) ((outward_loadXmmSource xtmp0 t).label_not_mem _)
    exact (hhead.append hskip).delivers (.xmm xtmp0) hu₂ h
  · rw [if_pos hzero]
    have hfall : Works g [.jump (some .e) (.inside i 0)] m₂ m₂ :=
      works_untaken (hz₂.trans (decide_eq_false hzero)) _
    obtain ⟨m₃, hlast, ht₃⟩ := works_loadXmmSource (g := g) xtmp0 rfl t m₂
    rw [hhead.undisturbed.bits_eq ht] at ht₃
    have hrest := (hfall.append hlast).append (works_label (.inside i 0) m₃)
    exact (hhead.append hrest).delivers (.xmm xtmp0) ht₃ h

theorem gives_select (ty : Ty) (hs : c.Operand i 0 s) (ht : c.Operand i 1 t)
    (hu : c.Operand i 2 u) (htarget : c.target? i = .ok (some h)) :
    Gives (c.select i ty) h fun _ m => if s.bits m ≠ 0 then t.bits m else u.bits m := by
  obtain ⟨vs, hvs, -⟩ := hs.taken
  obtain ⟨vt, hvt, -⟩ := ht.taken
  obtain ⟨vu, hvu, -⟩ := hu.taken
  unfold select
  simp only [arg, hvs, hvt, hvu]
  by_cases hfloat : ty.isFloat = true
  · refine ⟨_, ?_, fun σ g m => runs_selectXmm hs.placed ht.placed h i m⟩
    simp only [Except.bind, bind, hs.loadGpr_eq hvs, ht.loadXmm_eq hvt, hu.loadXmm_eq hvu,
      setResultXmm_eq htarget, hfloat, if_true]
    exact congrArg Except.ok (by simp)
  · refine ⟨_, ?_, fun σ g m => runs_selectGpr hs.placed hu.placed h m⟩
    simp only [Except.bind, bind, hs.loadGpr_eq hvs, ht.loadGpr_eq hvt, hu.loadGpr_eq hvu,
      setResult_eq htarget, hfloat, Bool.false_eq_true, if_false]
    exact congrArg Except.ok (by simp)

/-! ### Operations -/

/-- The operations on integers, and the choice between values of any type. -/
def isIntegral : Opcode → Bool
  | .add | .sub | .smul | .umul | .div | .neg | .abs | .and | .or | .xor | .not
  | .shl | .ashr | .lshr | .ashd | .lshd
  | .cmpEq | .cmpNe | .cmpSge | .cmpSgt | .cmpUge | .cmpUgt | .cmpSle | .cmpSlt | .cmpUle | .cmpUlt
  | .select | .sext | .zext | .trunc => true
  | _ => false

/-- The operands of an instruction are extended with zeros. -/
def Extended (c : Lowering) (i : InstrId) (m : Machine σ) : Prop :=
  ∀ n v, (c.fragment.instr i).arg n = some v →
    Eval.truncate (c.fragment.ty v) (Meaning.bits c.fragment (hosts c.fragment) m v) =
      Meaning.bits c.fragment (hosts c.fragment) m v

/-- The code delivers what the operation computes, cut to its type. -/
def Computes (c : Lowering) (i : InstrId) (op : Opcode) (ty : Ty) (h : HostReg) : Prop :=
  ∃ y : ∀ σ : Type, Machine σ → UInt64, Gives (c.operation i op ty) h y ∧
    ∀ (σ : Type) (m : Machine σ), c.Extended i m → ∃ z,
      Eval.apply op ty (Interp.argTy c.fragment (c.fragment.instr i) 0)
        (Interp.argTy c.fragment (c.fragment.instr i) 1)
        (Meaning.argBits c.fragment (hosts c.fragment) m (c.fragment.instr i) 0)
        (Meaning.argBits c.fragment (hosts c.fragment) m (c.fragment.instr i) 1)
        (Meaning.argBits c.fragment (hosts c.fragment) m (c.fragment.instr i) 2) = .ok z ∧
      y σ m = Eval.truncate ty z

/-- Every argument has a place. -/
def ArgsPlaced (c : Lowering) (i : InstrId) : Prop :=
  ∀ n v, (c.fragment.instr i).arg n = some v → Placed c.fragment v

/-- Operands that have places also have bits. -/
theorem ArgsPlaced.apply_eq (hargs : c.ArgsPlaced i) (op : Opcode) (ty : Ty) (a b d : UInt64) :
    Eval.apply op ty (Interp.argTy c.fragment (c.fragment.instr i) 0)
        (Interp.argTy c.fragment (c.fragment.instr i) 1) a b d =
      Eval.compute op ty (Interp.argTy c.fragment (c.fragment.instr i) 0)
        (Interp.argTy c.fragment (c.fragment.instr i) 1) a b d := by
  have hbits (n : Slot) : (Interp.argTy c.fragment (c.fragment.instr i) n).bits ≠ 0 := by
    unfold Interp.argTy
    split
    case h_1 v harg => exact Ty.bits_ne_zero (hargs n v harg).1
    case h_2 => decide
  exact Eval.apply_eq (hbits 0) (hbits 1) op ty a b d

theorem exists_typed (hargs : c.ArgsPlaced i) {ty : Ty}
    (hty : Meaning.argTy? c.fragment i n = some ty) :
    ∃ s, c.Operand i n s ∧ Interp.argTy c.fragment (c.fragment.instr i) n = ty ∧
      c.argTy i n = .ok ty ∧ ∀ {σ : Type} (m : Machine σ), c.Extended i m →
        Eval.truncate ty (s.bits m) = s.bits m := by
  obtain ⟨v, harg, rfl⟩ := Option.map_eq_some_iff.mp hty
  obtain ⟨s, hs⟩ := exists_operand harg (hargs n v harg)
  refine ⟨s, hs, ?_, ?_, fun m hm => ?_⟩
  · simp only [Interp.argTy, harg]
  · simp only [argTy, arg, harg]
    rfl
  · obtain ⟨w, hw, -, hbits⟩ := hs.taken
    cases harg.symm.trans hw
    rw [hbits]
    exact hm n v harg

theorem computes_one {op : Opcode} {ty src : Ty} {F : UInt64 → UInt64} (hargs : c.ArgsPlaced i)
    (h0 : Meaning.argTy? c.fragment i 0 = some src)
    (hgives : ∀ s, c.Operand i 0 s → c.argTy i 0 = .ok src →
      Gives (c.operation i op ty) h fun _ m => F (s.bits m))
    (hvalue : ∀ bty a b d, ∃ z, Eval.compute op ty src bty a b d = .ok z ∧
      F a = Eval.truncate ty z) :
    c.Computes i op ty h := by
  obtain ⟨s, hs, hty, hargTy, -⟩ := exists_typed hargs h0
  refine ⟨_, hgives s hs hargTy, fun σ m _ => ?_⟩
  rw [hargs.apply_eq, hty, hs.bits_eq]
  exact hvalue _ _ _ _

theorem computes_two {op : Opcode} {ty ty₀ ty₁ : Ty} {F : UInt64 → UInt64 → UInt64}
    (hargs : c.ArgsPlaced i) (h0 : Meaning.argTy? c.fragment i 0 = some ty₀)
    (h1 : Meaning.argTy? c.fragment i 1 = some ty₁)
    (hgives : ∀ s t, c.Operand i 0 s → c.Operand i 1 t → c.argTy i 0 = .ok ty₀ →
      Gives (c.operation i op ty) h fun _ m => F (s.bits m) (t.bits m))
    (hvalue : ∀ a b d, ∃ z, Eval.compute op ty ty₀ ty₁ a b d = .ok z ∧ F a b = Eval.truncate ty z) :
    c.Computes i op ty h := by
  obtain ⟨s, hs, hty₀, hargTy, -⟩ := exists_typed hargs h0
  obtain ⟨t, ht, hty₁, -, -⟩ := exists_typed hargs h1
  refine ⟨_, hgives s t hs ht hargTy, fun σ m _ => ?_⟩
  rw [hargs.apply_eq, hty₀, hty₁, hs.bits_eq, ht.bits_eq]
  exact hvalue _ _ _

variable {op : Opcode} {ty : Ty}

/-- An operation that is one instruction of the arithmetic group. -/
theorem computes_arith {o : ArithOp} (ho : o ≠ .cmp)
    (hlines : c.operation i op ty = c.intBinary i ty (.arith o true))
    (hvalue : ∀ a b d, Eval.compute op ty ty ty a b d = .ok (o.apply true a b).1)
    (hargs : c.ArgsPlaced i) (h0 : Meaning.argTy? c.fragment i 0 = some ty)
    (h1 : Meaning.argTy? c.fragment i 1 = some ty) (htarget : c.target? i = .ok (some h)) :
    c.Computes i op ty h := by
  have hgives (s t : Source) (hs : c.Operand i 0 s) (ht : c.Operand i 1 t) :
      Gives (c.operation i op ty) h fun _ m =>
        Eval.truncate ty (o.apply true (s.bits m) (t.bits m)).1 := by
    rw [hlines]
    exact gives_intBinary (F := fun a b => (o.apply true a b).1) ty hs ht htarget
      fun _ _ m => makes_arith ho m
  exact computes_two (F := fun a b => Eval.truncate ty (o.apply true a b).1) hargs h0 h1
    (fun s t hs ht _ => hgives s t hs ht) fun a b d => ⟨_, hvalue a b d, rfl⟩

theorem computes_intBinary (hop : op.kind = .intBinary) (hty : ty.isInt = true)
    (hargs : c.ArgsPlaced i) (h0 : Meaning.argTy? c.fragment i 0 = some ty)
    (h1 : Meaning.argTy? c.fragment i 1 = some ty) (htarget : c.target? i = .ok (some h)) :
    c.Computes i op ty h := by
  have hsigned (a b : UInt64) : Eval.truncate ty (a * b) =
      Eval.truncate ty (Eval.signed ty a * Eval.signed ty b).toUInt64 := by
    rw [Int64.toUInt64_mul]
    exact truncate_mul (truncate_signed hty a).symm (truncate_signed hty b).symm
  have hproduct (s t : Source) (hs : c.Operand i 0 s) (ht : c.Operand i 1 t) :
      Gives (c.intBinary i ty (.imul true)) h fun _ m => Eval.truncate ty (s.bits m * t.bits m) :=
    gives_intBinary (F := fun a b => a * b) ty hs ht htarget fun _ _ m => makes_imul m
  cases op with
  | add => exact computes_arith (o := .add) (by decide) rfl (fun _ _ _ => rfl) hargs h0 h1 htarget
  | sub => exact computes_arith (o := .sub) (by decide) rfl (fun _ _ _ => rfl) hargs h0 h1 htarget
  | and => exact computes_arith (o := .and) (by decide) rfl (fun _ _ _ => rfl) hargs h0 h1 htarget
  | or => exact computes_arith (o := .or) (by decide) rfl (fun _ _ _ => rfl) hargs h0 h1 htarget
  | xor => exact computes_arith (o := .xor) (by decide) rfl (fun _ _ _ => rfl) hargs h0 h1 htarget
  | umul =>
    exact computes_two (F := fun a b => Eval.truncate ty (a * b)) hargs h0 h1
      (fun s t hs ht _ => hproduct s t hs ht) fun _ _ _ => ⟨_, rfl, rfl⟩
  | smul =>
    exact computes_two (F := fun a b => Eval.truncate ty (a * b)) hargs h0 h1
      (fun s t hs ht _ => hproduct s t hs ht) fun a b _ => ⟨_, rfl, hsigned a b⟩
  | div =>
    exact computes_two (F := fun a b => Eval.truncate ty
      (Eval.divide (Eval.signed ty a) (Eval.signed ty b)).toUInt64) hargs h0 h1
      (fun s t hs ht _ => gives_divide hty hs ht htarget) fun _ _ _ => ⟨_, rfl, rfl⟩
  | _ => cases hop

theorem makes_signedAbs {g : Guest σ} (hty : ty.isInt = true) (m : Machine σ) :
    Makes g (signExtend ty tmp0 ++ [.instr (.mov true tmp1 tmp0), .instr (.unary .neg true tmp0),
      .instr (.cmov .s true tmp0 tmp1)]) m (if Eval.signed ty (m.gpr tmp0) < 0 then
        -Eval.signed ty (m.gpr tmp0) else Eval.signed ty (m.gpr tmp0)).toUInt64 := by
  have hextend := works_signExtend (g := g) (r := tmp0) rfl hty m
  obtain ⟨m', habs, hresult⟩ := makes_abs (g := g) (gpr_setGpr_self m tmp0
    (Eval.signed ty (m.gpr tmp0)).toUInt64)
  exact ⟨m', hextend.append habs, hresult⟩

theorem computes_intUnary (hop : op.kind = .intUnary) (hty : ty.isInt = true)
    (hargs : c.ArgsPlaced i) (h0 : Meaning.argTy? c.fragment i 0 = some ty)
    (htarget : c.target? i = .ok (some h)) : c.Computes i op ty h := by
  have hsigned (a : UInt64) :
      Eval.truncate ty (-a) = Eval.truncate ty (-Eval.signed ty a).toUInt64 := by
    rw [Int64.toUInt64_neg]
    exact truncate_neg (truncate_signed hty a).symm
  cases op with
  | not =>
    exact computes_one (F := fun a => Eval.truncate ty (~~~a)) hargs h0
      (fun s hs _ => gives_intUnary (F := fun a => ~~~a) ty hs htarget fun _ _ m => makes_not m)
      fun _ _ _ _ => ⟨_, rfl, rfl⟩
  | neg =>
    exact computes_one (F := fun a => Eval.truncate ty (-a)) hargs h0
      (fun s hs _ => gives_intUnary (F := fun a => -a) ty hs htarget fun _ _ m => makes_neg m)
      fun _ a _ _ => ⟨_, rfl, hsigned a⟩
  | abs =>
    exact computes_one (F := fun a => Eval.truncate ty
      (if Eval.signed ty a < 0 then -Eval.signed ty a else Eval.signed ty a).toUInt64) hargs h0
      (fun s hs _ => gives_intUnary (F := fun a =>
        (if Eval.signed ty a < 0 then -Eval.signed ty a else Eval.signed ty a).toUInt64) ty hs
          htarget
        fun _ _ m => makes_signedAbs hty m) fun _ _ _ _ => ⟨_, rfl, rfl⟩
  | _ => cases hop

theorem computes_convert (hop : op = .sext ∨ op = .zext ∨ op = .trunc) {src : Ty}
    (hsrc : src.isInt = true) (hargs : c.ArgsPlaced i)
    (h0 : Meaning.argTy? c.fragment i 0 = some src) (htarget : c.target? i = .ok (some h)) :
    c.Computes i op ty h := by
  have hcut (s : Source) (hs : c.Operand i 0 s) :
      Gives (c.intUnary i ty []) h fun _ m => Eval.truncate ty (s.bits m) :=
    gives_intUnary (F := fun a => a) ty hs htarget fun _ _ m => ⟨m, works_nil m, rfl⟩
  have hextend (s : Source) (hs : c.Operand i 0 s) : Gives (c.intUnary i ty (signExtend src tmp0)) h
      fun _ m => Eval.truncate ty (Eval.signed src (s.bits m)).toUInt64 :=
    gives_intUnary (F := fun a => (Eval.signed src a).toUInt64) ty hs htarget fun _ _ m =>
      ⟨_, works_signExtend rfl hsrc m, gpr_setGpr_self m tmp0 _⟩
  rcases hop with rfl | rfl | rfl
  · refine computes_one (F := fun a => Eval.truncate ty (Eval.signed src a).toUInt64) hargs h0
      (fun s hs hargTy => ?_) fun _ _ _ _ => ⟨_, rfl, rfl⟩
    unfold operation
    simp only [hargTy]
    exact hextend s hs
  · exact computes_one (F := fun a => Eval.truncate ty a) hargs h0 (fun s hs _ => hcut s hs)
      fun _ _ _ _ => ⟨_, rfl, rfl⟩
  · exact computes_one (F := fun a => Eval.truncate ty a) hargs h0 (fun s hs _ => hcut s hs)
      fun _ _ _ _ => ⟨_, rfl, rfl⟩

theorem computes_shift (hop : op.kind = .shift) (hty : ty.isInt = true) {amount : Ty}
    (hargs : c.ArgsPlaced i) (h0 : Meaning.argTy? c.fragment i 0 = some ty)
    (h1 : Meaning.argTy? c.fragment i 1 = some amount) (htarget : c.target? i = .ok (some h)) :
    c.Computes i op ty h := by
  have hshift (o : ShiftOp) (hlines : c.operation i op ty = c.shift i ty o)
      (hvalue : ∀ a b d, Eval.compute op ty ty amount a b d = .ok (o.apply true
        (if o = .sar then (Eval.signed ty a).toUInt64 else a) b.toUInt8)) : c.Computes i op ty h :=
    computes_two (F := fun a b => Eval.truncate ty (o.apply true
      (if o = .sar then (Eval.signed ty a).toUInt64 else a) b.toUInt8)) hargs h0 h1
      (fun s t hs ht _ => hlines ▸ gives_shift o hty hs ht htarget)
      fun a b d => ⟨_, hvalue a b d, rfl⟩
  cases op with
  | shl =>
    refine hshift .shl rfl fun a b d => ?_
    change _ = Except.ok (a <<< (b.toUInt8.toUInt64 &&& 63))
    rw [count_wide]
    rfl
  | lshr =>
    refine hshift .shr rfl fun a b d => ?_
    change _ = Except.ok (a >>> (b.toUInt8.toUInt64 &&& 63))
    rw [count_wide]
    rfl
  | ashr =>
    refine hshift .sar rfl fun a b d => ?_
    change _ = Except.ok (Eval.signed ty a >>> (b.toUInt8.toUInt64 &&& 63).toInt64).toUInt64
    rw [count_wide]
    rfl
  | _ => cases hop

theorem computes_shiftSigned (hop : op.kind = .shiftSigned) {amount : Ty}
    (hargs : c.ArgsPlaced i) (h0 : Meaning.argTy? c.fragment i 0 = some .i32)
    (h1 : Meaning.argTy? c.fragment i 1 = some amount) (htarget : c.target? i = .ok (some h)) :
    c.Computes i op .i32 h := by
  have hshift (hlines : c.operation i op .i32 = c.shiftSigned i op)
      (hvalue : ∀ a b d, Eval.compute op .i32 .i32 amount a b d =
        .ok (Eval.shiftSigned a.toUInt32 b.toUInt32 (op == .ashd)).toUInt64) :
          c.Computes i op .i32 h :=
    computes_two (F := fun a b => Eval.truncate .i32
      (Eval.shiftSigned a.toUInt32 b.toUInt32 (op == .ashd)).toUInt64) hargs h0 h1
      (fun s t hs ht _ => hlines ▸ gives_shiftSigned op hs ht htarget)
      fun a b d => ⟨_, hvalue a b d, rfl⟩
  cases op with
  | ashd => exact hshift rfl fun _ _ _ => rfl
  | lshd => exact hshift rfl fun _ _ _ => rfl
  | _ => cases hop

theorem computes_compare (hop : op.kind = .compare) (hty : ty.isInt = true)
    (hargs : c.ArgsPlaced i) (h0 : Meaning.argTy? c.fragment i 0 = some ty)
    (h1 : Meaning.argTy? c.fragment i 1 = some ty) (htarget : c.target? i = .ok (some h)) :
    c.Computes i op .i8 h := by
  have hbit (p : Bool) : p.toUInt64 = Eval.truncate .i8 p.toUInt64 := by
    cases p <;> rfl
  have hlines (hargTy : c.argTy i 0 = .ok ty) : c.operation i op .i8 = c.compare i op ty := by
    cases op with
    | cmpEq | cmpNe | cmpSge | cmpSgt | cmpUge | cmpUgt | cmpSle | cmpSlt | cmpUle | cmpUlt =>
      unfold operation
      simp only [hargTy]
      rfl
    | _ => cases hop
  exact computes_two (F := fun a b => ((conditionOf op).1.holds (ArithOp.cmp.apply true
    (compared op ty a) (compared op ty b)).2).toUInt64) hargs h0 h1
    (fun s t hs ht hargTy => hlines hargTy ▸ gives_compare op hty hs ht htarget)
    fun a b d => ⟨_, compute_compare hop .i8 ty a b d, hbit _⟩

theorem computes_select (hargs : c.ArgsPlaced i) {src : Ty}
    (h0 : Meaning.argTy? c.fragment i 0 = some src) (h1 : Meaning.argTy? c.fragment i 1 = some ty)
    (h2 : Meaning.argTy? c.fragment i 2 = some ty) (htarget : c.target? i = .ok (some h)) :
    c.Computes i .select ty h := by
  obtain ⟨s, hs, -, -, -⟩ := exists_typed hargs h0
  obtain ⟨t, ht, -, -, hfits₁⟩ := exists_typed hargs h1
  obtain ⟨u, hu, -, -, hfits₂⟩ := exists_typed hargs h2
  refine ⟨_, gives_select ty hs ht hu htarget, fun σ m hm => ?_⟩
  rw [hargs.apply_eq, hs.bits_eq, ht.bits_eq, hu.bits_eq]
  refine ⟨_, rfl, ?_⟩
  split
  · exact (hfits₁ m hm).symm
  · exact (hfits₂ m hm).symm

/-- Every integer operation that can be built computes what it says, whatever its types. -/
theorem computes_operation (hop : isIntegral op = true)
    (hty : Meaning.accepts op (some ty) (Meaning.argTy? c.fragment i 0)
      (Meaning.argTy? c.fragment i 1) (Meaning.argTy? c.fragment i 2) = true)
    (hargs : c.ArgsPlaced i) (htarget : c.target? i = .ok (some h)) :
    ty.isVector = false ∧ c.Computes i op ty h := by
  have hint {t : Ty} (ht : t.isInt = true) : t.isVector = false := by
    cases t <;> first | rfl | cases ht
  have hany {o : Option Ty} {p : Ty → Bool} (h : o.any p = true) :
    ∃ t, o = some t ∧ p t = true := by
    cases o with
    | none => cases h
    | some t => exact ⟨t, rfl, h⟩
  unfold Meaning.accepts at hty
  cases hkind : op.kind with
  | intBinary =>
    simp only [hkind, Bool.and_eq_true, beq_iff_eq] at hty
    obtain ⟨⟨⟨hty, h1⟩, -⟩, h0⟩ := hty
    rw [← h0] at h1 hty
    exact ⟨hint hty, computes_intBinary hkind hty hargs h0.symm h1 htarget⟩
  | intUnary =>
    simp only [hkind, Bool.and_eq_true, beq_iff_eq] at hty
    obtain ⟨⟨⟨hty, -⟩, -⟩, h0⟩ := hty
    rw [← h0] at hty
    exact ⟨hint hty, computes_intUnary hkind hty hargs h0.symm htarget⟩
  | shift =>
    simp only [hkind, Bool.and_eq_true, beq_iff_eq] at hty
    obtain ⟨⟨⟨hty, h1⟩, -⟩, h0⟩ := hty
    obtain ⟨amount, h1, -⟩ := hany h1
    rw [← h0] at hty
    exact ⟨hint hty, computes_shift hkind hty hargs h0.symm h1 htarget⟩
  | shiftSigned =>
    simp only [hkind, Bool.and_eq_true, beq_iff_eq] at hty
    obtain ⟨⟨⟨hty, h1⟩, -⟩, h0⟩ := hty
    obtain ⟨amount, h1, -⟩ := hany h1
    rw [hty] at h0
    cases h0
    exact ⟨rfl, computes_shiftSigned hkind hargs hty h1 htarget⟩
  | compare =>
    simp only [hkind, Bool.and_eq_true, beq_iff_eq] at hty
    obtain ⟨⟨⟨hty, h1⟩, -⟩, h0⟩ := hty
    obtain ⟨src, hsrc, hint⟩ := hany hty
    rw [hsrc] at h1
    cases h0
    exact ⟨rfl, computes_compare hkind hint hargs hsrc h1 htarget⟩
  | select =>
    simp only [hkind, Bool.and_eq_true, beq_iff_eq] at hty
    obtain ⟨⟨⟨h0, -⟩, h2⟩, h1⟩ := hty
    obtain ⟨src, h0, -⟩ := hany h0
    rw [← h1] at h2
    obtain rfl : op = .select := by
      cases op <;> first | rfl | cases hkind
    have hvector : ty.isVector = false := by
      obtain ⟨v, harg, hv⟩ := Option.map_eq_some_iff.mp h1.symm
      exact hv ▸ isVector_of_number (hargs 1 v harg).1
    exact ⟨hvector, computes_select hargs h0 h1.symm h2 htarget⟩
  | convert =>
    have hconvert : op = .sext ∨ op = .zext ∨ op = .trunc := by
      cases op <;> first | cases hkind; done | cases hop; done | simp
    simp only [hkind, Bool.and_eq_true] at hty
    obtain ⟨src, h0, hdst⟩ := hany hty.1.1
    have htypes : src.isInt = true ∧ ty.isInt = true := by
      rcases hconvert with rfl | rfl | rfl <;> simpa [Build.converts] using hdst
    exact ⟨hint htypes.2, computes_convert hconvert htypes.1 hargs h0 htarget⟩
  | _ => cases op <;> first | cases hop; done | cases hkind

/-- Run from its start, the code of an integer operation comes to its end. It leaves what the
operation computes, cut to the type of the result, in the register of the result, and changes no
other allocatable register and no memory. -/
theorem integral_code_computes {c : Lowering} {i : InstrId} {v : ValueId} {h : HostReg}
    (hop : isIntegral (c.fragment.instr i).op = true)
    (hty : Meaning.accepts (c.fragment.instr i).op ((c.fragment.instr i).result.map c.fragment.ty)
      (Meaning.argTy? c.fragment i 0) (Meaning.argTy? c.fragment i 1)
      (Meaning.argTy? c.fragment i 2) = true)
    (hargs : c.ArgsPlaced i) (hresult : (c.fragment.instr i).result = some v)
    (hplace : place? c.fragment v = some h) :
    ∃ lines, c.instr i = .ok lines ∧
      ∀ (σ : Type) (g : Guest σ) (code : CodeBuffer) (m : Machine σ),
        Stands code m.pos lines → c.Extended i m → ∃ z m',
          Eval.apply (c.fragment.instr i).op (c.fragment.ty v)
            (Interp.argTy c.fragment (c.fragment.instr i) 0)
            (Interp.argTy c.fragment (c.fragment.instr i) 1)
            (Meaning.argBits c.fragment (hosts c.fragment) m (c.fragment.instr i) 0)
            (Meaning.argBits c.fragment (hosts c.fragment) m (c.fragment.instr i) 1)
            (Meaning.argBits c.fragment (hosts c.fragment) m (c.fragment.instr i) 2) = .ok z ∧
          Reaches g code m m' ∧ m'.pos = m.pos + lines.size ∧
          Delivers h (Eval.truncate (c.fragment.ty v) z) m m' := by
  rw [hresult] at hty
  have htarget := target?_eq hresult hplace
  obtain ⟨hvector, y, ⟨lines, hlines, hruns⟩, hvalue⟩ := computes_operation hop hty hargs htarget
  have hinstr : c.instr i = .ok lines := by
    unfold instr
    simp only [hresult, hvector, Bool.false_eq_true, if_false]
    exact hlines
  refine ⟨lines, hinstr, fun σ g code m hstands hextended => ?_⟩
  obtain ⟨z, happly, hz⟩ := hvalue σ m hextended
  obtain ⟨m', hrun, hdelivers⟩ := hruns σ g m
  have hwalk : walk g none lines m = some m' := by
    have hnil := hrun.walks []
    rwa [List.append_nil] at hnil
  have hreaches := hstands.reaches (c.forward_instr i lines hinstr) hrun.plain [] lines rfl hwalk
  rw [hz] at hdelivers
  exact ⟨z, m'.moved (m.pos + lines.size), happly, hreaches, rfl, hdelivers.moved _⟩

/-- A word in `rbx` less a constant. -/
def difference : Fragment where
  values := #[⟨.i32, .result ⟨0⟩, some 0, []⟩, ⟨.i32, .constant (.i32 7), none, []⟩,
    ⟨.i32, .result ⟨1⟩, some 2, []⟩]
  instrs := #[{ op := .loadContext, result := some ⟨0⟩, block := ⟨0⟩ },
    { op := .sub, args := IR.slots (some ⟨0⟩) (some ⟨1⟩), result := some ⟨2⟩, block := ⟨0⟩ }]

/-- The instructions of the difference. -/
def differenceCode : List Instruction :=
  [.mov true tmp0 Gpr.rbx, .movImm tmp1 7, .arith .sub true tmp0 tmp1, .mov false tmp0 tmp0,
   .mov true Gpr.r12 tmp0]

/-- Five less seven wraps to the width of a word. -/
theorem integral_code_computes_difference :
    let code :=
      ({ capacity := 4096 } : CodeBuffer).place 0 (differenceCode.flatMap Instruction.bytes)
    let m : Machine Unit := (Machine.entry 0 Pass.nowhere).setGpr Gpr.rbx 5
    ∃ m', Reaches Pass.mute code m m' ∧ m'.pos = 16 ∧ m'.gpr Gpr.r12 = 0xfffffffe ∧
      m'.gpr Gpr.rbx = 5 := by
  intro code m
  let c : Lowering :=
    { fragment := difference, offsets := ⟨0, 4, 8, 12⟩, frame := ⟨0, 72⟩, exits := [],
      saveXmms := false }
  have hfive : m.gpr Gpr.rbx = 5 := gpr_setGpr_self ..
  have hall : ∀ n, ∀ v ∈ (difference.instr ⟨1⟩).arg n, v = ⟨0⟩ ∨ v = ⟨1⟩ := by decide
  have hargs : c.ArgsPlaced ⟨1⟩ := by
    intro n v hv
    rcases hall n v hv with rfl | rfl
    · exact ⟨rfl, rfl⟩
    · exact ⟨rfl, rfl⟩
  have hextended : c.Extended ⟨1⟩ m := by
    intro n v hv
    rcases hall n v hv with rfl | rfl
    · change Eval.truncate .i32 (m.gpr Gpr.rbx) = m.gpr Gpr.rbx
      rw [hfive]
      rfl
    · change Eval.truncate .i32 7 = 7
      rfl
  obtain ⟨lines, hlines, hruns⟩ := integral_code_computes (c := c) (i := ⟨1⟩) (v := ⟨2⟩)
    (h := .gpr Gpr.r12) rfl rfl hargs rfl rfl
  obtain rfl : lines = differenceCode.map .instr := by
    have hsame : c.instr ⟨1⟩ = .ok (differenceCode.map .instr) := rfl
    exact Except.ok.inj (hlines.symm.trans hsame)
  have hstands : Stands code m.pos (differenceCode.map .instr) :=
    stands_of_instrs (CodeBuffer.view_place _ 0 _)
  obtain ⟨z, m', hz, hreaches, hpos, hdelivers⟩ := hruns Unit Pass.mute code m hstands hextended
  have hz : Except.ok (m.gpr Gpr.rbx - 7) = Except.ok z := hz
  have hresult : m'.gpr Gpr.r12 = Eval.truncate .i32 z := hdelivers.result
  have hkept : m'.gpr Gpr.rbx = m.gpr Gpr.rbx :=
    hdelivers.others (.gpr Gpr.rbx) (place?_mem (f := difference) (v := ⟨0⟩) rfl) (by decide)
  rw [hfive] at hz hkept
  cases hz
  have hsize : Assembly.size (differenceCode.map .instr) = 16 := by decide +kernel
  exact ⟨m', hreaches, hpos.trans hsize, hresult, hkept⟩

end Lowering
end Recompiler.X64
