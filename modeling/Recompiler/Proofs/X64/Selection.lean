import Recompiler.Proofs.Interp.Lowering
import Recompiler.X64.Lower

/-!
The shape of the code of one operation. Its jumps leave for a block or the way out, or they skip
code of the same operation: the label they name stands further down, and nowhere else.
-/
namespace Recompiler.X64

open IR

/-- Jumps by a distance. -/
def Instruction.isJump : Instruction → Bool
  | jump _ | jumpIf .. => true
  | _ => false

/-- A line that is no label, and no jump within an operation. -/
def Line.isOutward : Line → Bool
  | .instr i => !i.isJump
  | .jump _ (.inside ..) => false
  | .jump .. => true
  | .label _ => false

namespace Assembly

/-- Code without labels whose jumps lead out of the operation. -/
def Outward (a : Assembly) : Prop := ∀ l ∈ a, l.isOutward = true

/-- Code of one operation: its labels are its own and stand once, and the jumps to them skip
forward. -/
def Forward (i : InstrId) : Assembly → Prop
  | [] => True
  | .instr j :: rest => j.isJump = false ∧ Forward i rest
  | .label l :: rest => (∃ n, l = .inside i n) ∧ .label l ∉ rest ∧ Forward i rest
  | .jump _ (.inside j n) :: rest => j = i ∧ .label (.inside i n) ∈ rest ∧ Forward i rest
  | .jump _ (.block _) :: rest => Forward i rest
  | .jump _ .epilogue :: rest => Forward i rest

variable {a a' : Assembly} {i : InstrId}

theorem outward_nil : Outward [] := fun _ h => absurd h List.not_mem_nil

theorem Outward.cons {l : Line} (hl : l.isOutward = true) (h : Outward a) : Outward (l :: a) :=
  List.forall_mem_cons.mpr ⟨hl, h⟩

theorem Outward.append (h : Outward a) (h' : Outward a') : Outward (a ++ a') :=
  List.forall_mem_append.mpr ⟨h, h'⟩

theorem Outward.ite {p : Prop} [Decidable p] (h : Outward a) (h' : Outward a') :
    Outward (if p then a else a') := by
  split
  · exact h
  · exact h'

theorem Outward.flatMap {α : Type} {xs : List α} {f : α → Assembly} (h : ∀ x ∈ xs, Outward (f x)) :
    Outward (xs.flatMap f) := fun l hl => by
  obtain ⟨x, hx, hl⟩ := List.mem_flatMap.mp hl
  exact h x hx l hl

theorem Outward.map {α : Type} {xs : List α} {f : α → Line}
    (h : ∀ x ∈ xs, (f x).isOutward = true) : Outward (xs.map f) := fun l hl => by
  obtain ⟨x, hx, rfl⟩ := List.mem_map.mp hl
  exact h x hx

theorem Outward.label_not_mem (h : Outward a) (l : Label) : .label l ∉ a := fun hl =>
  absurd (h _ hl) Bool.false_ne_true

/-- Outward code in front changes nothing. -/
theorem Outward.forward_append (h : Outward a) (h' : Forward i a') : Forward i (a ++ a') := by
  induction a with
  | nil => exact h'
  | cons l a ih =>
    obtain ⟨hl, hrest⟩ := List.forall_mem_cons.mp h
    match l with
    | .instr j => exact ⟨by simpa [Line.isOutward] using hl, ih hrest⟩
    | .jump _ (.block _) => exact ih hrest
    | .jump _ .epilogue => exact ih hrest

theorem Outward.forward (h : Outward a) : Forward i a := by
  rw [← List.append_nil a]
  exact h.forward_append trivial

/-- Outward code behind changes nothing. -/
theorem Forward.append (h : Forward i a) (h' : Outward a') : Forward i (a ++ a') := by
  induction a with
  | nil => exact h'.forward
  | cons l a ih =>
    match l with
    | .instr j => exact ⟨h.1, ih h.2⟩
    | .jump _ (.block _) => exact ih h
    | .jump _ .epilogue => exact ih h
    | .jump _ (.inside _ _) => exact ⟨h.1, List.mem_append_left _ h.2.1, ih h.2.2⟩
    | .label l =>
      refine ⟨h.1, fun hl => ?_, ih h.2.2⟩
      exact (List.mem_append.mp hl).elim h.2.1 (h'.label_not_mem l)

theorem Forward.of_append (h : Forward i (a ++ a')) : Forward i a' := by
  induction a with
  | nil => exact h
  | cons l a ih =>
    match l with
    | .instr _ => exact ih h.2
    | .jump _ (.block _) => exact ih h
    | .jump _ .epilogue => exact ih h
    | .jump _ (.inside _ _) => exact ih h.2.2
    | .label _ => exact ih h.2.2

theorem Forward.instr (h : Forward i a) {j : Instruction} (hj : .instr j ∈ a) :
    j.isJump = false := by
  obtain ⟨x, y, rfl⟩ := List.append_of_mem hj
  exact h.of_append.1

/-- A jump within the operation skips code up to its label. -/
theorem Forward.skips {x y : Assembly} {cond : Option Cond} {j : InstrId} {n : Nat}
    (h : Forward i (x ++ .jump cond (.inside j n) :: y)) : j = i ∧ .label (.inside i n) ∈ y :=
  ⟨h.of_append.1, h.of_append.2.1⟩

theorem Forward.label (h : Forward i a) {l : Label} (hl : .label l ∈ a) : ∃ n, l = .inside i n := by
  obtain ⟨x, y, rfl⟩ := List.append_of_mem hl
  exact h.of_append.1

/-- A label stands once. -/
theorem Forward.once {x y : Assembly} {l : Label} (h : Forward i (x ++ .label l :: y)) :
    .label l ∉ x ∧ .label l ∉ y := by
  refine ⟨fun hl => ?_, h.of_append.2.1⟩
  obtain ⟨u, v, rfl⟩ := List.append_of_mem hl
  rw [List.append_assoc] at h
  exact h.of_append.2.1 (List.mem_append_right v List.mem_cons_self)

end Assembly

/-- All results have the property. -/
def Yields {ε α : Type} (P : α → Prop) (x : Except ε α) : Prop := ∀ a, x = .ok a → P a

section
variable {ε α β : Type} {P : α → Prop} {Q : β → Prop} {x : Except ε α} {f : α → Except ε β}

theorem yields_ok {a : α} (h : P a) : Yields P (.ok a : Except ε α) := fun _ e => by
  cases e
  exact h

theorem yields_error (e : ε) : Yields P (.error e : Except ε α) := fun _ h => nomatch h

theorem Yields.bind (hx : Yields P x) (hf : ∀ {a}, P a → Yields Q (f a)) : Yields Q (x >>= f) :=
  fun b h => by
    obtain ⟨a, ha, h⟩ := Interp.bind_eq_ok h
    exact hf (hx a ha) b h

/-- A step whose result does not matter. -/
theorem yields_bind (hf : ∀ a, Yields Q (f a)) : Yields Q (x >>= f) := fun b h => by
  obtain ⟨a, -, h⟩ := Interp.bind_eq_ok h
  exact hf a b h

theorem Yields.mono {P' : α → Prop} (h : Yields P x) (hp : ∀ a, P a → P' a) : Yields P' x :=
  fun a ha => hp a (h a ha)

end

open Assembly

/-! ### Parts that only compute or leave -/

theorem outward_loadSource (dst : Gpr) (s : Source) : Outward (loadSource dst s) := by
  match s with
  | .imm bits => exact outward_nil.cons rfl
  | .reg (.gpr r) => exact Outward.ite outward_nil (outward_nil.cons rfl)
  | .reg (.xmm x) => exact outward_nil.cons rfl

theorem outward_loadXmmSource (dst : Xmm) (s : Source) : Outward (loadXmmSource dst s) := by
  match s with
  | .imm bits => exact (outward_nil.cons rfl).cons rfl
  | .reg (.gpr r) => exact outward_nil.cons rfl
  | .reg (.xmm x) => exact Outward.ite outward_nil (outward_nil.cons rfl)

theorem outward_zeroExtend (ty : Ty) (reg : Gpr) : Outward (zeroExtend ty reg) := by
  unfold zeroExtend
  split <;> first | exact outward_nil.cons rfl | exact outward_nil

theorem outward_signExtend (ty : Ty) (reg : Gpr) : Outward (signExtend ty reg) := by
  unfold signExtend
  split <;> first | exact outward_nil.cons rfl | exact outward_nil

namespace Lowering

variable (c : Lowering) (i : InstrId)

theorem outward_loadGpr (op : Opcode) (dst : Gpr) (v : ValueId) :
    Yields Outward (c.loadGpr op dst v) :=
  yields_bind fun s => yields_ok (outward_loadSource dst s)

theorem outward_loadXmm (op : Opcode) (dst : Xmm) (v : ValueId) :
    Yields Outward (c.loadXmm op dst v) :=
  yields_bind fun s => yields_ok (outward_loadXmmSource dst s)

theorem outward_argGpr (n : Slot) (dst : Gpr) : Yields Outward (c.argGpr i n dst) :=
  yields_bind fun v => c.outward_loadGpr _ dst v

theorem outward_argXmm (n : Slot) (dst : Xmm) : Yields Outward (c.argXmm i n dst) :=
  yields_bind fun v => c.outward_loadXmm _ dst v

theorem outward_setResult (src : Gpr) : Yields Outward (c.setResult i src) :=
  yields_bind fun r => by
    match r with
    | some (.gpr r) => exact yields_ok (outward_nil.cons rfl)
    | some (.xmm x) => exact yields_ok (outward_nil.cons rfl)
    | none => exact yields_ok outward_nil

theorem outward_setResultXmm (src : Xmm) : Yields Outward (c.setResultXmm i src) :=
  yields_bind fun r => by
    match r with
    | some (.gpr r) => exact yields_ok (outward_nil.cons rfl)
    | some (.xmm x) => exact yields_ok (Outward.ite outward_nil (outward_nil.cons rfl))
    | none => exact yields_ok outward_nil

theorem outward_spillXmms (op : SseOp) : Outward (c.spillXmms op) :=
  Outward.ite (Outward.map fun _ _ => rfl) outward_nil

theorem outward_callThunk (t : Thunk) (args : List Source) : Outward (c.callThunk t args) := by
  unfold callThunk
  have hsave := c.outward_spillXmms (.store true)
  have hrestore := c.outward_spillXmms (.load true)
  refine Outward.append (Outward.append (Outward.append (hsave.append (outward_nil.cons rfl)) ?_)
    ((outward_nil.cons rfl).cons rfl)) hrestore
  exact Outward.flatMap fun x _ => outward_loadSource x.1 x.2

theorem outward_leave (number : UInt64) : Outward (leave number) :=
  (outward_nil.cons rfl).cons rfl

theorem outward_goto (op : Opcode) (target : ValueId) : Yields Outward (c.goto op target) := by
  unfold goto
  split
  · exact yields_ok (outward_nil.cons rfl)
  · exact yields_bind fun slot => yields_ok ((outward_nil.cons rfl).append (outward_leave _))
  · exact (c.outward_loadGpr op tmp1 target).bind fun ha =>
      yields_ok ((ha.append (outward_nil.cons rfl)).append (outward_leave _))

theorem outward_loadMem (ty : Ty) (base : Gpr) (offset : Int32) :
    Yields Outward (c.loadMem i ty base offset) := by
  unfold loadMem
  split
  · exact (c.outward_setResultXmm i xtmp0).bind fun hr =>
      yields_ok ((outward_nil.cons rfl).append hr)
  · exact (c.outward_setResult i tmp0).bind fun hr =>
      yields_ok ((outward_nil.cons rfl).append hr)

theorem outward_storeMem (op : Opcode) (v : ValueId) (base : Gpr) (offset : Int32) :
    Yields Outward (c.storeMem op v base offset) := by
  unfold storeMem
  dsimp only
  split
  · exact (c.outward_loadXmm op xtmp0 v).bind fun ha =>
      yields_ok (ha.append (outward_nil.cons rfl))
  · exact (c.outward_loadGpr op tmp1 v).bind fun ha =>
      yields_ok (ha.append (outward_nil.cons rfl))

theorem outward_intUnary (ty : Ty) {body : Assembly} (hbody : Outward body) :
    Yields Outward (c.intUnary i ty body) :=
  (c.outward_argGpr i 0 tmp0).bind fun hx => (c.outward_setResult i tmp0).bind fun hr =>
    yields_ok (((hx.append hbody).append (outward_zeroExtend ty tmp0)).append hr)

theorem outward_intBinary (ty : Ty) {f : Gpr → Gpr → Instruction}
    (hf : (f tmp0 tmp1).isJump = false) : Yields Outward (c.intBinary i ty f) :=
  (c.outward_argGpr i 0 tmp0).bind fun hx => (c.outward_argGpr i 1 tmp1).bind fun hy =>
    (c.outward_setResult i tmp0).bind fun hr => yields_ok
      ((((hx.append hy).append (outward_nil.cons (by simp [Line.isOutward, hf]))).append
        (outward_zeroExtend ty tmp0)).append hr)

theorem outward_floatBinary (ty : Ty) (op : FloatOp) : Yields Outward (c.floatBinary i ty op) :=
  (c.outward_argXmm i 0 xtmp0).bind fun hx => (c.outward_argXmm i 1 xtmp1).bind fun hy =>
    (c.outward_setResultXmm i xtmp0).bind fun hr =>
      yields_ok (((hx.append hy).append (outward_nil.cons rfl)).append hr)

theorem outward_signBit (op : ArithOp) (mask : UInt64) : Yields Outward (c.signBit i op mask) :=
  (c.outward_argGpr i 0 tmp0).bind fun hx => (c.outward_setResult i tmp0).bind fun hr =>
    yields_ok ((hx.append ((outward_nil.cons rfl).cons rfl)).append hr)

theorem outward_shift (ty : Ty) (op : ShiftOp) : Yields Outward (c.shift i ty op) :=
  (c.outward_argGpr i 0 tmp0).bind fun hx => (c.outward_argGpr i 1 tmp1).bind fun hy =>
    (c.outward_setResult i tmp0).bind fun hr => yields_ok
      (((((hx.append hy).append (Outward.ite (outward_signExtend ty tmp0) outward_nil)).append
        (outward_nil.cons rfl)).append (outward_zeroExtend ty tmp0)).append hr)

theorem outward_compare (op : Opcode) (ty : Ty) : Yields Outward (c.compare i op ty) := by
  have hextend : Outward (if (conditionOf op).2 then signExtend ty tmp0 ++ signExtend ty tmp1
      else []) :=
    Outward.ite ((outward_signExtend ty tmp0).append (outward_signExtend ty tmp1)) outward_nil
  exact (c.outward_argGpr i 0 tmp0).bind fun hx => (c.outward_argGpr i 1 tmp1).bind fun hy =>
    (c.outward_setResult i tmp0).bind fun hr => yields_ok
      ((((hx.append hy).append hextend).append
        (((outward_nil.cons rfl).cons rfl).cons rfl)).append hr)

theorem outward_floatTest (op : Opcode) (ty : Ty) : Outward (floatTest op ty) := by
  unfold floatTest
  dsimp only
  split <;> exact fun l hl => by
    simp only [List.mem_cons, List.not_mem_nil, or_false] at hl
    rcases hl with rfl | rfl | rfl | rfl | rfl | rfl <;> rfl

/-! ### Operations that skip code -/

theorem forward_select (ty : Ty) : Yields (Forward i) (c.select i ty) := by
  refine yields_bind fun cond => yields_bind fun t => yields_bind fun f => ?_
  split
  · exact (c.outward_loadXmm .select xtmp0 f).bind fun hf =>
      (c.outward_loadGpr .select tmp2 cond).bind fun hcond =>
      (c.outward_loadXmm .select xtmp0 t).bind fun ht =>
      (c.outward_setResultXmm i xtmp0).bind fun hr => yields_ok (by
        simp only [List.append_assoc, List.cons_append, List.nil_append]
        refine hf.forward_append (hcond.forward_append ⟨rfl, rfl, by simp, ?_⟩)
        exact ht.forward_append ⟨⟨0, rfl⟩, hr.label_not_mem _, hr.forward⟩)
  · exact (c.outward_loadGpr .select tmp1 t).bind fun ht =>
      (c.outward_loadGpr .select tmp2 f).bind fun hf =>
      (c.outward_loadGpr .select tmp0 cond).bind fun hcond =>
      (c.outward_setResult i tmp1).bind fun hr => yields_ok
        ((((ht.append hf).append hcond).append ((outward_nil.cons rfl).cons rfl)).append hr).forward

theorem forward_divide (ty : Ty) : Yields (Forward i) (c.divide i ty) :=
  (c.outward_argGpr i 0 tmp0).bind fun hx => (c.outward_argGpr i 1 tmp1).bind fun hy =>
    (c.outward_setResult i tmp0).bind fun hr => yields_ok (by
      have hhead := ((hx.append hy).append (outward_signExtend ty tmp0)).append
        (outward_signExtend ty tmp1)
      refine ((hhead.forward_append ?_).append (outward_zeroExtend ty tmp0)).append hr
      simp [Forward, Instruction.isJump])

theorem forward_shiftSigned (op : Opcode) : Yields (Forward i) (c.shiftSigned i op) :=
  (c.outward_argGpr i 0 tmp0).bind fun hx => (c.outward_argGpr i 1 tmp1).bind fun hy =>
    (c.outward_setResult i tmp0).bind fun hr => yields_ok (by
      refine (((hx.append hy).forward_append ?_).append (outward_zeroExtend .i32 tmp0)).append hr
      cases op == Opcode.ashd <;> simp [Forward, Instruction.isJump])

theorem forward_branchIf (op : Opcode) : Yields (Forward i) (c.branchIf i op) := by
  refine (c.outward_argGpr i 0 tmp0).bind fun hx => yields_bind fun target => ?_
  have hhead := hx.append (outward_nil.cons (l := .instr (.test true tmp0 tmp0)) rfl)
  split
  · exact yields_ok (hhead.append (outward_nil.cons rfl)).forward
  · refine (c.outward_goto op target).bind fun hgoto => yields_ok ?_
    simp only [List.append_assoc]
    rw [← List.append_assoc]
    refine hhead.forward_append ⟨rfl, by simp, ?_⟩
    exact hgoto.forward_append ⟨⟨0, rfl⟩, List.not_mem_nil, trivial⟩

theorem forward_operation (op : Opcode) (ty : Ty) : Yields (Forward i) (c.operation i op ty) := by
  have outward {x : Assembling Assembly} (h : Yields Outward x) : Yields (Forward i) x :=
    h.mono fun _ h => h.forward
  unfold operation
  cases op with
  | select => exact c.forward_select i ty
  | div => exact c.forward_divide i ty
  | ashd | lshd => exact c.forward_shiftSigned i _
  | branchTrue | branchFalse => exact c.forward_branchIf i _
  | branch => exact outward (yields_bind fun v => c.outward_goto _ v)
  | sourceInfo =>
    exact outward (yields_bind fun n => yields_ok ((outward_nil.cons rfl).cons rfl))
  | fallback =>
    exact outward
      (yields_bind fun _ => yields_bind fun _ => yields_bind fun _ => yields_bind fun _ =>
      yields_bind fun _ => yields_bind fun _ => yields_ok (c.outward_callThunk _ _))
  | call => exact outward (yields_bind fun _ => yields_ok (c.outward_callThunk _ _))
  | loadGuest =>
    exact outward (yields_bind fun _ => yields_bind fun _ => (c.outward_setResult i tmp0).bind
      fun hr =>
        yields_ok (((c.outward_callThunk _ _).append (outward_zeroExtend ty tmp0)).append hr))
  | storeGuest =>
    exact outward
      (yields_bind fun _ => yields_bind fun _ => yields_bind fun _ => yields_bind fun _ =>
      yields_bind fun _ => yields_ok (c.outward_callThunk _ _))
  | loadHost =>
    exact outward ((c.outward_argGpr i 0 tmp2).bind fun hx => (c.outward_loadMem i ty tmp2 0).bind
      fun hm => yields_ok (hx.append hm))
  | storeHost =>
    exact outward ((c.outward_argGpr i 0 tmp2).bind fun hx => yields_bind fun v =>
      (c.outward_storeMem _ v tmp2 0).bind fun hm => yields_ok (hx.append hm))
  | loadContext => exact outward (yields_bind fun n => c.outward_loadMem i ty ctxReg n)
  | storeContext =>
    exact outward (yields_bind fun n => yields_bind fun v => c.outward_storeMem _ v ctxReg n)
  | loadLocal => exact outward (yields_bind fun n => c.outward_loadMem i ty Gpr.rsp n)
  | storeLocal =>
    exact outward (yields_bind fun n => yields_bind fun v => c.outward_storeMem _ v Gpr.rsp n)
  | ftoi =>
    exact outward ((c.outward_argXmm i 0 xtmp0).bind fun hx => yields_bind fun _ =>
      (c.outward_setResult i tmp0).bind fun hr => yields_ok
        (((hx.append (outward_nil.cons rfl)).append (outward_zeroExtend ty tmp0)).append hr))
  | itof =>
    exact outward ((c.outward_argGpr i 0 tmp0).bind fun hx => yields_bind fun t =>
      (c.outward_setResultXmm i xtmp0).bind fun hr => yields_ok
        (((hx.append (outward_signExtend t tmp0)).append (outward_nil.cons rfl)).append hr))
  | sext =>
    exact outward (yields_bind fun t => c.outward_intUnary i ty (outward_signExtend t tmp0))
  | zext | trunc => exact outward (c.outward_intUnary i ty outward_nil)
  | fext | ftrunc =>
    exact outward ((c.outward_argXmm i 0 xtmp0).bind fun hx => (c.outward_setResultXmm i xtmp0).bind
      fun hr => yields_ok ((hx.append (outward_nil.cons rfl)).append hr))
  | cmpEq | cmpNe | cmpSge | cmpSgt | cmpUge | cmpUgt | cmpSle | cmpSlt | cmpUle | cmpUlt =>
    exact outward (yields_bind fun t => c.outward_compare i _ t)
  | fcmpEq | fcmpNe | fcmpGe | fcmpGt | fcmpLe | fcmpLt =>
    exact outward (yields_bind fun t => (c.outward_argXmm i 0 xtmp0).bind fun hx =>
      (c.outward_argXmm i 1 xtmp1).bind fun hy => (c.outward_setResult i tmp0).bind fun hr =>
        yields_ok (((hx.append hy).append (outward_floatTest _ t)).append hr))
  | add | sub | and | or | xor | smul | umul => exact outward (c.outward_intBinary i ty rfl)
  | neg | not => exact outward (c.outward_intUnary i ty (outward_nil.cons rfl))
  | abs =>
    exact outward (c.outward_intUnary i ty ((outward_signExtend ty tmp0).append
      (((outward_nil.cons rfl).cons rfl).cons rfl)))
  | fadd | fsub | fmul | fdiv => exact outward (c.outward_floatBinary i ty _)
  | sqrt =>
    exact outward ((c.outward_argXmm i 0 xtmp0).bind fun hx => (c.outward_setResultXmm i xtmp0).bind
      fun hr => yields_ok ((hx.append (outward_nil.cons rfl)).append hr))
  | fneg | fabs => exact outward (c.outward_signBit i _ _)
  | shl | lshr | ashr => exact outward (c.outward_shift i ty _)

theorem forward_instr : Yields (Forward i) (c.instr i) := by
  have hany (op : Opcode) (ty : Ty) : Yields (Forward i)
      (if ty.isVector then Assembling.unsupported op.name ty else c.operation i op ty) := by
    split
    · exact yields_error _
    · exact c.forward_operation i op ty
  exact hany _ _

end Lowering
end Recompiler.X64
