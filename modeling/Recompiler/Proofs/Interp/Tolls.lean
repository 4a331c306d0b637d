import Recompiler.Proofs.Allocation.Tolls
import Recompiler.Proofs.Interp.Exits
import Recompiler.Proofs.Pass.Tolls

/-!
Register code of a fragment with a toll. It always leaves, within as many steps as it has
operations, and what it counts down is the toll, unless a routine of the guest fails on the way.
-/
namespace Recompiler.Interp

open IR IR.Fragment Meaning Pass Pass.Allocation

variable {σ : Type} {g : Guest σ} {o : Offsets} {f f' : Fragment} {b : BlockId} {i : InstrId}
  {l l₁ l₂ : List InstrId} {cs cs' : List (UInt32 × UInt32)} {code : Code}
  {addr : UInt32} {size : Nat} {frame : Frame σ} {positions : List (BlockId × Nat)}
  {op : Op} {m m' : Memory σ}

/-! ### The pipeline -/

theorem tolled_pass {p p' : Pipeline} {regs : Array Register} {pass : Name} (hpass : pass ≠ .ra)
    (h : Tolled o f b l cs) (hrun : p.run regs f pass = .ok (f', p')) :
    ∃ l', Tolled o f' b l' cs := by
  cases pass with
  | lse =>
    obtain ⟨r, hr, hrun⟩ := bind_eq_ok hrun
    cases hrun
    exact ContextReuse.tolled_run h hr
  | cprop =>
    obtain ⟨r, hr, hrun⟩ := bind_eq_ok hrun
    cases hrun
    exact Fold.tolled_run h hr
  | esimp =>
    obtain ⟨r, hr, hrun⟩ := bind_eq_ok hrun
    cases hrun
    exact Simplify.tolled_run h hr
  | dce =>
    obtain ⟨r, hr, hrun⟩ := bind_eq_ok hrun
    cases hrun
    exact DeadCode.tolled_run h hr
  | ra => exact absurd rfl hpass

theorem laden_ra {p p' : Pipeline} {regs : Array Register} (h : Tolled o f b l cs)
    (hrun : p.run regs f .ra = .ok (f', p')) : ∃ l', Laden o f' b l' cs := by
  obtain ⟨out, hout, hrun⟩ := bind_eq_ok hrun
  obtain ⟨l', hl'⟩ := Allocation.laden_run h hout
  have hf' : out.fragment = f' := by
    dsimp only at hrun
    split at hrun
    · obtain ⟨found, -, hrun⟩ := bind_eq_ok hrun
      cases found <;> cases hrun
      rfl
    · cases hrun
      rfl
  exact ⟨l', hf' ▸ hl'⟩

/-- All passes together keep the toll. -/
theorem laden_optimize {p p' : Pipeline} {regs : Array Register} (h : Tolled o f b l cs)
    (hrun : p.optimize regs f = .ok (f', p')) : ∃ l', Laden o f' b l' cs := by
  obtain ⟨⟨f₁, p₁⟩, hlse, hrun⟩ := bind_eq_ok hrun
  obtain ⟨⟨f₂, p₂⟩, hcprop, hrun⟩ := bind_eq_ok hrun
  obtain ⟨⟨f₃, p₃⟩, hesimp, hrun⟩ := bind_eq_ok hrun
  obtain ⟨⟨f₄, p₄⟩, hdce, hrun⟩ := bind_eq_ok hrun
  obtain ⟨⟨f₅, p₅⟩, hra, hrun⟩ := bind_eq_ok hrun
  cases hrun
  obtain ⟨l₁, h₁⟩ := tolled_pass (by decide) h hlse
  obtain ⟨l₂, h₂⟩ := tolled_pass (by decide) h₁ hcprop
  obtain ⟨l₃, h₃⟩ := tolled_pass (by decide) h₂ hesimp
  obtain ⟨l₄, h₄⟩ := tolled_pass (by decide) h₃ hdce
  exact laden_ra h₄ hra

/-! ### Operations -/

/-- The local area keeps its size. -/
theorem size_locals_of_perform {op : Opcode} {ty aty bty : Ty} {x y z : UInt64}
    {out : Option UInt64}
    (h : perform g o op ty aty bty x y z m = .ok (out, m')) : m'.locals.size = m.locals.size := by
  cases op with
  | sourceInfo | call | loadHost | storeHost | loadGuest | storeGuest =>
    cases h
    rfl
  | fallback | loadContext | storeContext | loadLocal =>
    obtain ⟨_, -, h⟩ := bind_eq_ok h
    cases h
    rfl
  | storeLocal =>
    obtain ⟨m₁, hwrite, h⟩ := bind_eq_ok h
    cases h
    unfold Memory.writeLocal at hwrite
    split at hwrite
    · cases hwrite
      exact Bytes.size_write _ _ _ _
    · cases hwrite
  | _ =>
    obtain ⟨_, -, h⟩ := bind_eq_ok h
    cases h
    rfl

theorem contextWidth_ok {ty : Ty} (hty : ty.isInt = true) : ∃ w, contextWidth ty = .ok w := by
  cases ty <;> first | exact ⟨_, rfl⟩ | cases hty

/-- What an operation needs to be done: its type is an integer, and the bytes of the local area that
it accesses are there. Then it is done, unless a routine of the guest fails. -/
theorem perform_ok_or_fails {op : Opcode} {ty aty bty : Ty} {x : UInt64} (y z : UInt64)
    (hty : ty.isInt = true) (haty : aty.isInt = true) (hbty : bty.isInt = true)
    (hbranch : op.isBranch = false)
    (hlocal : IsLocal op → x.toNat + ty.bytes ≤ m.locals.size) :
    (∃ r, perform g o op ty aty bty x y z m = .ok r) ∨
      ∃ e, perform g o op ty aty bty x y z m = .error e ∧ g.Fails e := by
  cases op with
  | sourceInfo | call | loadHost | storeHost | loadGuest | storeGuest => exact .inl ⟨_, rfl⟩
  | fallback =>
    cases hf : g.fallback x y.toUInt32 z.toUInt32 m.world with
    | error e =>
      exact .inr ⟨e, by unfold perform; rw [hf]; rfl, x, y.toUInt32, z.toUInt32, m.world, hf⟩
    | ok w => exact .inl ⟨_, by unfold perform; rw [hf]; rfl⟩
  | loadContext | storeContext =>
    obtain ⟨w, hw⟩ := contextWidth_ok hty
    exact .inl ⟨_, by unfold perform; rw [hw]; rfl⟩
  | loadLocal =>
    have hread : m.readLocal x ty.bytes = .ok (Bytes.read m.locals x.toNat ty.bytes) :=
      if_pos (hlocal (.inl rfl))
    exact .inl ⟨_, by unfold perform; rw [hread]; rfl⟩
  | storeLocal =>
    have hwrite : m.writeLocal x ty.bytes y =
        .ok { m with locals := Bytes.write m.locals x.toNat ty.bytes y } :=
      if_pos (hlocal (.inr rfl))
    exact .inl ⟨_, by unfold perform; rw [hwrite]; rfl⟩
  | branch | branchTrue | branchFalse => cases hbranch
  | _ =>
    have hbits : aty.bits ≠ 0 ∧ bty.bits ≠ 0 :=
      ⟨Ty.bits_ne_zero (by rw [haty]; rfl), Ty.bits_ne_zero (by rw [hbty]; rfl)⟩
    exact .inl ⟨_, by simp only [perform, Eval.apply_eq hbits.1 hbits.2]; rfl⟩

/-! ### Steps -/

theorem isInt_argTy (h : ∀ v, (f.ty v).isInt = true) (ins : Instr) (n : Slot) :
    (argTy f ins n).isInt = true := by
  unfold argTy
  split
  · exact h _
  · rfl

theorem isInt_opTy (h : ∀ v, (f.ty v).isInt = true) (ins : Instr) : (opTy f ins).isInt = true := by
  unfold opTy argTy
  split
  · exact h _
  · split
    · exact h _
    · rfl

/-- A step that neither charges nor leaves. -/
theorem step_calm (code : Code) (hop : IsLowered f positions (f.instr i) op) (h : Calm o f i)
    (hint : ∀ v, (f.ty v).isInt = true) (hg : g.Unmetered o size) (hw : frame.world.ctx.size = size)
    (hlocals : frame.locals.size = f.localsSize.toNat) (pos : Nat) :
    (∃ frame', step g o code pos op frame = .ok (.goto (pos + 1), frame') ∧
      Spends o frame.world 0 0 frame'.world ∧ frame'.locals.size = frame.locals.size) ∨
      ∃ e, step g o code pos op frame = .error e ∧ g.Fails e := by
  have hbranch : op.op.isBranch = false := by
    rw [hop.op_eq]
    exact h.straight
  have hbits := operand_eq_argBits hop frame 0
  have hstep : step g o code pos op frame = (perform g o op.op op.ty op.argTys[0] op.argTys[1]
      (frame.operand op.args[0]) (frame.operand op.args[1]) (frame.operand op.args[2])
        frame.toMemory >>=
        fun p => .ok (.goto (pos + 1), { frame with toMemory := p.2 }.setResult op p.1)) := by
    unfold step
    dsimp only
    rw [if_neg (by rw [hbranch]; exact Bool.false_ne_true)]
    rfl
  have hlocal : IsLocal op.op →
      (frame.operand op.args[0]).toNat + op.ty.bytes ≤ frame.toMemory.locals.size := by
    intro haccess
    rw [hop.op_eq] at haccess
    obtain ⟨x, hx, hle⟩ := (h.near haccess).offset
    have hoffset : frame.operand op.args[0] = x.toUInt64 := hbits.trans hx.argBits_eq
    rw [hoffset, UInt32.toNat_toUInt64, hop.ty_eq, hlocals]
    exact hle
  have hty : op.ty.isInt = true := by
    rw [hop.ty_eq]
    exact isInt_opTy hint _
  have harg (n : Slot) : (op.argTys.get n).isInt = true := by
    rw [hop.argTy_eq]
    exact isInt_argTy hint _ n
  have haty : op.argTys[0].isInt = true := harg 0
  have hbty : op.argTys[1].isInt = true := harg 1
  obtain ⟨⟨out, m'⟩, hdone⟩ | ⟨e, hfail, he⟩ := perform_ok_or_fails (g := g) (o := o)
    (frame.operand op.args[1]) (frame.operand op.args[2]) hty haty hbty hbranch hlocal
  · obtain ⟨-, hmemory⟩ := setResult_eq_keep hop { frame with toMemory := m' } out
    refine .inl ⟨_, by rw [hstep, hdone]; rfl, ?_, ?_⟩
    · rw [hmemory]
      rw [hop.op_eq] at hdone
      exact h.perform_spends hg hw hbits hdone
    · rw [hmemory]
      exact size_locals_of_perform hdone
  · exact .inr ⟨e, by rw [hstep, hfail]; rfl, he⟩

/-- A step that charges. -/
theorem step_charges {a c : UInt32} (g : Guest σ) (code : Code)
    (hop : IsLowered f positions (f.instr i) op) (h : Charges f i a c)
    (ho : o.Placed size) (hw : frame.world.ctx.size = size) (pos : Nat) :
    ∃ frame', step g o code pos op frame = .ok (.goto (pos + 1), frame') ∧
      Spends o frame.world c 1 frame'.world ∧ frame'.locals.size = frame.locals.size := by
  have hsource : op.op = .sourceInfo := hop.op_eq.trans h.op_eq
  have hbits : frame.operand op.args[1] = c.toUInt64 :=
    (operand_eq_argBits hop frame 1).trans h.cycles_eq.argBits_eq
  have hstep : step g o code pos op frame = .ok (.goto (pos + 1),
      { frame with world := frame.world.charge o c }.setResult op none) := by
    unfold step
    rw [hsource, hbits]
    dsimp only [perform]
    rw [UInt32.toUInt32_toUInt64]
    rfl
  obtain ⟨-, hmemory⟩ := setResult_eq_keep hop { frame with world := frame.world.charge o c } none
  refine ⟨_, hstep, ?_, congrArg (fun m => m.locals.size) hmemory⟩
  rw [hmemory]
  exact spends_charge ho hw c

/-- A branch out of the fragment finds its way. -/
theorem jump_departs (frame : Frame σ) (hexits : code.exits = Exit.statics f) (h : Departs f i)
    (hi : i ∈ f.allInstrs)
    {x : Operand} (hx : Code.lowerArg f positions (Exit.target? (f.instr i)) = .ok x) :
    ∃ exit a, jump o code frame x =
      .ok (.leave exit, { frame with world := frame.world.set32 o.pc a }) := by
  obtain ⟨v, hv, -, hconst⟩ := h.target
  rw [hv] at hx
  simp only [Code.lowerArg, Code.operand] at hx
  cases horigin : (f.value v).origin with
  | result j =>
    rw [horigin] at hx
    dsimp only at hx
    cases hreg : (f.value v).reg with
    | none =>
      rw [hreg] at hx
      cases hx
    | some r =>
      rw [hreg] at hx
      cases hx
      exact ⟨.dynamic, _, rfl⟩
  | constant c =>
    rw [horigin] at hx
    have hty := hconst c horigin
    cases c with
    | i32 a =>
      cases hx
      have ha : Exit.address? f i = some a := by
        unfold Exit.address? Value.constant?
        simp [hv, horigin]
      obtain ⟨slot, hslot, -⟩ := slot_eq_ok (mem_statics hi ha)
      have hword : ((Constant.i32 a).bits?.getD 0).toUInt32 = a := by simp [Constant.bits?]
      refine ⟨.static slot, a, ?_⟩
      unfold jump
      simp only [hexits, hword, hslot]
      rfl
    | _ => cases hty

/-- A branch out of the fragment leaves, unless it has a condition that does not hold. -/
theorem step_departs (frame : Frame σ) (hexits : code.exits = Exit.statics f)
    (hop : IsLowered f positions (f.instr i) op)
    (h : Departs f i) (hi : i ∈ f.allInstrs) (pos : Nat) :
    ((f.instr i).op ≠ .branch ∧ step g o code pos op frame = .ok (.goto (pos + 1), frame)) ∨
      ∃ exit a, step g o code pos op frame =
        .ok (.leave exit, { frame with world := frame.world.set32 o.pc a }) := by
  have hbranch : op.op.isBranch = true := by
    rw [hop.op_eq]
    exact h.branch
  have htarget : Code.lowerArg f positions (Exit.target? (f.instr i)) =
      .ok (branchOf op (frame.operand op.args[0])).2 := by
    rw [branchOf, hop.op_eq]
    rcases isBranch_cases (hop.op_eq ▸ hbranch) with heq | heq | heq <;> rw [Exit.target?, heq]
    · exact hop.arg 0
    · exact hop.arg 1
    · exact hop.arg 1
  obtain ⟨exit, a, hjump⟩ := jump_departs (o := o) frame hexits h hi htarget
  unfold step
  dsimp only
  rw [if_pos hbranch]
  split
  · exact .inr ⟨exit, a, hjump⟩
  · next hnot =>
    refine .inl ⟨fun heq => hnot ?_, rfl⟩
    rw [branchOf, hop.op_eq, heq]

/-! ### Runs -/

/-- How code with a toll ends: it leaves with the toll paid, or a routine of the guest fails. -/
def Pays (g : Guest σ) (o : Offsets) (w : World σ) (cs : List (UInt32 × UInt32))
    (r : Result σ) : Prop :=
  (∃ exit w', r = .ok (exit, w') ∧ Spends o w (cs.map Prod.snd).sum (UInt32.ofNat cs.length) w') ∨
    ∃ e, r = .error e ∧ g.Fails e

theorem Pays.charge {w w₁ : World σ} {a c : UInt32} {r : Result σ} (h : Pays g o w₁ cs r)
    (hspends : Spends o w c 1 w₁) : Pays g o w ((a, c) :: cs) r := by
  obtain ⟨exit, w', hr, hpaid⟩ | hfail := h
  · refine .inl ⟨exit, w', hr, ?_⟩
    have hall := hspends.trans hpaid
    rw [List.map_cons, List.sum_cons, List.length_cons, UInt32.ofNat_add,
      UInt32.add_comm (UInt32.ofNat _)]
    exact hall
  · exact .inr hfail

theorem Pays.calm {w w₁ : World σ} {r : Result σ} (h : Pays g o w₁ cs r)
    (hspends : Spends o w 0 0 w₁) :
    Pays g o w cs r := by
  obtain ⟨exit, w', hr, hpaid⟩ | hfail := h
  · refine .inl ⟨exit, w', hr, ?_⟩
    have hall := hspends.trans hpaid
    rw [UInt32.zero_add, UInt32.zero_add] at hall
    exact hall
  · exact .inr hfail

theorem run_of_step {pos fuel : Nat} (hop : code.ops[pos]? = some op) :
    run g o code (fuel + 1) pos frame = (step g o code pos op frame >>= fun p =>
      match p with
      | (.goto pos, f) => run g o code fuel pos f
      | (.leave exit, f) => .ok (exit, f.world)) := by
  rw [run, hop]
  rfl

theorem run_goes {pos next fuel : Nat} {frame' : Frame σ} (hop : code.ops[pos]? = some op)
    (hstep : step g o code pos op frame = .ok (.goto next, frame')) :
    run g o code (fuel + 1) pos frame = run g o code fuel next frame' := by
  rw [run_of_step hop, hstep]
  rfl

theorem run_fails {pos fuel : Nat} {e : Fault} (hop : code.ops[pos]? = some op)
    (hstep : step g o code pos op frame = .error e) :
    run g o code (fuel + 1) pos frame = .error e := by
  rw [run_of_step hop, hstep]
  rfl

/-- The operation of an instruction has the place of the instruction. -/
theorem exists_op (hcode : Code.ofFragment addr f = .ok code) (hall : f.allInstrs = l₁ ++ i :: l₂) :
    ∃ op, code.ops[l₁.length]? = some op ∧
      IsLowered f (Code.starts f 0 f.order) (f.instr i) op := by
  have hi : f.allInstrs[l₁.length]? = some i := by simp [hall]
  obtain ⟨hnone, -⟩ | ⟨j, op, hj, hop, hlowered⟩ := getElem?_ops hcode l₁.length
  · rw [hi] at hnone
    cases hnone
  · rw [hi] at hj
    cases hj
    exact ⟨op, hop, hlowered⟩

/-- The rest of the code pays the rest of the toll. -/
theorem pays_run (hcode : Code.ofFragment addr f = .ok code) (hint : ∀ v, (f.ty v).isInt = true)
    (hg : g.Unmetered o size) (ho : o.Placed size) (hall : f.allInstrs = l₁ ++ l₂)
    (htoll : Toll o f l₂ cs) (hw : frame.world.ctx.size = size)
    (hlocals : frame.locals.size = f.localsSize.toNat) {fuel : Nat} (hfuel : l₂.length ≤ fuel) :
    Pays g o frame.world cs (run g o code fuel l₁.length frame) := by
  have hexits := exits_of_ofFragment hcode
  induction htoll generalizing l₁ frame fuel with
  | @last i hd hbranch =>
    obtain ⟨fuel, rfl⟩ := Nat.exists_eq_add_of_le' (show 1 ≤ fuel from hfuel)
    obtain ⟨op, hop, hlowered⟩ := exists_op hcode hall
    rw [run_of_step hop]
    obtain ⟨hne, -⟩ | ⟨exit, a, hstep⟩ :=
      step_departs frame hexits hlowered hd (by simp [hall]) l₁.length
    · exact absurd hbranch hne
    · rw [hstep]
      exact .inl ⟨exit, _, rfl, spends_set_pc ho frame.world a⟩
  | @exit i l₂ hd _ ih =>
    obtain ⟨fuel, rfl⟩ :=
      Nat.exists_eq_add_of_le' (Nat.le_trans (Nat.le_add_left 1 l₂.length) hfuel)
    obtain ⟨op, hop, hlowered⟩ := exists_op hcode hall
    rw [run_of_step hop]
    obtain ⟨-, hstep⟩ | ⟨exit, a, hstep⟩ :=
      step_departs frame hexits hlowered hd (by simp [hall]) l₁.length
    · rw [hstep]
      have hall' : f.allInstrs = (l₁ ++ [i]) ++ l₂ := by simpa using hall
      have hrest := ih hall' hw hlocals (Nat.le_of_succ_le_succ hfuel)
      rw [List.length_append] at hrest
      exact hrest
    · rw [hstep]
      exact .inl ⟨exit, _, rfl, spends_set_pc ho frame.world a⟩
  | @calm i l₂ cs hcalm _ ih =>
    obtain ⟨fuel, rfl⟩ :=
      Nat.exists_eq_add_of_le' (Nat.le_trans (Nat.le_add_left 1 l₂.length) hfuel)
    obtain ⟨op, hop, hlowered⟩ := exists_op hcode hall
    rw [run_of_step hop]
    obtain ⟨frame', hstep, hspends, hsize⟩ | ⟨e, hstep, he⟩ :=
      step_calm code hlowered hcalm hint hg hw hlocals l₁.length
    · rw [hstep]
      have hall' : f.allInstrs = (l₁ ++ [i]) ++ l₂ := by simpa using hall
      have hrest := ih hall' (hspends.size_eq.trans hw)
        (hsize.trans hlocals) (Nat.le_of_succ_le_succ hfuel)
      rw [List.length_append] at hrest
      exact hrest.calm hspends
    · rw [hstep]
      exact .inr ⟨e, rfl, he⟩
  | @charge i l₂ cs a c hcharge _ ih =>
    obtain ⟨fuel, rfl⟩ :=
      Nat.exists_eq_add_of_le' (Nat.le_trans (Nat.le_add_left 1 l₂.length) hfuel)
    obtain ⟨op, hop, hlowered⟩ := exists_op hcode hall
    obtain ⟨frame', hstep, hspends, hsize⟩ :=
      step_charges g code hlowered hcharge ho hw l₁.length
    rw [run_of_step hop, hstep]
    have hall' : f.allInstrs = (l₁ ++ [i]) ++ l₂ := by simpa using hall
    have hrest := ih hall' (hspends.size_eq.trans hw)
      (hsize.trans hlocals) (Nat.le_of_succ_le_succ hfuel)
    rw [List.length_append] at hrest
    exact hrest.charge hspends

theorem length_ops (h : Code.ofFragment addr f = .ok code) :
    code.ops.size = f.allInstrs.length := by
  apply Nat.le_antisymm
  · obtain ⟨-, hop⟩ | ⟨i, op, hi, -⟩ := getElem?_ops h f.allInstrs.length
    · exact Array.getElem?_eq_none_iff.mp hop
    · simp at hi
  · obtain ⟨hi, -⟩ | ⟨i, op, -, hop, -⟩ := getElem?_ops h code.ops.size
    · exact List.getElem?_eq_none_iff.mp hi
    · simp at hop

/-- Code of a fragment with a toll pays it, within as many steps as it has operations. -/
theorem pays_execute (hcode : Code.ofFragment addr f = .ok code) (h : Laden o f b l cs)
    (hg : g.Unmetered o size) (ho : o.Placed size) {w : World σ}
    (hw : w.ctx.size = size) (nregs : Nat)
    {fuel : Nat} (hfuel : code.ops.size ≤ fuel) :
    Pays g o w cs (code.execute g o nregs fuel w) := by
  have hall : f.allInstrs = l := by
    unfold allInstrs
    rw [h.order_eq, List.flatMap_singleton, h.chain.blockInstrs_eq]
  rw [length_ops hcode, hall] at hfuel
  have hlocals : code.localsSize = f.localsSize.toNat := by
    obtain ⟨ops, -, hcode⟩ := bind_eq_ok hcode
    cases hcode
    rfl
  have hsize : (Array.replicate code.localsSize (0 : UInt8)).size = f.localsSize.toNat := by
    rw [Array.size_replicate, hlocals]
  have hall' : f.allInstrs = [] ++ l := hall
  unfold Code.execute
  exact pays_run hcode h.isInt hg ho hall' h.toll hw hsize hfuel

end Recompiler.Interp
