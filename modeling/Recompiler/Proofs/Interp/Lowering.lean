import Recompiler.Proofs.IR.Meaning

/-!
Register code does what its fragment means on a register file: executing the lowered fragment gives
what the fragment ends with, and runs out of fuel at every amount of it if the fragment never ends.
-/
namespace Recompiler.Interp

open IR Machine Meaning

variable {σ : Type}

/-! ### Register code as a machine -/

/-- One turn of register code. -/
def turn (g : Guest σ) (o : Offsets) (code : Code) (c : Nat × Frame σ) :
    Turn (Nat × Frame σ) (Result σ) :=
  match code.ops[c.1]? with
  | none => .stop (.ok (.dynamic, c.2.world))
  | some op =>
    match step g o code c.1 op c.2 with
    | .error e => .stop (.error e)
    | .ok (.goto pos, f) => .go (pos, f)
    | .ok (.leave exit, f) => .stop (.ok (exit, f.world))

theorem run_succ (g : Guest σ) (o : Offsets) (code : Code) (fuel pos : Nat) (f : Frame σ) :
    run g o code (fuel + 1) pos f =
      match turn g o code (pos, f) with
      | .stop r => r
      | .go (pos, f) => run g o code fuel pos f := by
  rw [run, turn]
  cases code.ops[pos]? with
  | none => rfl
  | some op =>
    dsimp only
    cases step g o code pos op f with
    | error e => rfl
    | ok p =>
      obtain ⟨next, f⟩ := p
      cases next <;> rfl

theorem run_of_endsIn {g : Guest σ} {o : Offsets} {code : Code} {n : Nat} {c : Nat × Frame σ}
    {r : Result σ} (h : EndsIn (turn g o code) n c r) {fuel : Nat} (hf : n < fuel) :
    run g o code fuel c.1 c.2 = r := by
  induction h generalizing fuel with
  | stop h =>
    obtain ⟨fuel, rfl⟩ := Nat.exists_eq_succ_of_ne_zero (by omega : fuel ≠ 0)
    rw [run_succ, h]
  | go h _ ih =>
    obtain ⟨fuel, rfl⟩ := Nat.exists_eq_succ_of_ne_zero (by omega : fuel ≠ 0)
    rw [run_succ, h]
    exact ih (by omega)

theorem run_eq_outOfFuel {g : Guest σ} {o : Offsets} {code : Code} (fuel : Nat)
    {c : Nat × Frame σ} (h : ∀ r, ¬ Ends (turn g o code) c r) :
    run g o code fuel c.1 c.2 = .error .outOfFuel := by
  induction fuel generalizing c with
  | zero => rfl
  | succ fuel ih =>
    rw [run_succ]
    cases ht : turn g o code (c.1, c.2) with
    | stop r => exact absurd ⟨0, .stop ht⟩ (h r)
    | go d =>
      apply ih
      rintro r ⟨n, hn⟩
      exact h r ⟨n + 1, .go ht hn⟩

/-! ### Lowering an instruction -/

/-- `op` is the instruction `ins` in register code. -/
structure IsLowered (f : Fragment) (positions : List (BlockId × Nat)) (ins : Instr) (op : Op) :
    Prop where
  op_eq : op.op = ins.op
  ty_eq : op.ty = opTy f ins
  argTy_eq : ∀ n : Slot, op.argTys.get n = argTy f ins n
  arg : ∀ n : Slot, Code.lowerArg f positions (ins.arg n) = .ok (op.args.get n)
  result_eq : op.result = ins.result.bind fun v => (f.value v).reg

theorem bind_eq_ok {ε α β : Type} {x : Except ε α} {k : α → Except ε β} {b : β}
    (h : x >>= k = .ok b) : ∃ a, x = .ok a ∧ k a = .ok b := by
  cases x with
  | error e => cases h
  | ok a => exact ⟨a, rfl, h⟩

theorem bind_eq_error {ε α β : Type} {x : Except ε α} {k : α → Except ε β} {e : ε}
    (h : x >>= k = .error e) : x = .error e ∨ ∃ a, x = .ok a ∧ k a = .error e := by
  cases x with
  | error e' =>
    cases h
    exact .inl rfl
  | ok a => exact .inr ⟨a, rfl, h⟩

theorem exists_of_mapM_error {ε α β : Type} {k : α → Except ε β} {l : List α} {e : ε}
    (h : l.mapM k = .error e) : ∃ a ∈ l, k a = .error e := by
  induction l with
  | nil => cases h
  | cons a l ih =>
    rw [List.mapM_cons] at h
    cases ha : k a with
    | error e' =>
      rw [ha] at h
      cases h
      exact ⟨a, List.mem_cons_self, ha⟩
    | ok c =>
      cases hl : l.mapM k with
      | error e' =>
        rw [ha, hl] at h
        cases h
        obtain ⟨d, hd, hk⟩ := ih hl
        exact ⟨d, List.mem_cons_of_mem a hd, hk⟩
      | ok l' =>
        rw [ha, hl] at h
        cases h

theorem eq_ok_of_toOption {ε α β : Type} {x : Except ε α} {g : α → β} {b : β}
    (h : x.toOption.map g = some b) : ∃ a, x = .ok a ∧ g a = b := by
  cases x with
  | error e => cases h
  | ok a => exact ⟨a, rfl, Option.some.inj h⟩

theorem eq_ok_of_toOption_bind {ε α β : Type} {x : Except ε α} {g : α → Option β} {b : β}
    (h : x.toOption.bind g = some b) : ∃ a, x = .ok a ∧ g a = some b := by
  cases x with
  | error e => cases h
  | ok a => exact ⟨a, rfl, h⟩

theorem isLowered_of_lowerInstr {f : Fragment} {positions : List (BlockId × Nat)} {i : InstrId}
    {op : Op} (h : Code.lowerInstr f positions i = .ok op) :
    IsLowered f positions (f.instr i) op := by
  rw [Code.lowerInstr] at h
  obtain ⟨a, ha, h⟩ := bind_eq_ok h
  obtain ⟨b, hb, h⟩ := bind_eq_ok h
  obtain ⟨c, hc, h⟩ := bind_eq_ok h
  dsimp only at h
  split at h
  · cases h
  · cases h
    refine ⟨rfl, rfl, ?_, ?_, rfl⟩
    · intro n
      match n with
      | 0 | 1 | 2 => rfl
    · intro n
      match n with
      | 0 => exact ha
      | 1 => exact hb
      | 2 => exact hc

theorem operand_eq_argBits {f : Fragment} {positions : List (BlockId × Nat)} {ins : Instr}
    {op : Op} (h : IsLowered f positions ins op) (frame : Frame σ) (n : Slot) :
    frame.operand (op.args.get n) = argBits f (Meaning.registers f) frame.regs ins n := by
  have hn := h.arg n
  generalize op.args.get n = x at hn
  rw [argBits]
  cases hv : ins.arg n with
  | none =>
    rw [hv] at hn
    cases hn
    rfl
  | some v =>
    rw [hv] at hn
    simp only [Code.lowerArg, Code.operand] at hn
    dsimp only [bits]
    cases ho : (f.value v).origin with
    | constant c =>
      rw [ho] at hn
      cases c <;> cases hn <;> rfl
    | result i =>
      rw [ho] at hn
      dsimp only at hn
      cases hr : (f.value v).reg with
      | none =>
        rw [hr] at hn
        cases hn
      | some r =>
        rw [hr] at hn
        cases hn
        simp only [Frame.operand, Meaning.registers, hr]

theorem setResult_eq_keep {f : Fragment} {positions : List (BlockId × Nat)} {ins : Instr} {op : Op}
    (h : IsLowered f positions ins op) (frame : Frame σ) (bits : Option UInt64) :
    (frame.setResult op bits).regs = keep f (Meaning.registers f) ins frame.regs bits ∧
      (frame.setResult op bits).toMemory = frame.toMemory := by
  have hty := h.ty_eq
  unfold Frame.setResult keep
  rw [h.result_eq]
  cases hr : ins.result with
  | none => exact ⟨rfl, rfl⟩
  | some v =>
    rw [opTy, hr] at hty
    simp only [Option.bind_some, Meaning.registers]
    cases hreg : (f.value v).reg <;> cases bits <;> simp [hty, hreg]

/-! ### Places in the code -/

/-- The instructions from a place on. -/
def ahead (f : Fragment) (p : Point) : List InstrId := p.code ++ p.blocks.flatMap f.blockInstrs

theorem lookup_starts (f : Fragment) {b : BlockId} {bs : List BlockId} (hb : b ∈ bs) (pos : Nat) :
    ∃ n, (Code.starts f pos bs).lookup b = some (pos + n) ∧
      (bs.flatMap f.blockInstrs).drop n =
        ahead f ⟨f.blockInstrs b, (bs.dropWhile (· ≠ b)).tail⟩ := by
  induction bs generalizing pos with
  | nil => cases hb
  | cons a bs ih =>
    by_cases hab : b = a
    · subst hab
      exact ⟨0, by simp [Code.starts], by simp [ahead]⟩
    · have hb' : b ∈ bs := by simpa [hab] using hb
      obtain ⟨n, hn, hd⟩ := ih hb' (pos + (f.blockInstrs a).length)
      refine ⟨(f.blockInstrs a).length + n, ?_, ?_⟩
      · rw [Code.starts, List.lookup_cons, beq_eq_false_iff_ne.mpr hab]
        simpa [Nat.add_assoc] using hn
      · rw [List.flatMap_cons, List.drop_append, List.drop_of_length_le (by omega),
          Nat.add_sub_cancel_left, hd, List.dropWhile_cons_of_pos (by simpa using Ne.symm hab)]
        rfl

theorem mapM_getElem? {ε α β : Type} {k : α → Except ε β} {l : List α} {l' : List β}
    (h : l.mapM k = .ok l') (n : Nat) :
    (l[n]? = none ∧ l'[n]? = none) ∨ ∃ x y, l[n]? = some x ∧ k x = .ok y ∧ l'[n]? = some y := by
  induction l generalizing l' n with
  | nil =>
    cases h
    exact .inl ⟨rfl, rfl⟩
  | cons a l ih =>
    rw [List.mapM_cons] at h
    obtain ⟨y, hy, h⟩ := bind_eq_ok h
    obtain ⟨ys, hys, h⟩ := bind_eq_ok h
    cases h
    cases n with
    | zero => exact .inr ⟨a, y, rfl, hy, rfl⟩
    | succ n => simpa using ih hys n

/-- The code of a fragment, operation by operation. -/
theorem getElem?_ops {addr : UInt32} {f : Fragment} {code : Code}
    (h : Code.ofFragment addr f = .ok code) (pos : Nat) :
    (f.allInstrs[pos]? = none ∧ code.ops[pos]? = none) ∨
      ∃ i op, f.allInstrs[pos]? = some i ∧ code.ops[pos]? = some op ∧
        IsLowered f (Code.starts f 0 f.order) (f.instr i) op := by
  obtain ⟨ops, hops, h⟩ := bind_eq_ok h
  cases h
  rcases mapM_getElem? hops pos with ⟨hi, ho⟩ | ⟨i, op, hi, hl, ho⟩
  · exact .inl ⟨hi, by simpa using ho⟩
  · exact .inr ⟨i, op, hi, by simpa using ho, isLowered_of_lowerInstr hl⟩

/-- The way into the block of the next instruction. -/
theorem goesIn_ahead {α : Type} (f : Fragment) (st : Store α) (g : Guest σ) (o : Offsets)
    {i : InstrId} {rest : List InstrId} (c : Config α σ) (h : ahead f c.point = i :: rest) :
    ∃ n p, GoesIn (Meaning.step f st g o) n c { c with point := ⟨i :: p.code, p.blocks⟩ } ∧
      ahead f p = rest := by
  obtain ⟨⟨code, blocks⟩, s, m⟩ := c
  cases code with
  | cons j code =>
    simp only [ahead, List.cons_append, List.cons.injEq] at h
    obtain ⟨rfl, h⟩ := h
    exact ⟨0, ⟨code, blocks⟩, .refl _, h⟩
  | nil =>
    induction blocks with
    | nil => cases h
    | cons b blocks ih =>
      have hstep := step_enter f st g o b blocks s m
      cases hb : f.blockInstrs b with
      | nil =>
        rw [hb] at hstep
        obtain ⟨n, p, hn, hp⟩ := ih (by simpa [ahead, hb] using h)
        exact ⟨n + 1, p, .step hstep hn, hp⟩
      | cons j code =>
        rw [hb] at hstep
        simp only [ahead, List.nil_append, List.flatMap_cons, hb, List.cons_append,
          List.cons.injEq] at h
        obtain ⟨rfl, h⟩ := h
        exact ⟨1, ⟨code, blocks⟩, .single hstep, h⟩

theorem ends_of_ahead_nil {α : Type} (f : Fragment) (st : Store α) (g : Guest σ) (o : Offsets)
    (c : Config α σ) (h : ahead f c.point = []) :
    Ends (Meaning.step f st g o) c (.ok (.dynamic, c.memory.world)) := by
  obtain ⟨⟨code, blocks⟩, s, m⟩ := c
  obtain ⟨rfl, hb⟩ := List.append_eq_nil_iff.mp h
  dsimp only at hb
  induction blocks with
  | nil => exact ⟨0, .stop (step_end f st g o s m)⟩
  | cons b blocks ih =>
    have hb' := List.flatMap_eq_nil_iff.mp hb
    have hstep := step_enter f st g o b blocks s m
    rw [hb' b List.mem_cons_self] at hstep
    refine (GoesIn.single hstep).ends (ih ?_ ?_) <;>
      simpa [ahead] using fun a ha => hb' a (List.mem_cons_of_mem b ha)

/-! ### Execution -/

/-- Every block that a branch names is a block of the fragment. -/
def TargetsExist (f : Fragment) : Prop :=
  ∀ i ∈ f.allInstrs, ∀ v b, Exit.target? (f.instr i) = some v →
    (f.value v).origin = .constant (.blk b) → b ∈ f.order

/-- Register code at a position with a frame is where the fragment is in `c`. -/
structure Here (f : Fragment) (c : Config (Array UInt64) σ) (d : Nat × Frame σ) : Prop where
  store_eq : c.store = d.2.regs
  memory_eq : c.memory = d.2.toMemory
  ahead_eq : ahead f c.point = f.allInstrs.drop d.1

/-- The turns of the fragment and of its code at the same place agree. -/
inductive SameTurn (f : Fragment) :
    Turn (Config (Array UInt64) σ) (Result σ) → Turn (Nat × Frame σ) (Result σ) → Prop
  | go {c : Config (Array UInt64) σ} {d : Nat × Frame σ} (h : Here f c d) :
      SameTurn f (.go c) (.go d)
  | stop (r : Result σ) : SameTurn f (.stop r) (.stop r)

theorem jump_sameTurn {addr : UInt32} {f : Fragment} {code : Code}
    (hcode : Code.ofFragment addr f = .ok code) (o : Offsets) (frame : Frame σ)
    {target : Option ValueId} {x : Operand}
    (hx : Code.lowerArg f (Code.starts f 0 f.order) target = .ok x)
    (hb : ∀ v b, target = some v → (f.value v).origin = .constant (.blk b) → b ∈ f.order) :
    SameTurn f (Meaning.jump f (Meaning.registers f) o frame.regs frame.toMemory target)
      (match jump o code frame x with
        | .error e => .stop (.error e)
        | .ok (.goto pos, f) => .go (pos, f)
        | .ok (.leave exit, f) => .stop (.ok (exit, f.world))) := by
  have hexits : code.exits = Exit.statics f := by
    obtain ⟨ops, _, h⟩ := bind_eq_ok hcode
    cases h
    rfl
  cases target with
  | none =>
    cases hx
    exact .stop _
  | some v =>
    simp only [Code.lowerArg, Code.operand] at hx
    simp only [Meaning.jump]
    cases ho : (f.value v).origin with
    | result i =>
      rw [ho] at hx
      dsimp only at hx
      cases hr : (f.value v).reg with
      | none =>
        rw [hr] at hx
        cases hx
      | some r =>
        rw [hr] at hx
        cases hx
        simp only [Meaning.registers, hr, jump, Frame.operand]
        exact .stop _
    | constant c =>
      rw [ho] at hx
      cases c with
      | str s => cases hx
      | blk b =>
        cases hx
        obtain ⟨n, hn, hd⟩ := lookup_starts f (hb v b rfl ho) 0
        rw [hn]
        exact .go ⟨rfl, rfl, by simpa [Fragment.allInstrs, startOf] using hd.symm⟩
      | _ =>
        cases hx
        simp only [jump, hexits, bind, Except.bind, pure, Except.pure]
        split <;> rename_i heq <;> rw [heq] <;> exact .stop _

theorem isBranch_cases {op : Opcode} (h : op.isBranch = true) :
    op = .branch ∨ op = .branchTrue ∨ op = .branchFalse := by
  cases op <;> first | (cases h; done) | simp

theorem runInstr_sameTurn {addr : UInt32} {f : Fragment} {code : Code}
    (hcode : Code.ofFragment addr f = .ok code) (ht : TargetsExist f) (g : Guest σ) (o : Offsets)
    {pos : Nat} {i : InstrId} {op : Op} (hi : f.allInstrs[pos]? = some i)
    (hop : code.ops[pos]? = some op)
    (hl : IsLowered f (Code.starts f 0 f.order) (f.instr i) op) (frame : Frame σ) {p : Point}
    (hp : ahead f p = f.allInstrs.drop (pos + 1)) :
    SameTurn f (runInstr f (Meaning.registers f) g o i p frame.regs frame.toMemory)
      (turn g o code (pos, frame)) := by
  have hmem : i ∈ f.allInstrs := List.mem_of_getElem? hi
  have ha := operand_eq_argBits hl frame 0
  have hb := operand_eq_argBits hl frame 1
  have hc := operand_eq_argBits hl frame 2
  have ht0 := hl.argTy_eq 0
  have ht1 := hl.argTy_eq 1
  change frame.operand op.args[0] = _ at ha
  change frame.operand op.args[1] = _ at hb
  change frame.operand op.args[2] = _ at hc
  change op.argTys[0] = _ at ht0
  change op.argTys[1] = _ at ht1
  rw [turn, hop, runInstr]
  simp only [step, hl.op_eq, ha, hb, hc, hl.ty_eq, ht0, ht1]
  by_cases hbr : (f.instr i).op.isBranch = true
  · rw [if_pos hbr, if_pos hbr]
    have htaken : (branchOf op (argBits f (Meaning.registers f) frame.regs (f.instr i) 0)).1 =
        isTaken (f.instr i).op (argBits f (Meaning.registers f) frame.regs (f.instr i) 0) := by
      rw [branchOf, hl.op_eq]
      rcases isBranch_cases hbr with h | h | h <;> rw [h] <;> rfl
    have htarget : Code.lowerArg f (Code.starts f 0 f.order) (Exit.target? (f.instr i)) =
        .ok (branchOf op (argBits f (Meaning.registers f) frame.regs (f.instr i) 0)).2 := by
      rw [branchOf, hl.op_eq]
      rcases isBranch_cases hbr with h | h | h <;> rw [Exit.target?, h]
      · exact hl.arg 0
      · exact hl.arg 1
      · exact hl.arg 1
    simp only [htaken]
    split
    · exact jump_sameTurn hcode o frame htarget (ht i hmem)
    · exact .go ⟨rfl, rfl, hp⟩
  · rw [if_neg hbr, if_neg hbr]
    cases perform g o (f.instr i).op (opTy f (f.instr i)) (argTy f (f.instr i) 0)
        (argTy f (f.instr i) 1) (argBits f (Meaning.registers f) frame.regs (f.instr i) 0)
        (argBits f (Meaning.registers f) frame.regs (f.instr i) 1)
        (argBits f (Meaning.registers f) frame.regs (f.instr i) 2) frame.toMemory with
    | error e => exact .stop _
    | ok r =>
      obtain ⟨bits, m⟩ := r
      obtain ⟨hregs, hmemory⟩ := setResult_eq_keep hl { frame with toMemory := m } bits
      exact .go ⟨hregs.symm, hmemory.symm, hp⟩

theorem advance_here {addr : UInt32} {f : Fragment} {code : Code}
    (hcode : Code.ofFragment addr f = .ok code) (ht : TargetsExist f) (g : Guest σ) (o : Offsets)
    (c : Config (Array UInt64) σ) (d : Nat × Frame σ) (h : Here f c d) :
    Advance (Meaning.step f (Meaning.registers f) g o) (turn g o code) (Here f) (· = ·) c d := by
  obtain ⟨pos, frame⟩ := d
  obtain ⟨p, s, m⟩ := c
  obtain ⟨rfl, rfl, hp⟩ := h
  dsimp only at hp
  rcases getElem?_ops hcode pos with ⟨hi, ho⟩ | ⟨i, op, hi, ho, hl⟩
  · have hlen : f.allInstrs.length ≤ pos := List.getElem?_eq_none_iff.mp hi
    rw [List.drop_of_length_le hlen] at hp
    refine .stop (ends_of_ahead_nil f _ g o _ hp) ⟨0, .stop ?_⟩ rfl
    rw [turn, ho]
  · obtain ⟨hlt, rfl⟩ := List.getElem?_eq_some_iff.mp hi
    rw [List.drop_eq_getElem_cons hlt] at hp
    obtain ⟨n, p', hn, hp'⟩ := goesIn_ahead f (Meaning.registers f) g o
      ⟨p, frame.regs, frame.toMemory⟩ hp
    have hturn := runInstr_sameTurn hcode ht g o hi ho hl frame hp'
    have hstep := step_instr f (Meaning.registers f) g o f.allInstrs[pos] p'.code p'.blocks
      frame.regs frame.toMemory
    cases hl' : runInstr f (Meaning.registers f) g o f.allInstrs[pos] p' frame.regs
        frame.toMemory with
    | go c' =>
      rw [hl'] at hturn hstep
      cases hr : turn g o code (pos, frame) with
      | go d' =>
        rw [hr] at hturn
        cases hturn with
        | go h => exact .go (hn.trans (.single hstep)) (.single hr) h
      | stop r =>
        rw [hr] at hturn
        cases hturn
    | stop r =>
      rw [hl'] at hturn hstep
      cases hr : turn g o code (pos, frame) with
      | go d' =>
        rw [hr] at hturn
        cases hturn
      | stop r' =>
        rw [hr] at hturn
        cases hturn with
        | stop => exact .stop (hn.ends ⟨0, .stop hstep⟩) ⟨0, .stop hr⟩ rfl

/-- Executing the code of a fragment gives what the fragment ends with on the register file, from
some amount of fuel on. If the fragment does not end, no amount of fuel is enough. -/
theorem execute_ofFragment {addr : UInt32} {f : Fragment} {code : Code}
    (hcode : Code.ofFragment addr f = .ok code) (ht : TargetsExist f) (g : Guest σ) (o : Offsets)
    (nregs : Nat) (w : World σ) :
    let begin := Meaning.start f (Array.replicate nregs (0 : UInt64)) w
    (∀ r, Ends (Meaning.step f (Meaning.registers f) g o) begin r →
      ∃ n, ∀ fuel ≥ n, code.execute g o nregs fuel w = r) ∧
    ((∀ r, ¬ Ends (Meaning.step f (Meaning.registers f) g o) begin r) →
      ∀ fuel, code.execute g o nregs fuel w = .error .outOfFuel) := by
  intro begin
  have hsize : code.localsSize = f.localsSize.toNat := by
    obtain ⟨ops, _, h⟩ := bind_eq_ok hcode
    cases h
    rfl
  have hhere : Here f begin (0, ⟨begin.memory, Array.replicate nregs 0⟩) :=
    ⟨rfl, rfl, by simp [begin, Meaning.start, ahead, Fragment.allInstrs]⟩
  obtain ⟨hforth, hback⟩ := simulation (advance_here hcode ht g o) hhere
  have hexec : ∀ fuel, code.execute g o nregs fuel w =
      run g o code fuel 0 ⟨begin.memory, Array.replicate nregs 0⟩ := by
    intro fuel
    rw [Code.execute, hsize]
    rfl
  constructor
  · intro r hr
    obtain ⟨_, ⟨n, hn⟩, rfl⟩ := hforth r hr
    exact ⟨n + 1, fun fuel hfuel => (hexec fuel).trans (run_of_endsIn hn (by omega))⟩
  · intro hnone fuel
    rw [hexec]
    refine run_eq_outOfFuel fuel (c := (0, _)) fun r hr => ?_
    obtain ⟨r', hr', rfl⟩ := hback r hr
    exact hnone _ hr'

end Recompiler.Interp
