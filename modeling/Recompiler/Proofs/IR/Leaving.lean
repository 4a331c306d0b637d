import Recompiler.Proofs.IR.Methods

/-!
How a fragment of one block ends: by a branch that is taken, possibly behind branches that are not.
What stands behind the branch does not matter.
-/
namespace Recompiler.Meaning

open IR Fragment Interp

variable {σ : Type} {f f' : Fragment} {b : BlockId} {l l' l₁ l₂ : List InstrId} {i : InstrId}
  {g : Guest σ} {o : Offsets} {s s' : Cells} {m m' : Memory σ} {op : Opcode} {args : List ValueId}
  {c d v : ValueId} {w : World σ} {x y : UInt32}

/-! ### Built branches -/

/-- The instruction `i` has the operation and the arguments, and no result. -/
structure Carries (f : Fragment) (i : InstrId) (op : Opcode) (args : List ValueId) : Prop where
  lt : i.index < f.instrs.size
  op_eq : (f.instr i).op = op
  arg_eq : ∀ n : Slot, (f.instr i).arg n = args[n.val]?
  result_eq : (f.instr i).result = none

theorem carries_of_emitted (h : Emitted f f' b l₁ l₂ op none args i) : Carries f' i op args where
  lt := by
    rw [h.id_eq, h.size_instrs]
    exact Nat.lt_succ_self _
  op_eq := h.op_eq
  arg_eq := h.arg_eq
  result_eq := h.result_eq

theorem Carries.grows (h : Carries f i op args) (hf : Grows f f') : Carries f' i op args where
  lt := Nat.lt_of_lt_of_le h.lt hf.instrs_le
  op_eq := (hf.op_eq i h.lt).trans h.op_eq
  arg_eq n := by
    unfold Instr.arg
    rw [hf.args_eq i h.lt]
    exact h.arg_eq n
  result_eq := (hf.result_eq i h.lt).trans h.result_eq

/-- A branch to a constant address. -/
theorem branchTo_ok (hopen : Open f b l []) (x : UInt32) : ∃ v i f',
    (do Build.branch (← Build.i32 x)) f = .ok ((), f') ∧ Extends f f' b l [i] [] ∧
      Carries f' i .branch [v] ∧ ∀ s, Holds32 f' s v x := by
  obtain ⟨v, f₁, hconst, hext, hv⟩ := constant_ok hopen (.i32 x)
  have hopen₁ := hext.opened
  rw [List.append_nil] at hopen₁
  obtain ⟨f₂, hbranch, hemit⟩ := branch_ok hopen₁ (hv fun _ => 0).lt (hv fun _ => 0).ty_eq
  refine ⟨v, _, f₂, ?_, ?_, carries_of_emitted hemit, fun s => ?_⟩
  · rw [bind_ok (show Build.i32 x f = .ok (v, f₁) from hconst), hbranch]
  · have hext₂ := extends_of_emitted hemit
    exact hext.trans (by rwa [List.append_nil])
  · exact (hv s).grows hemit.grows fun _ _ => rfl

/-- The opcodes of conditional branches. -/
def IsCondition (op : Opcode) : Prop := op = .branchTrue ∨ op = .branchFalse

theorem IsCondition.isBranch (h : IsCondition op) : op.isBranch = true := by
  obtain rfl | rfl := h <;> rfl

theorem branchIf_ok (hopen : Open f b l₁ l₂) (op : Opcode) (hcty : (f.ty c).isInt = true)
    (hd : d.index < f.values.size) (hdty : f.ty d = .i32) : ∃ f', Build.branchIf op c d f =
      .ok ((), f') ∧ Emitted f f' b l₁ l₂ op none [c, d] ⟨f.instrs.size⟩ := by
  obtain ⟨f', hemit, h⟩ := emit_spec hopen.chain hopen.point op none [c, d] (by simp)
  refine ⟨f', ?_, h⟩
  have hdty' : f'.ty d = .i32 := (h.grows.ty_eq d hd).trans hdty
  have hcond : Build.check (f.ty c).isInt .branchCondition f = .ok ((), f) := by
    unfold Build.check
    rw [if_pos hcty]
  have hcheck : Build.checkTarget d f = .ok ((), f) := by
    unfold Build.checkTarget
    rw [bind_ok (show Build.tyOf d f = .ok (f.ty d, f) from rfl), hdty]
    rfl
  have heffect : Build.emitEffect op [c, d] f = .ok ((), f') := by
    unfold Build.emitEffect
    rw [bind_ok hemit]
    rfl
  have hedge : Build.addBranchEdge d f' = .ok ((), f') := by
    unfold Build.addBranchEdge
    rw [bind_ok (show (get : Build Fragment) f' = .ok (f', f') from rfl), hdty']
    rfl
  unfold Build.branchIf
  rw [bind_ok (show Build.tyOf c f = .ok (f.ty c, f) from rfl), bind_ok hcond, bind_ok hcheck,
    bind_ok heffect, hedge]

/-- A conditional branch to a constant address. -/
theorem branchIfTo_ok (hopen : Open f b l₁ l₂) (op : Opcode) (hc : c.index < f.values.size)
    (hcty : (f.ty c).isInt = true) (x : UInt32) : ∃ d i f',
      (do let d ← Build.i32 x
          Build.branchIf op c d) f = .ok ((), f') ∧ Extends f f' b l₁ [i] l₂ ∧
        Carries f' i op [c, d] ∧ ∀ s, Holds32 f' s d x := by
  obtain ⟨d, f₁, hconst, hext, hd⟩ := constant_ok hopen (.i32 x)
  have hopen₁ := hext.opened
  rw [List.append_nil] at hopen₁
  have hcty₁ : (f₁.ty c).isInt = true := by
    rw [show f₁.ty c = f.ty c from hext.grows.ty_eq c hc, hcty]
  obtain ⟨f₂, hbranch, hemit⟩ :=
    branchIf_ok hopen₁ op hcty₁ (hd fun _ => 0).lt (hd fun _ => 0).ty_eq
  refine ⟨d, _, f₂, ?_, ?_, carries_of_emitted hemit, fun s => ?_⟩
  · rw [bind_ok (show Build.i32 x f = .ok (d, f₁) from hconst), hbranch]
  · have hext₂ := extends_of_emitted hemit
    exact hext.trans (by rwa [List.append_nil])
  · exact (hd s).grows hemit.grows fun _ _ => rfl

/-- A branch whose condition does not hold goes on behind itself. -/
theorem runs_untaken {u : UInt64} {ty : Ty} (hop : IsCondition op) (hi : Carries f i op [c, d])
    (hc : Holds f s c ty u) (hd : d.index < f.values.size) (h : isTaken op u = false) :
    Runs f g o [i] s m s m := by
  refine .skip ⟨hi.lt, ?_, ?_⟩ (by rw [hi.op_eq]; exact hop.isBranch) ?_ (.nil s m)
  · intro n v hv
    rw [hi.arg_eq] at hv
    have hmem : v ∈ [c, d] := List.mem_of_getElem? hv
    obtain rfl | rfl : v = c ∨ v = d := by simpa using hmem
    · exact hc.lt
    · exact hd
  · intro v hv
    rw [hi.result_eq] at hv
    cases hv
  · have harg : argBits f cells s (f.instr i) 0 = u := by
      unfold argBits
      rw [hi.arg_eq]
      exact hc.bits_eq
    rw [hi.op_eq, harg, h]

theorem emits_untaken {u : UInt64} {ty : Ty} (hop : IsCondition op) (hty : ty.isInt = true)
    (hc : Holds f s c ty u) (hd : Holds32 f s d x) (h : isTaken op u = false) :
    Emits g o (Build.branchIf op c d) f s m fun _ _ _ m' => m' = m := by
  intro b l₁ l₂ hopen
  obtain ⟨f', hact, hemit⟩ := branchIf_ok hopen op (by rw [hc.ty_eq, hty]) hd.lt hd.ty_eq
  have hc' : Holds f' s c ty u := hc.grows hemit.grows fun _ _ => rfl
  have hd' : d.index < f'.values.size := Nat.lt_of_lt_of_le hd.lt hemit.grows.values_le
  refine ⟨(), f', [⟨f.instrs.size⟩], s, m, hact, extends_of_emitted hemit, ?_, fun _ _ => rfl, rfl⟩
  exact runs_untaken hop (carries_of_emitted hemit) hc' hd' h

/-! ### Fragments of one block -/

/-- The fragment consists of the block `b` with the instructions `l`, and has no locals. -/
structure Single (f : Fragment) (b : BlockId) (l : List InstrId) : Prop where
  chain : f.Chain b l
  order_eq : f.order = [b]
  localsSize_eq : f.localsSize = 0

theorem single_opened : Single opened ⟨0⟩ [] := ⟨open_opened.chain, rfl, rfl⟩

theorem Single.extends (h : Single f b (l₁ ++ l₂)) (hext : Extends f f' b l₁ l l₂) :
    Single f' b (l₁ ++ l ++ l₂) :=
  ⟨hext.opened.chain, hext.order_eq.trans h.order_eq, hext.localsSize_eq.trans h.localsSize_eq⟩

/-- The same at the end of the block. -/
theorem Single.append (h : Single f b l) (hext : Extends f f' b l l' []) :
    Single f' b (l ++ l') := by
  have hsingle : Single f b (l ++ []) := by rwa [List.append_nil]
  have happend := hsingle.extends hext
  rwa [List.append_nil] at happend

theorem Single.setPoint (h : Single f b l) (p : InsertPoint) : Single (f.setPoint p) b l :=
  ⟨h.chain.setPoint p, h.order_eq, h.localsSize_eq⟩

/-- Code from the start of the fragment, with empty cells. -/
abbrev RunsTo (g : Guest σ) (o : Offsets) (f : Fragment) (l : List InstrId) (w : World σ)
    (s : Cells) (m : Memory σ) : Prop := Runs f g o l (fun _ => 0) ⟨#[], w⟩ s m

/-- A fragment that comes to a taken branch leaves for its target. -/
theorem evaluates_taken (h : Single f b (l ++ i :: l')) (hrun : RunsTo g o f l w s m)
    (hi : Carries f i op args) (hop : op.isBranch = true)
    (htaken : isTaken op (argBits f cells s (f.instr i) 0) = true)
    (htarget : Exit.target? (f.instr i) = some v) (hv : Holds32 f s v x) :
    ∃ exit, Evaluates g o f w (.ok (exit, m.world.set32 o.pc x)) := by
  have hmem : i ∈ f.allInstrs := by
    simp [allInstrs, h.order_eq, h.chain.blockInstrs_eq]
  obtain ⟨exit, hjump⟩ := jump_leaves (o := o) (m := m) hmem htarget hv
  refine ⟨exit, ?_⟩
  have hrun' : Runs f g o l (fun _ => 0) ⟨Array.replicate f.localsSize.toNat 0, w⟩ s m := by
    rw [h.localsSize_eq]
    exact hrun
  have henter : step f cells g o (start f (fun _ => 0) w) =
      .go ⟨⟨l ++ i :: l', []⟩, fun _ => 0, ⟨Array.replicate f.localsSize.toNat 0, w⟩⟩ := by
    unfold start
    rw [h.order_eq, step_enter, h.chain.blockInstrs_eq]
  have hstop :
    step f cells g o ⟨⟨i :: l', []⟩, s, m⟩ = .stop (.ok (exit, m.world.set32 o.pc x)) := by
    rw [step_instr, ← hjump]
    unfold runInstr
    simp [hi.op_eq, hop, htaken]
  have hgo := (Machine.GoesIn.single henter).trans (hrun'.goesIn (i :: l') [])
  exact hgo.ends ⟨0, .stop hstop⟩

theorem evaluates_branch (h : Single f b (l ++ i :: l')) (hrun : RunsTo g o f l w s m)
    (hi : Carries f i .branch [v]) (hv : Holds32 f s v x) :
    ∃ exit, Evaluates g o f w (.ok (exit, m.world.set32 o.pc x)) := by
  refine evaluates_taken h hrun hi rfl rfl ?_ hv
  unfold Exit.target?
  rw [hi.op_eq]
  exact hi.arg_eq 0

/-- The instruction is a conditional branch to `x`, and its condition holds. -/
def Taken (f : Fragment) (s : Cells) (i : InstrId) (x : UInt32) : Prop :=
  ∃ op c d ty u, IsCondition op ∧ Carries f i op [c, d] ∧ Holds f s c ty u ∧ isTaken op u = true ∧
    Holds32 f s d x

theorem Taken.grows (h : Taken f s i x) (hf : Grows f f') : Taken f' s i x := by
  obtain ⟨op, c, d, ty, u, hop, hi, hc, htaken, hd⟩ := h
  exact ⟨op, c, d, ty, u, hop, hi.grows hf, hc.grows hf fun _ _ => rfl, htaken,
    hd.grows hf fun _ _ => rfl⟩

theorem Taken.evaluates (h : Taken f s i x) (hf : Single f b (l ++ i :: l'))
    (hrun : RunsTo g o f l w s m) :
    ∃ exit, Evaluates g o f w (.ok (exit, m.world.set32 o.pc x)) := by
  obtain ⟨op, c, d, ty, u, hop, hi, hc, htaken, hd⟩ := h
  have harg : argBits f cells s (f.instr i) 0 = u := by
    unfold argBits
    rw [hi.arg_eq]
    exact hc.bits_eq
  have htarget : Exit.target? (f.instr i) = some d := by
    unfold Exit.target?
    rw [hi.op_eq]
    obtain rfl | rfl := hop <;> exact hi.arg_eq 1
  exact evaluates_taken hf hrun hi hop.isBranch (by rw [harg, htaken]) htarget hd

/-- A conditional branch and an unconditional one behind it. -/
theorem evaluates_branchIf {u : UInt64} {ty : Ty} {j : InstrId} (h : Single f b (l ++ [i, j]))
    (hrun : RunsTo g o f l w s m) (hop : IsCondition op) (hi : Carries f i op [c, d])
    (hj : Carries f j .branch [v]) (hc : Holds f s c ty u) (hd : Holds32 f s d x)
    (hv : Holds32 f s v y) : ∃ exit,
      Evaluates g o f w (.ok (exit, m.world.set32 o.pc (if isTaken op u then x else y))) := by
  cases htaken : isTaken op u with
  | true =>
    have hleave : Taken f s i x := ⟨op, c, d, ty, u, hop, hi, hc, htaken, hd⟩
    exact hleave.evaluates h hrun
  | false =>
    have hpast := hrun.append (runs_untaken hop hi hc hd.lt htaken)
    have hsplit : l ++ [i, j] = (l ++ [i]) ++ [j] := by simp
    rw [hsplit] at h
    exact evaluates_branch h hpast hj hv

/-- Code that is followed by a branch to its value leaves for what the value holds. -/
theorem evaluates_emits_branch {act : Build ValueId} {w' : World σ} (h : Single f b l)
    (hopen : Open f b l []) (hrun : RunsTo g o f l w s m)
    (hact : Emits g o act f s m fun v f' s' m' => m'.world = w' ∧ Holds32 f' s' v x) :
    ∃ f', (act >>= Build.branch) f = .ok ((), f') ∧
      ∃ exit, Evaluates g o f' w (.ok (exit, w'.set32 o.pc x)) := by
  obtain ⟨v, f₁, l₁, s₁, m₁, hok, hext, hrun₁, -, hworld, hv⟩ := hact b l [] hopen
  obtain ⟨f₂, hbranch, hemit⟩ := branch_ok hext.opened hv.lt hv.ty_eq
  refine ⟨f₂, by rw [bind_ok hok, hbranch], ?_⟩
  have hsingle₂ := (h.append hext).append (extends_of_emitted hemit)
  have hrun₂ := ((hrun.grows hext.grows).append hrun₁).grows hemit.grows
  rw [← hworld]
  exact evaluates_branch hsingle₂ hrun₂ (carries_of_emitted hemit)
    (hv.grows hemit.grows fun _ _ => rfl)

/-- The same for code that opens the first block. -/
theorem evaluates_of_emits {act : Build ValueId} {w' : World σ}
    (hact : act Fragment.empty = act opened)
    (h : Emits g o act opened (fun _ => 0) ⟨#[], w⟩ fun v f' s' m' =>
      m'.world = w' ∧ Holds32 f' s' v x) :
    ∃ f, (act >>= Build.branch) Fragment.empty = .ok ((), f) ∧
      ∃ exit, Evaluates g o f w (.ok (exit, w'.set32 o.pc x)) := by
  obtain ⟨f, hok, heval⟩ := evaluates_emits_branch single_opened open_opened (.nil _ _) h
  refine ⟨f, ?_, heval⟩
  rw [← hok]
  change (act Fragment.empty >>= fun p => Build.branch p.1 p.2) = _
  rw [hact]
  rfl

end Recompiler.Meaning
