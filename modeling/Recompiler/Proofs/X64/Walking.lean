import Recompiler.Proofs.X64.Selection
import Recompiler.Proofs.X64.Standing

/-!
Execution of code line by line. A walk over the lines of one operation executes its instructions,
and skips lines where a jump is taken; the machine that runs the bytes of these lines goes the same
way.
-/
namespace Recompiler.X64

open IR CodeBuffer

namespace Machine

variable {σ : Type} {g : Guest σ} {code : CodeBuffer}

/-- The machine at another position. -/
def moved (m : Machine σ) (pos : Nat) : Machine σ := { m with pos }

/-- The machine fetches, decodes and executes one instruction, and goes on. -/
def Advances (g : Guest σ) (code : CodeBuffer) (m m' : Machine σ) : Prop :=
  ∃ i rest, decode (code.view m.pos (m.pos + longest)) = some (i, rest) ∧
    (m.moved (m.pos + (longest - rest.length))).step g i = .ok (.inl m')

/-- The machine goes from one state to another. -/
def Reaches (g : Guest σ) (code : CodeBuffer) : Machine σ → Machine σ → Prop :=
  Relation.ReflTransGen (Advances g code)

@[simp] theorem pos_moved (m : Machine σ) (pos : Nat) : (m.moved pos).pos = pos := rfl

@[simp] theorem moved_moved (m : Machine σ) (pos pos' : Nat) :
    (m.moved pos).moved pos' = m.moved pos' := rfl

@[simp] theorem gpr_moved (m : Machine σ) (pos : Nat) (r : Gpr) : (m.moved pos).gpr r = m.gpr r :=
  rfl

@[simp] theorem world_moved (m : Machine σ) (pos : Nat) : (m.moved pos).world = m.world := rfl

theorem read_moved (m : Machine σ) (pos : Nat) (a : UInt64) (w : Width) :
    (m.moved pos).read g a w = m.read g a w := rfl

theorem moved_pos (m : Machine σ) : m.moved m.pos = m := rfl

/-- The bytes of an instruction are fetched whole. -/
theorem advances_of_view {m m' : Machine σ} {i : Instruction} (hsaid : i.said = i)
    (hview : code.view m.pos (m.pos + i.bytes.length) = i.bytes)
    (hstep : (m.moved (m.pos + i.bytes.length)).step g i = .ok (.inl m')) :
    Advances g code m m' := by
  have hlong := i.length_bytes
  have hsplit : code.view m.pos (m.pos + longest) =
      i.bytes ++ code.view (m.pos + i.bytes.length) (m.pos + longest) := by
    rw [view_append (Nat.le_add_right ..) (Nat.add_le_add_left hlong m.pos), hview]
  refine ⟨i, code.view (m.pos + i.bytes.length) (m.pos + longest), ?_, ?_⟩
  · rw [hsplit]
    have hread := i.reads_said (code.view (m.pos + i.bytes.length) (m.pos + longest))
    rwa [hsaid] at hread
  · rw [length_view, show longest - (m.pos + longest - (m.pos + i.bytes.length)) = i.bytes.length by
      omega]
    exact hstep

/-- The result of a step at another position. -/
def relocated (pos : Nat) : Machine σ ⊕ World σ → Machine σ ⊕ World σ
  | .inl m => .inl (m.moved pos)
  | .inr w => .inr w

theorem write_moved (m : Machine σ) (pos : Nat) (a : UInt64) (w : Width) (v : UInt64) :
    (m.moved pos).write g a w v = (m.write g a w v).moved pos := by
  unfold write
  change (if m.inContext a then _ else if onStack a then _ else _) = _
  split
  · rfl
  · split <;> rfl

theorem go_write_moved (m : Machine σ) (pos : Nat) (a : UInt64) (w : Width) (v : UInt64) :
    ((m.moved pos).write g a w v).go = ((m.write g a w v).go).map (relocated pos) :=
  congrArg go (write_moved m pos a w v)

theorem setArith_moved (m : Machine σ) (pos : Nat) (op : ArithOp) (dst : Gpr) (r : UInt64 × Flags) :
    (m.moved pos).setArith op dst r = (m.setArith op dst r).moved pos := by
  unfold setArith
  dsimp only
  split <;> rfl

theorem callThunk_moved (m : Machine σ) (pos : Nat) (t : Thunk) :
    (m.moved pos).callThunk g t = (m.callThunk g t).map (moved · pos) := by
  cases t with
  | fallback =>
    simp only [callThunk, gpr_moved, world_moved]
    cases g.fallback (m.gpr Gpr.rsi) (m.gpr Gpr.rdx).toUInt32
      (m.gpr Gpr.rcx).toUInt32 m.world <;> rfl
  | _ => rfl

/-- Only jumps look at the position. -/
theorem step_moved {i : Instruction} (hjump : i.isJump = false) (m : Machine σ) (pos : Nat) :
    (m.moved pos).step g i = (m.step g i).map (relocated pos) := by
  cases i with
  | jump => cases hjump
  | jumpIf => cases hjump
  | arith op wide dst src => exact congrArg go (setArith_moved m pos op dst _)
  | arithImm op wide dst imm => exact congrArg go (setArith_moved m pos op dst _)
  | arithMem op base offset imm =>
    cases op with
    | cmp => rfl
    | _ => exact go_write_moved (g := g) { m with flags := _ } pos _ .w32 _
  | unary op wide reg =>
    cases op with
    | not => rfl
    | neg => rfl
    | idiv =>
      simp only [step, unary, gpr_moved]
      cases divide wide (m.gpr Gpr.rdx) (m.gpr Gpr.rax) (m.gpr reg) <;> rfl
  | store size src base offset => exact go_write_moved m pos _ size _
  | storeImm base offset imm => exact go_write_moved m pos _ .w32 _
  | ret =>
    have hret (m : Machine σ) : m.step g .ret = if m.read g (m.gpr Gpr.rsp) .w64 =
      callerAddress then
        .ok (.inr m.world) else .error .machineTrap := rfl
    rw [hret m]
    refine (hret _).trans ?_
    by_cases htarget : m.read g (m.gpr Gpr.rsp) .w64 = callerAddress
    · rw [if_pos htarget]
      exact if_pos htarget
    · rw [if_neg htarget]
      exact if_neg htarget
  | callReg reg =>
    simp only [step, gpr_moved]
    cases Thunk.ofAddress? (m.gpr reg) with
    | none => rfl
    | some t =>
      simp only [callThunk_moved]
      cases m.callThunk g t <;> rfl
  | push reg => exact go_write_moved (m.setGpr Gpr.rsp _) pos _ .w64 _
  | sse op dst src => cases op <;> rfl
  | sseMem op xmm base offset =>
    cases op with
    | store d => exact go_write_moved m pos _ _ _
    | _ => rfl
  | _ => rfl

end Machine

/-! ### Lines -/

/-- Whether a jump is taken. -/
def taken (cond : Option Cond) (f : Flags) : Bool :=
  match cond with
  | some c => c.holds f
  | none => true

@[simp] theorem taken_none (f : Flags) : taken none f = true :=
  rfl

variable {σ : Type} {g : Guest σ} {code : CodeBuffer} {i : InstrId} {start : Nat}

open X64.Machine Assembly

/-- Execute lines, or skip them up to a label. -/
def walk (g : Guest σ) : Option Label → Assembly → Machine σ → Option (Machine σ)
  | none, [], m => some m
  | none, .instr i :: rest, m =>
    match m.step g i with
    | .ok (.inl m) => walk g none rest m
    | _ => none
  | none, .label _ :: rest, m => walk g none rest m
  | none, .jump cond target :: rest, m =>
    if taken cond m.flags then walk g (some target) rest m else walk g none rest m
  | some _, [], _ => none
  | some t, .label l :: rest, m => if l = t then walk g none rest m else walk g (some t) rest m
  | some t, .instr _ :: rest, m => walk g (some t) rest m
  | some t, .jump .. :: rest, m => walk g (some t) rest m

theorem walk_skip {t : Label} {skipped : Assembly} (h : .label t ∉ skipped) (rest : Assembly)
    (m : Machine σ) : walk g (some t) (skipped ++ .label t :: rest) m = walk g none rest m := by
  induction skipped with
  | nil => exact if_pos rfl
  | cons l skipped ih =>
    rw [List.mem_cons, not_or] at h
    obtain ⟨hl, hrest⟩ := h
    cases l with
    | instr i => exact ih hrest
    | jump cond target => exact ih hrest
    | label l =>
      have hne : l ≠ t := fun e => hl (congrArg Line.label e.symm)
      exact (if_neg hne).trans (ih hrest)

theorem walk_lost {t : Label} {rest : Assembly} (h : .label t ∉ rest) (m : Machine σ) :
    walk g (some t) rest m = none := by
  induction rest with
  | nil => rfl
  | cons l rest ih =>
    rw [List.mem_cons, not_or] at h
    obtain ⟨hl, hrest⟩ := h
    cases l with
    | instr i => exact ih hrest
    | jump cond target => exact ih hrest
    | label l =>
      have hne : l ≠ t := fun e => hl (congrArg Line.label e.symm)
      exact (if_neg hne).trans (ih hrest)

/-- A jump that is taken goes to the first place of its label. -/
theorem Stands.advances_taken {a pre post : Assembly} {cond : Option Cond} {target : Label}
    (h : Stands code start a) (hsplit : a = pre ++ .jump cond target :: post) {m : Machine σ}
    (htaken : taken cond m.flags = true) : ∃ before after : Assembly,
      a = before ++ .label target :: after ∧
      Advances g code (m.moved (start + pre.size)) (m.moved (start + before.size)) := by
  obtain ⟨disp, before, after, hbytes, hbefore, -, hdisp⟩ := h.jump pre cond target post hsplit
  refine ⟨before, after, hbefore, ?_⟩
  rw [← length_jumpBy cond target disp] at hbytes hdisp
  have hland : ((m.moved (start + pre.size)).moved
      (start + pre.size + (Line.jumpBy cond disp).bytes.length)).jumpBy disp =
      .ok (m.moved (start + before.size)) := by
    unfold jumpBy
    simp only [moved_moved, pos_moved, hdisp]
    rw [if_neg (by omega)]
    rfl
  refine advances_of_view ?_ hbytes ?_
  · cases cond <;> rfl
  · rw [pos_moved]
    cases cond with
    | none =>
      change (do return Sum.inl (← jumpBy _ disp)) = _
      rw [hland]
      rfl
    | some c =>
      have hholds : c.holds m.flags = true := htaken
      change (do return Sum.inl (← if c.holds m.flags then jumpBy _ disp else _)) = _
      rw [if_pos hholds, hland]
      rfl

/-- A jump that is not taken falls through. -/
theorem Stands.advances_untaken {a pre post : Assembly} {cond : Option Cond} {target : Label}
    (h : Stands code start a) (hsplit : a = pre ++ .jump cond target :: post) {m : Machine σ}
    (htaken : taken cond m.flags = false) : Advances g code (m.moved (start + pre.size))
      (m.moved (start + pre.size + (Line.jump cond target).size)) := by
  obtain ⟨disp, before, after, hbytes, -, -, -⟩ := h.jump pre cond target post hsplit
  rw [← length_jumpBy cond target disp] at hbytes ⊢
  cases cond with
  | none => cases htaken
  | some c =>
    refine advances_of_view rfl hbytes ?_
    change (do return Sum.inl (← if c.holds m.flags then _ else _)) = _
    rw [if_neg (by simpa [taken] using htaken)]
    rfl

theorem Stands.advances_instr {a pre post : Assembly} {j : Instruction} (h : Stands code start a)
    (hsplit : a = pre ++ .instr j :: post) (hjump : j.isJump = false) (hsaid : j.said = j)
    {m m' : Machine σ} (hstep : m.step g j = .ok (.inl m')) :
    Advances g code (m.moved (start + pre.size))
      (m'.moved (start + pre.size + j.bytes.length)) := by
  refine advances_of_view hsaid (h.instr pre j post hsplit) ?_
  rw [moved_moved, step_moved hjump, hstep]
  rfl

/-- The code goes the way of the walk over its lines. -/
theorem Stands.reaches {a : Assembly} (h : Stands code start a) (hforward : Forward i a)
    (hsaid : ∀ j, .instr j ∈ a → j.said = j) (pre rest : Assembly) (hsplit : a = pre ++ rest)
    {m m' : Machine σ} (hwalk : walk g none rest m = some m') :
    Reaches g code (m.moved (start + pre.size)) (m'.moved (start + a.size)) := by
  match rest with
  | [] =>
    cases hwalk
    rw [hsplit, List.append_nil]
    exact .refl
  | .instr j :: rest =>
    have hmem : .instr j ∈ a := hsplit ▸ List.mem_append_right pre List.mem_cons_self
    unfold walk at hwalk
    split at hwalk
    case h_1 m₁ hstep =>
      have hnext := h.reaches hforward hsaid (pre ++ [.instr j]) rest (by simp [hsplit]) hwalk
      refine .head (h.advances_instr hsplit (hforward.instr hmem) (hsaid j hmem) hstep) ?_
      rwa [size_append, ← Nat.add_assoc] at hnext
    case h_2 => cases hwalk
  | .label l :: rest =>
    have hnext := h.reaches hforward hsaid (pre ++ [.label l]) rest (by simp [hsplit]) hwalk
    rwa [size_append] at hnext
  | .jump cond target :: rest =>
    unfold walk at hwalk
    split at hwalk
    case isTrue htaken =>
      -- The label stands further down, once, so the walk and the jump come to the same place.
      have hmem : .label target ∈ rest := by
        by_contra hlost
        rw [walk_lost hlost] at hwalk
        cases hwalk
      obtain ⟨skipped, after, rfl⟩ := List.append_of_mem hmem
      have hlabel : a = (pre ++ .jump cond target :: skipped) ++ .label target :: after := by
        simp [hsplit]
      obtain ⟨hbefore, hafter⟩ := (hlabel ▸ hforward : Forward i _).once
      have hskipped : .label target ∉ skipped := fun hl =>
        hbefore (List.mem_append_right _ (List.mem_cons_of_mem _ hl))
      rw [walk_skip hskipped] at hwalk
      obtain ⟨before, after', hland, hadvances⟩ := h.advances_taken hsplit htaken
      obtain ⟨rfl, -, -⟩ :=
        (List.append_cons_inj_of_notMem hbefore hafter).mp (hlabel.symm.trans hland)
      have hnext :=
        h.reaches hforward hsaid ((pre ++ .jump cond target :: skipped) ++ [.label target])
        after (by simp [hsplit]) hwalk
      rw [size_append _ [.label target]] at hnext
      exact .head hadvances hnext
    case isFalse htaken =>
      have hnext := h.reaches hforward hsaid (pre ++ [.jump cond target]) rest (by simp [hsplit])
        hwalk
      refine .head (h.advances_untaken hsplit (Bool.not_eq_true _ ▸ htaken)) ?_
      rwa [size_append, ← Nat.add_assoc] at hnext
termination_by rest.length

end Recompiler.X64
