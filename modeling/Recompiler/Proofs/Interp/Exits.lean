import Recompiler.Proofs.IR.Substitution
import Recompiler.Proofs.Interp.Lowering

/-!
Ways out of register code. Each constant target that a branch can leave for is in the list of exits,
so its number is found, and the pc is the address with that number.
-/
namespace Recompiler

open IR Meaning

/-- Some routine of the guest fails in this way. -/
def Guest.Fails {σ : Type} (g : Guest σ) (e : Fault) : Prop :=
  ∃ routine addr raw w, g.fallback routine addr raw w = .error e

namespace Interp

variable {σ : Type} {g : Guest σ} {o : Offsets} {f : Fragment} {code : Code} {addr a : UInt32}

/-- Branches go to a block, to a constant word or to a computed one. -/
def Addressed (f : Fragment) : Prop :=
  ∀ i ∈ f.allInstrs, ∀ v, Exit.target? (f.instr i) = some v →
    match (f.value v).origin with
    | .constant (.blk _) | .constant (.i32 _) => True
    | .constant _ => False
    | .result _ => f.ty v = .i32

/-- Every number that was asked for was found, and a static exit has the number of the pc. -/
def Numbered (g : Guest σ) (f : Fragment) (o : Offsets) : Result σ → Prop
  | .error e => ∀ a, e = .notStaticExit a → g.Fails e
  | .ok (exit, w) => ∀ slot, exit = .static slot → ∃ a w₀,
    (Exit.statics f)[slot]? = some a ∧ w = World.set32 w₀ o.pc a

/-- The same for a single step. -/
def NumberedStep (g : Guest σ) (f : Fragment) (o : Offsets) : Except Fault (Next × Frame σ) → Prop
  | .error e => Numbered g f o (.error e)
  | .ok (.goto _, _) => True
  | .ok (.leave exit, frame) => Numbered g f o (.ok (exit, frame.world))

theorem numbered_error {e : Fault} (h : ∀ a, e ≠ .notStaticExit a) : Numbered g f o (.error e) :=
  fun a ha => absurd ha (h a)

theorem numbered_dynamic (w : World σ) : Numbered g f o (.ok (.dynamic, w)) := fun _ h => nomatch h

/-- What is computed has nothing to do with exits. -/
theorem apply_ne_notStaticExit {op : Opcode} {ty aty bty : Ty} {x y z : UInt64} :
    Eval.apply op ty aty bty x y z ≠ .error (.notStaticExit a) := by
  intro h
  unfold Eval.apply at h
  split at h
  · cases h
  · unfold Eval.compute at h
    split at h <;> cases h

theorem contextWidth_ne_notStaticExit {ty : Ty} : contextWidth ty ≠ .error (.notStaticExit a) := by
  intro h
  unfold contextWidth at h
  split at h <;> cases h

theorem bind_ne_error {ε α β : Type} {x : Except ε α} {k : α → Except ε β} {e : ε}
    (hx : x ≠ .error e) (hk : ∀ a, k a ≠ .error e) : x >>= k ≠ .error e := by
  cases x with
  | error e' => exact fun h => hx (congrArg Except.error (Except.error.inj h))
  | ok a => exact hk a

/-- Only the guest can fail to find an exit where nothing branches. -/
theorem fails_of_perform {op : Opcode} {ty aty bty : Ty} {x y z : UInt64} {m : Memory σ}
    (h : perform g o op ty aty bty x y z m = .error (.notStaticExit a)) :
    g.Fails (.notStaticExit a) := by
  cases op with
  | sourceInfo | call | loadHost | storeHost | loadGuest | storeGuest => cases h
  | fallback =>
    unfold perform at h
    cases hf : g.fallback x y.toUInt32 z.toUInt32 m.world with
    | error e =>
      rw [hf] at h
      cases h
      exact ⟨x, y.toUInt32, z.toUInt32, m.world, hf⟩
    | ok w =>
      rw [hf] at h
      cases h
  | loadContext | storeContext =>
    exact absurd h (bind_ne_error contextWidth_ne_notStaticExit fun _ => nofun)
  | loadLocal =>
    refine absurd h (bind_ne_error ?_ fun _ => nofun)
    unfold Memory.readLocal
    split <;> exact nofun
  | storeLocal =>
    refine absurd h (bind_ne_error ?_ fun _ => nofun)
    unfold Memory.writeLocal
    split <;> exact nofun
  | _ => exact absurd h (bind_ne_error apply_ne_notStaticExit fun _ => nofun)

theorem exits_of_ofFragment (h : Code.ofFragment addr f = .ok code) :
    code.exits = Exit.statics f := by
  obtain ⟨ops, -, h⟩ := bind_eq_ok h
  cases h
  rfl

/-- A taken branch that leaves finds its number. -/
theorem numbered_jump (hexits : code.exits = Exit.statics f) (haddressed : Addressed f)
    {positions : List (BlockId × Nat)} {i : InstrId} (hi : i ∈ f.allInstrs) {x : Operand}
    (hx : Code.lowerArg f positions (Exit.target? (f.instr i)) = .ok x) (frame : Frame σ) :
    NumberedStep g f o (jump o code frame x) := by
  cases htarget : Exit.target? (f.instr i) with
  | none =>
    rw [htarget] at hx
    cases hx
    exact numbered_error (f := f) (o := o) nofun
  | some v =>
    have hv := haddressed i hi v htarget
    rw [htarget] at hx
    simp only [Code.lowerArg, Code.operand] at hx
    cases horigin : (f.value v).origin with
    | result j =>
      rw [horigin] at hx
      dsimp only at hx
      cases hreg : (f.value v).reg with
      | none =>
        rw [hreg] at hx
        cases hx
      | some r =>
        rw [hreg] at hx
        cases hx
        exact numbered_dynamic (g := g) _
    | constant c =>
      rw [horigin] at hx hv
      cases c with
      | blk b =>
        cases hx
        trivial
      | i32 a =>
        cases hx
        have ha : Exit.address? f i = some a := by
          unfold Exit.address? Value.constant?
          simp [htarget, horigin]
        obtain ⟨slot, hslot, hget⟩ := slot_eq_ok (mem_statics hi ha)
        have hword : ((Constant.i32 a).bits?.getD 0).toUInt32 = a := by simp [Constant.bits?]
        unfold jump
        simp only [hexits, hword, hslot]
        intro slot' hslot'
        cases hslot'
        exact ⟨a, frame.world, hget, rfl⟩
      | _ => exact hv.elim

theorem numbered_step (hexits : code.exits = Exit.statics f) (haddressed : Addressed f)
    {positions : List (BlockId × Nat)} {i : InstrId} (hi : i ∈ f.allInstrs) {op : Op}
    (hop : IsLowered f positions (f.instr i) op) (pos : Nat) (frame : Frame σ) :
    NumberedStep g f o (step g o code pos op frame) := by
  unfold step
  dsimp only
  by_cases hbranch : op.op.isBranch = true
  · rw [if_pos hbranch]
    split
    · refine numbered_jump hexits haddressed hi (?_ : Code.lowerArg f positions _ = _) frame
      rw [hop.op_eq] at hbranch
      rw [branchOf, hop.op_eq]
      rcases isBranch_cases hbranch with heq | heq | heq <;> rw [Exit.target?, heq]
      · exact hop.arg 0
      · exact hop.arg 1
      · exact hop.arg 1
    · trivial
  · rw [if_neg hbranch]
    cases hdone : perform g o op.op op.ty op.argTys[0] op.argTys[1] (frame.operand op.args[0])
        (frame.operand op.args[1]) (frame.operand op.args[2]) frame.toMemory with
    | ok _ => trivial
    | error e =>
      intro a ha
      rw [ha] at hdone ⊢
      exact fails_of_perform hdone

/-- The code of a fragment leaves by numbers. -/
theorem numbered_run (hcode : Code.ofFragment addr f = .ok code) (haddressed : Addressed f)
    (fuel pos : Nat) (frame : Frame σ) : Numbered g f o (run g o code fuel pos frame) := by
  induction fuel generalizing pos frame with
  | zero => exact numbered_error nofun
  | succ fuel ih =>
    rw [run]
    obtain ⟨-, hop⟩ | ⟨i, op, hi, hop, hlowered⟩ := getElem?_ops hcode pos
    · rw [hop]
      exact numbered_dynamic _
    · rw [hop]
      have hstep := numbered_step (g := g) (o := o) (exits_of_ofFragment hcode) haddressed
        (List.mem_of_getElem? hi) hlowered pos frame
      dsimp only
      cases hnext : step g o code pos op frame with
      | error e =>
        rw [hnext] at hstep
        exact hstep
      | ok p =>
        obtain ⟨next, frame'⟩ := p
        rw [hnext] at hstep
        cases next with
        | goto pos' => exact ih pos' frame'
        | leave exit => exact hstep

end Interp
end Recompiler
