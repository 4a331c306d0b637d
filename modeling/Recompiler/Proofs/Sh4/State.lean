import Recompiler.Proofs.Context
import Recompiler.Sh4.Cpu

/-!
Laws of the registers, and what does not depend on the counters: an instruction does the same
whatever they are, and leaves them alone.
-/
namespace Recompiler.Sh4

theorem Field.index_inj {a b : Field} (h : a.index = b.index) : a = b := by
  cases a <;> cases b <;> simp only [Field.index] at h <;> first | rfl | omega | skip
  all_goals
    congr 1
    exact Fin.ext (by omega)

theorem Field.index_lt (f : Field) : f.index < Field.all.length := by
  change f.index < 74
  cases f <;> simp only [Field.index] <;> omega

namespace Context

variable (c : Context)

theorem get_set_same {f : Field} (h : c.size = 4 * Field.all.length) (v : UInt32) :
    get (set c f v) f = v := by
  have hlt := f.index_lt
  exact Context.get32_set32_same c (by omega) v

theorem get_set_ne {f f' : Field} (h : f' ≠ f) (v : UInt32) : get (set c f v) f' = get c f' :=
  Context.get32_set32_ne c (fun e => h (Field.index_inj e)) v

theorem set_comm {f f' : Field} (h : f' ≠ f) (v v' : UInt32) :
    set (set c f v) f' v' = set (set c f' v') f v :=
  Context.set32_comm c (fun e => h (Field.index_inj e)) v v'

theorem set_set (f : Field) (v v' : UInt32) : set (set c f v) f v' = set c f v' :=
  Context.set32_set32 c f.index v v'

theorem set_get (f : Field) : set c f (get c f) = c := Context.set32_get32 c f.index

@[simp] theorem size_set (f : Field) (v : UInt32) : (set c f v).size = c.size :=
  Context.size_set32 c f.offset v

/-! ### Other counters -/

/-- The context with other counters. -/
def counted (x y : UInt32) : Context := set (set c .cycles x) .instrs y

variable (x y : UInt32)

@[simp] theorem get_counted {f : Field} (h : f ≠ .cycles) (h' : f ≠ .instrs) :
    get (counted c x y) f = get c f := by
  rw [counted, get_set_ne _ h', get_set_ne _ h]

@[simp] theorem set_counted {f : Field} (h : f ≠ .cycles) (h' : f ≠ .instrs) (v : UInt32) :
    set (counted c x y) f v = counted (set c f v) x y := by
  rw [counted, counted, set_comm _ h', set_comm _ h]

@[simp] theorem counted_counted (x' y' : UInt32) :
  counted (counted c x y) x' y' = counted c x' y' := by
  unfold counted
  rw [set_comm (set c .cycles x) (by simp : Field.cycles ≠ .instrs), set_set, set_set]

@[simp] theorem ite_counted (p : Prop) [Decidable p] (c c' : Context) :
    (if p then counted c x y else counted c' x y) = counted (if p then c else c') x y :=
  (apply_ite (counted · x y) p c c').symm

@[simp] theorem swapBanks_counted : swapBanks (counted c x y) = counted (swapBanks c) x y :=
  List.foldl_hom (counted · x y) fun c _ => by simp [swap]

@[simp] theorem swapFloatBanks_counted :
    swapFloatBanks (counted c x y) = counted (swapFloatBanks c) x y :=
  List.foldl_hom (counted · x y) fun c _ => by simp [swap]

@[simp] theorem srUpdated_counted (old : UInt32) :
    srUpdated (counted c x y) old = counted (srUpdated c old) x y := by
  simp [srUpdated]

@[simp] theorem setSr_counted (v : UInt32) : setSr (counted c x y) v = counted (setSr c v) x y := by
  simp [setSr]

@[simp] theorem fpscrUpdated_counted (old : UInt32) :
    fpscrUpdated (counted c x y) old = counted (fpscrUpdated c old) x y := by
  simp [fpscrUpdated]

@[simp] theorem setFpscr_counted (v : UInt32) :
    setFpscr (counted c x y) v = counted (setFpscr c v) x y := by
  simp [setFpscr]

@[simp] theorem t_counted : t (counted c x y) = t c := by
  simp [t]

@[simp] theorem setT_counted (on : Bool) : setT (counted c x y) on = counted (setT c on) x y := by
  simp [setT]

@[simp] theorem enterException_counted (spc vector : UInt32) :
    enterException (counted c x y) spc vector = counted (enterException c spc vector) x y := by
  simp [enterException]

/-! ### Sizes -/

@[simp] theorem size_counted : (counted c x y).size = c.size := by
  simp [counted]

@[simp] theorem size_swap (a b : Field) : (swap c a b).size = c.size := by
  simp [swap]

theorem size_foldl {α : Type} (f : Context → α → Context) (h : ∀ c a, (f c a).size = c.size)
    (l : List α) : (l.foldl f c).size = c.size := by
  induction l generalizing c with
  | nil => rfl
  | cons a l ih => rw [List.foldl_cons, ih, h]

@[simp] theorem size_swapBanks : (swapBanks c).size = c.size :=
  size_foldl c _ (fun c _ => size_swap c _ _) _

@[simp] theorem size_swapFloatBanks : (swapFloatBanks c).size = c.size :=
  size_foldl c _ (fun c _ => size_swap c _ _) _

@[simp] theorem size_srUpdated (old : UInt32) : (srUpdated c old).size = c.size := by
  unfold srUpdated
  split <;> simp

@[simp] theorem size_setSr (v : UInt32) : (setSr c v).size = c.size := by
  simp [setSr]

@[simp] theorem size_fpscrUpdated (old : UInt32) : (fpscrUpdated c old).size = c.size := by
  unfold fpscrUpdated
  split <;> simp

@[simp] theorem size_setFpscr (v : UInt32) : (setFpscr c v).size = c.size := by
  simp [setFpscr]

@[simp] theorem size_setT (on : Bool) : (setT c on).size = c.size := by
  simp [setT]

@[simp] theorem size_enterException (spc vector : UInt32) :
    (enterException c spc vector).size = c.size := by
  simp [enterException]

end Context

namespace State

variable (s : State) (x y : UInt32)

/-- The context has all its words. -/
def Sized (s : State) : Prop := s.ctx.size = 4 * Field.all.length

theorem ctx_set (f : Field) (v : UInt32) : (s.set f v).ctx = Context.set s.ctx f v := by
  rw [set]

theorem Sized.set {s : State} (h : s.Sized) (f : Field) (v : UInt32) : (s.set f v).Sized := by
  unfold Sized
  rw [ctx_set, Context.size_set]
  exact h

theorem get_set_same {s : State} (h : s.Sized) (f : Field) (v : UInt32) :
    (s.set f v).get f = v := by
  unfold get
  rw [ctx_set, Context.get_set_same s.ctx h]

theorem get_set_ne {f f' : Field} (h : f' ≠ f) (v : UInt32) : (s.set f v).get f' = s.get f' := by
  unfold get
  rw [ctx_set, Context.get_set_ne s.ctx h]

theorem set_set (f : Field) (v v' : UInt32) : (s.set f v).set f v' = s.set f v' := by
  unfold set
  rw [Context.set_set]

/-! ### Other counters -/

/-- The state with other counters. -/
def counted (s : State) (x y : UInt32) : State := { s with ctx := Context.counted s.ctx x y }

@[simp] theorem ctx_counted : (s.counted x y).ctx = Context.counted s.ctx x y := by
  rw [counted]

@[simp] theorem rest_counted : (s.counted x y).rest = s.rest := by
  rw [counted]

@[simp] theorem counted_counted (x' y' : UInt32) :
  (s.counted x y).counted x' y' = s.counted x' y' := by
  simp only [counted, Context.counted_counted]

@[simp] theorem get_counted {f : Field} (h : f ≠ .cycles) (h' : f ≠ .instrs) :
    (s.counted x y).get f = s.get f := by
  simp only [get, ctx_counted, Context.get_counted s.ctx x y h h']

@[simp] theorem set_counted {f : Field} (h : f ≠ .cycles) (h' : f ≠ .instrs) (v : UInt32) :
    (s.counted x y).set f v = (s.set f v).counted x y := by
  simp only [set, counted, Context.set_counted s.ctx x y h h']

@[simp] theorem read_counted (w : Width) (addr : UInt32) :
    (s.counted x y).read w addr = s.read w addr := by
  simp only [read, rest_counted]

@[simp] theorem write_counted (w : Width) (addr : UInt32) (v : UInt64) :
    (s.counted x y).write w addr v = (s.write w addr v).counted x y := by
  simp only [write, counted]

@[simp] theorem fetch_counted (addr : UInt32) : (s.counted x y).fetch addr = s.fetch addr := by
  simp only [fetch, read_counted]

@[simp] theorem setT_counted (on : Bool) : (s.counted x y).modify (fun c => Context.setT c on) =
    (s.modify fun c => Context.setT c on).counted x y := by
  simp only [modify, counted, Context.setT_counted]

/-- The state with the counters that it has. -/
theorem counted_get : s.counted (s.get .cycles) (s.get .instrs) = s := by
  have hcycles : Context.set s.ctx .cycles (s.get .cycles) = s.ctx := Context.set_get s.ctx .cycles
  have hinstrs : Context.set s.ctx .instrs (s.get .instrs) = s.ctx := Context.set_get s.ctx .instrs
  rw [State.counted, Context.counted, hcycles, hinstrs]

/-- Charging changes the counters. -/
theorem charge_eq (cycles : UInt32) :
    s.charge offsets cycles = s.counted (s.get .cycles - cycles) (s.get .instrs + 1) := by
  have hset : s.charge offsets cycles = (s.set .cycles (s.get .cycles - cycles)).set .instrs
      ((s.set .cycles (s.get .cycles - cycles)).get .instrs + 1) := rfl
  rw [hset, get_set_ne s (by simp)]
  simp only [set, counted, Context.counted]

end State

/-! ### Interpretation -/

open State

variable (s : State) (x y : UInt32)

theorem perform_counted (op : Op) (addr raw : UInt32) :
    perform op addr raw (s.counted x y) = (perform op addr raw s).counted x y := by
  cases op <;> simp [perform, alu, test, loadReg, storeReg, move, branchIf, State.modify, counted,
    State.set, State.get, State.write, State.read]

theorem runSlot_counted (addr : UInt32) :
    runSlot addr (s.counted x y) = (runSlot addr s).map (·.counted x y) := by
  unfold runSlot
  simp only [fetch_counted, perform_counted]
  split <;> rfl

theorem jump_counted (addr target : UInt32) (link : Bool) :
    jump addr target link (s.counted x y) = (jump addr target link s).map (·.counted x y) := by
  unfold jump
  rw [runSlot_counted]
  cases runSlot (addr + 2) s with
  | error e => rfl
  | ok t =>
    simp only [Except.map, bind, Except.bind, pure, Except.pure]
    split <;> simp

theorem delayedBranchIf_counted (addr raw : UInt32) (wanted : Bool) :
    delayedBranchIf addr raw wanted (s.counted x y) =
      (delayedBranchIf addr raw wanted s).map (·.counted x y) := by
  unfold delayedBranchIf
  rw [runSlot_counted, ctx_counted, Context.t_counted]
  cases runSlot (addr + 2) s with
  | error e => rfl
  | ok t => simp [Except.map, bind, Except.bind, pure, Except.pure]

/-- An instruction does the same whatever the counters are. -/
theorem interpret_counted (op : Op) (addr raw : UInt32) :
    interpret op addr raw (s.counted x y) = (interpret op addr raw s).map (·.counted x y) := by
  cases op with
  | btS | bfS => exact delayedBranchIf_counted s x y addr raw _
  | bra | bsr | braf | bsrf | jmp | jsr | rts =>
    unfold interpret
    simp only [jump_counted, get_counted, ne_eq, reduceCtorEq, not_false_eq_true]
  | rte =>
    unfold interpret
    simp only [runSlot_counted, get_counted, ne_eq, reduceCtorEq, not_false_eq_true]
    cases runSlot (addr + 2) s with
    | error e => rfl
    | ok t =>
      simp only [Except.map, bind, Except.bind, pure, Except.pure]
      simp [State.modify, counted, State.set]
  | _ => exact congrArg Except.ok (perform_counted s x y _ addr raw)

/-! ### Sizes -/

theorem Sized.counted {s : State} (h : s.Sized) : (s.counted x y).Sized := by
  unfold Sized at h ⊢
  rw [ctx_counted, Context.size_counted, h]

theorem Sized.perform {s : State} (h : s.Sized) (op : Op) (addr raw : UInt32) :
    (perform op addr raw s).Sized := by
  unfold Sized at h ⊢
  cases op <;>
    simp [Sh4.perform, alu, test, loadReg, storeReg, move, branchIf, State.modify, State.set,
    State.get, State.write, State.read, h]

end Recompiler.Sh4
