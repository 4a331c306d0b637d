import Recompiler.Pass.Allocation
import Recompiler.Proofs.IR.WellFormed
import Recompiler.Proofs.Interp.Agreement

/-! The fragments that allocation is correct on, and the registers that it needs for them. -/
namespace Recompiler.Pass.Allocation

open IR Interp

/-- The arguments of an instruction that are not constants. -/
def inputs (f : Fragment) (i : InstrId) : List ValueId :=
  (f.instr i).operands.filterMap fun (_, v) => if f.isConstant v then none else some v

/-- The results of the instructions of a list, first to last. -/
def results (f : Fragment) (l : List InstrId) : List ValueId :=
  l.filterMap fun i => (f.instr i).result

/-- A well-formed fragment with the only block `b`. Its instructions use results of earlier ones,
and the local area is accessed at the constant offsets of its slots. -/
structure OneBlock (f : Fragment) (b : BlockId) : Prop where
  wellFormed : WellFormed f
  order_eq : f.order = [b]
  defined : ∀ l₁ i l₂, f.blockInstrs b = l₁ ++ i :: l₂ → ∀ v ∈ inputs f i,
    ∃ j ∈ l₁, (f.instr j).result = some v
  slots : ∀ i ∈ f.blockInstrs b, (f.instr i).op = .loadLocal ∨ (f.instr i).op = .storeLocal →
    ∃ v offset, (f.instr i).arg 0 = some v ∧ (f.value v).origin = .constant (.i32 offset) ∧
      { ty := opTy f (f.instr i), offset := offset.toInt32.toInt } ∈ f.locals

/-- A well-formed fragment with the only block `b`, in which an instruction uses results of earlier
ones. -/
structure Sequential (f : Fragment) (b : BlockId) : Prop where
  wellFormed : WellFormed f
  order_eq : f.order = [b]
  defined : ∀ l₁ i l₂, f.blockInstrs b = l₁ ++ i :: l₂ → ∀ v ∈ inputs f i,
    ∃ j ∈ l₁, (f.instr j).result = some v

/-- Its instructions are well typed too, and every result is an integer or a float. -/
structure StraightLine (f : Fragment) (b : BlockId) : Prop extends OneBlock f b where
  wellTyped : ∀ i ∈ f.blockInstrs b, WellTyped f (f.instr i)
  scalar : ∀ i ∈ f.blockInstrs b, ∀ v, (f.instr i).result = some v →
    (f.ty v).isInt ∨ (f.ty v).isFloat

/-- Every result type has a register, and every type of an input has as many as its instruction has
inputs. -/
structure Registered (regs : Array Register) (f : Fragment) (b : BlockId) : Prop where
  size_le : regs.size ≤ 256
  result : ∀ i ∈ f.blockInstrs b, ∀ v, (f.instr i).result = some v →
    0 < regs.countP (·.holds (f.ty v))
  inputs : ∀ i ∈ f.blockInstrs b, ∀ v ∈ inputs f i,
    (inputs f i).length ≤ regs.countP (·.holds (f.ty v))

/-- The local area has room for a slot for each result as well. -/
structure Enough (regs : Array Register) (f : Fragment) (b : BlockId) : Prop
    extends Registered regs f b where
  room : f.localsSize + 16 * (results f (f.blockInstrs b)).length ≤ Fragment.maxLocalsSize

theorem mem_inputs {f : Fragment} {i : InstrId} {v : ValueId} :
    v ∈ inputs f i ↔ (∃ n, (f.instr i).arg n = some v) ∧ f.isConstant v = false := by
  rw [inputs, List.mem_filterMap]
  constructor
  · rintro ⟨⟨n, u⟩, hm, h⟩
    dsimp only at h
    split at h
    · cases h
    · next hc =>
      cases h
      exact ⟨⟨n, Instr.mem_operands.mp hm⟩, by simpa using hc⟩
  · rintro ⟨⟨n, hn⟩, hc⟩
    exact ⟨(n, v), Instr.mem_operands.mpr hn, by simp [hc]⟩

/-! ### The visit of the only block -/

theorem unseen_of_mem {seen l : List BlockId} (h : ∀ c ∈ l, c ∈ seen) :
    BlockTree.unseen seen l = ([], seen) := by
  induction l with
  | nil => rfl
  | cons c l ih =>
    have hc : seen.contains c = true := by simpa using h c List.mem_cons_self
    rw [BlockTree.unseen, if_pos hc]
    exact ih fun d hd => h d (List.mem_cons_of_mem c hd)

/-- A block whose edges lead back to it is the only one that is visited. -/
theorem visits_of_edges {f : Fragment} {b : BlockId} (hlt : b.index < f.blocks.size)
    (horder : f.order = [b]) (hedges : ∀ c ∈ (f.block b).edges, c ∈ [b]) :
    BlockTree.visits f = [⟨b, none⟩] := by
  have hedges : BlockTree.unseen [b] (f.block b).edges = ([], [b]) := unseen_of_mem hedges
  obtain ⟨n, hn⟩ := Nat.exists_eq_succ_of_ne_zero (by omega : f.blocks.size ≠ 0)
  have hgrow : BlockTree.grow f f.blocks.size [b] [⟨b, none⟩] = ([⟨b, none⟩], [b]) := by
    rw [hn, BlockTree.grow, hedges]
    cases n <;> rfl
  rw [BlockTree.visits, horder, BlockTree.trees]
  simp only [List.contains_nil, Bool.false_eq_true, if_false, hgrow, BlockTree.trees,
    List.append_nil]

/-- All edges of the only block lead back to it. -/
theorem visits_single {f : Fragment} {b : BlockId} (h : WellFormed f) (horder : f.order = [b]) :
    BlockTree.visits f = [⟨b, none⟩] := by
  have hb : b ∈ f.order := by simp [horder]
  refine visits_of_edges (h.chain b hb).block_lt horder fun c hc => ?_
  rw [← horder]
  exact h.edges b hb c hc

end Recompiler.Pass.Allocation
