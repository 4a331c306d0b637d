import Recompiler.Pass.AllocationCheck
import Recompiler.Proofs.Allocation.StraightLine
import Recompiler.Proofs.Interp.Lowering

/-!
The check of an allocation on a fragment with one block. It accepts exactly the assignments in which
every argument is still in its register where it is read, and register code that it accepts does
what the fragment does with a cell for each value.
-/
namespace Recompiler.Pass.AllocationCheck

open IR Interp Machine Meaning
open Allocation (inputs mem_inputs)

variable {f : Fragment} {b : BlockId} {regs : Array Register}
  {pre post : List InstrId} {i : InstrId}
  {r : UInt8} {v : ValueId}

/-! ### Registers and their last writers -/

/-- Whether an instruction leaves its result in a register. -/
def writes (f : Fragment) (r : UInt8) (i : InstrId) : Bool :=
  ((f.instr i).result.bind fun v => (f.value v).reg) = some r

/-- The last instruction of a list that leaves its result in a register. -/
def lastWriter? (f : Fragment) (r : UInt8) (l : List InstrId) : Option InstrId :=
  l.reverse.find? (writes f r)

/-- Behind the instructions of a list a value is in its register: it has one, and its definition is
the last of them that writes that register. -/
def InRegister (f : Fragment) (l : List InstrId) (v : ValueId) : Prop :=
  ∃ r j, (f.value v).reg = some r ∧ lastWriter? f r l = some j ∧ (f.instr j).result = some v

/-- Every argument that is not a constant is in its register where it is read. -/
def InPlace (f : Fragment) (b : BlockId) : Prop :=
  ∀ l₁ i l₂, f.blockInstrs b = l₁ ++ i :: l₂ → ∀ v ∈ inputs f i, InRegister f l₁ v

/-- The registers of all results exist. -/
def Assigned (f : Fragment) (regs : Array Register) : Prop :=
  ∀ v r, f.isConstant v = false → (f.value v).reg = some r → r.toNat < regs.size

theorem lastWriter?_concat (f : Fragment) (r : UInt8) (l : List InstrId) (i : InstrId) :
    lastWriter? f r (l ++ [i]) = if writes f r i then some i else lastWriter? f r l := by
  unfold lastWriter?
  rw [List.reverse_append, List.reverse_singleton, List.singleton_append, List.find?_cons]
  cases writes f r i <;> rfl

theorem writes_iff : writes f r i ↔ ∃ v, (f.instr i).result = some v ∧
    (f.value v).reg = some r := by
  unfold writes
  rw [decide_eq_true_iff, Option.bind_eq_some_iff]

/-! ### The check of an instruction -/

/-- The value that a register holds behind the instructions of a list. -/
def holder? (f : Fragment) (r : UInt8) (l : List InstrId) : Option ValueId :=
  (lastWriter? f r l).bind fun j => (f.instr j).result

theorem inRegister_iff {l : List InstrId} :
    InRegister f l v ↔ ∃ r, (f.value v).reg = some r ∧ holder? f r l = some v := by
  unfold InRegister holder?
  simp only [Option.bind_eq_some_iff, exists_and_left]

/-- The check knows what each register holds. -/
structure Tracks (f : Fragment) (regs : Array Register) (pre : List InstrId) (active : Active) :
    Prop where
  size_eq : active.size = regs.size
  holder_eq : ∀ r : UInt8, r.toNat < regs.size → active[r.toNat]? = some (holder? f r pre)

theorem tracks_nil (f : Fragment) (regs : Array Register) :
    Tracks f regs [] (Array.replicate regs.size none) where
  size_eq := Array.size_replicate
  holder_eq r hr := by
    rw [Array.getElem?_replicate, if_pos hr]
    rfl

theorem checkArg_spec (hregs : Assigned f regs) {active : Active} (h : Tracks f regs pre active)
    (op : Opcode) (slot : Slot) (v : ValueId) :
    (f.isConstant v = true ∨ InRegister f pre v) ∧ checkArg f regs op active slot v = .ok () ∨
    (f.isConstant v = false ∧ ¬ InRegister f pre v) ∧
      ∃ e, checkArg f regs op active slot v = .error (.rejected e) := by
  unfold checkArg
  rw [inRegister_iff]
  cases hc : f.isConstant v with
  | true => exact .inl ⟨.inl rfl, rfl⟩
  | false =>
    simp only [Bool.false_eq_true, if_false, false_or]
    cases hr : (f.value v).reg with
    | none => exact .inr ⟨⟨trivial, by simp⟩, _, rfl⟩
    | some r =>
      have hlt := hregs v r hc hr
      simp only [h.holder_eq r hlt, Array.getElem?_eq_getElem hlt]
      by_cases hv : holder? f r pre = some v
      · exact .inl ⟨⟨r, rfl, hv⟩, if_pos hv⟩
      · refine .inr ⟨⟨trivial, ?_⟩, _, if_neg hv⟩
        rintro ⟨_, hr', h⟩
        cases hr'
        exact hv h

/-- A list of checks is passed if each of them is; the first one that is not rejects. -/
theorem forM_check {α : Type} {k : α → Except Stop Unit} {P : α → Prop}
    (hk : ∀ a, P a ∧ k a = .ok () ∨ ¬ P a ∧ ∃ e, k a = .error (.rejected e)) (l : List α) :
    (∀ a ∈ l, P a) ∧ l.forM k = .ok () ∨
      ¬ (∀ a ∈ l, P a) ∧ ∃ e, l.forM k = .error (.rejected e) := by
  induction l with
  | nil => exact .inl ⟨by simp, rfl⟩
  | cons a l ih =>
    rw [List.forall_mem_cons]
    change (_ ∧ (k a >>= fun _ => l.forM k) = _) ∨ (_ ∧ ∃ e, (k a >>= fun _ => l.forM k) = _)
    rcases hk a with ⟨ha, hok⟩ | ⟨ha, e, herr⟩
    · rw [hok]
      rcases ih with ⟨hl, hrest⟩ | ⟨hl, hrest⟩
      · exact .inl ⟨⟨ha, hl⟩, hrest⟩
      · exact .inr ⟨fun h => hl h.2, hrest⟩
    · rw [herr]
      exact .inr ⟨fun h => ha h.1, e, rfl⟩

theorem forall_operands {P : ValueId → Prop} :
    (∀ p ∈ (f.instr i).operands, f.isConstant p.2 = true ∨ P p.2) ↔ ∀ v ∈ inputs f i, P v := by
  constructor
  · intro h v hv
    obtain ⟨⟨n, hn⟩, hc⟩ := mem_inputs.mp hv
    rcases h (n, v) (Instr.mem_operands.mpr hn) with hv | hv
    · rw [hv] at hc
      cases hc
    · exact hv
  · rintro h ⟨n, v⟩ hp
    cases hc : f.isConstant v with
    | true => exact .inl rfl
    | false => exact .inr (h v (mem_inputs.mpr ⟨⟨n, Instr.mem_operands.mp hp⟩, hc⟩))

theorem holder?_concat (f : Fragment) (r : UInt8) (l : List InstrId) (i : InstrId) :
    holder? f r (l ++ [i]) = if writes f r i then (f.instr i).result else holder? f r l := by
  unfold holder?
  rw [lastWriter?_concat]
  split <;> rfl

/-- Recording a result keeps track of the registers. -/
theorem Tracks.record {active : Active} (h : Tracks f regs pre active) {reg : UInt8}
    (hv : (f.instr i).result = some v) (hr : (f.value v).reg = some reg) :
    Tracks f regs (pre ++ [i]) (active.setIfInBounds reg.toNat (some v)) where
  size_eq := Array.size_setIfInBounds.trans h.size_eq
  holder_eq r hlt := by
    rw [holder?_concat, Array.getElem?_setIfInBounds]
    have hw : writes f r i ↔ reg.toNat = r.toNat := by
      rw [writes_iff, UInt8.toNat_inj]
      constructor
      · rintro ⟨u, hu, hur⟩
        cases hv.symm.trans hu
        exact Option.some.inj (hr.symm.trans hur)
      · rintro rfl
        exact ⟨v, hv, hr⟩
    by_cases he : reg.toNat = r.toNat
    · rw [if_pos he, if_pos (by rw [h.size_eq, he]; exact hlt), if_pos (hw.mpr he), hv]
    · rw [if_neg he, if_neg fun h => he (hw.mp h), h.holder_eq r hlt]

/-- An instruction without a result in a register changes none. -/
theorem Tracks.skip {active : Active} (h : Tracks f regs pre active)
    (hnone : ((f.instr i).result.bind fun v => (f.value v).reg.map (v, ·)) = none) :
    Tracks f regs (pre ++ [i]) active where
  size_eq := h.size_eq
  holder_eq r hlt := by
    rw [holder?_concat, if_neg, h.holder_eq r hlt]
    rw [writes_iff]
    rintro ⟨v, hv, hr⟩
    rw [hv, Option.bind_some, hr] at hnone
    cases hnone

/-- An instruction is accepted if its arguments are in their registers, and rejected otherwise. -/
theorem checkInstr_spec (hf : WellFormed f) (hregs : Assigned f regs) (hi : i ∈ f.allInstrs)
    {active : Active} (h : Tracks f regs pre active) :
    (∀ v ∈ inputs f i, InRegister f pre v) ∧
      (∃ active', checkInstr f regs active i = .ok active' ∧ Tracks f regs (pre ++ [i]) active') ∨
    ¬ (∀ v ∈ inputs f i, InRegister f pre v) ∧
      ∃ e, checkInstr f regs active i = .error (.rejected e) := by
  have hargs := forM_check (P := fun p : Slot × ValueId =>
    f.isConstant p.2 = true ∨ InRegister f pre p.2)
    (k := fun p => checkArg f regs (f.instr i).op active p.1 p.2)
    (fun p => (checkArg_spec hregs h (f.instr i).op p.1 p.2).imp_right fun ⟨hp, he⟩ =>
      ⟨by simpa [not_or] using hp, he⟩) (f.instr i).operands
  rw [forall_operands] at hargs
  unfold checkInstr
  rcases hargs with ⟨hin, hok⟩ | ⟨hin, e, herr⟩
  · refine .inl ⟨hin, ?_⟩
    simp only [hok, bind, Except.bind]
    cases hres : (f.instr i).result.bind fun v => (f.value v).reg.map (v, ·) with
    | none => exact ⟨active, rfl, h.skip hres⟩
    | some p =>
      obtain ⟨v, hv, hp⟩ := Option.bind_eq_some_iff.mp hres
      obtain ⟨reg, hr, rfl⟩ := Option.map_eq_some_iff.mp hp
      have hconst : f.isConstant v = false :=
        (Value.isConstant_eq_false_iff _).mpr ⟨i, (hf.result i hi v hv).2⟩
      have hlt : reg.toNat < active.size := h.size_eq ▸ hregs v reg hconst hr
      exact ⟨_, if_pos hlt, h.record hv hr⟩
  · refine .inr ⟨hin, e, ?_⟩
    simp only [herr, bind, Except.bind]

/-! ### The check of a block -/

theorem foldlM_checkInstr (hf : WellFormed f) (hregs : Assigned f regs)
    (hpost : ∀ i ∈ post, i ∈ f.allInstrs) {active : Active} (h : Tracks f regs pre active) :
    (∀ l₁ i l₂, post = l₁ ++ i :: l₂ → ∀ v ∈ inputs f i, InRegister f (pre ++ l₁) v) ∧
      (∃ active', post.foldlM (checkInstr f regs) active = .ok active') ∨
    ¬ (∀ l₁ i l₂, post = l₁ ++ i :: l₂ → ∀ v ∈ inputs f i, InRegister f (pre ++ l₁) v) ∧
      ∃ e, post.foldlM (checkInstr f regs) active = .error (.rejected e) := by
  induction post generalizing pre active with
  | nil => exact .inl ⟨by simp, active, rfl⟩
  | cons i post ih =>
    rw [forall_split_cons, List.append_nil, List.foldlM_cons]
    rcases checkInstr_spec hf hregs (hpost i List.mem_cons_self) h with
      ⟨hin, active', hok, h'⟩ | ⟨hin, e, herr⟩
    · have hrest := ih (fun j hj => hpost j (List.mem_cons_of_mem i hj)) h'
      simp only [List.append_assoc, List.singleton_append] at hrest
      rw [hok]
      exact hrest.imp (fun ⟨hp, hx⟩ => ⟨⟨hin, hp⟩, hx⟩) fun ⟨hp, hx⟩ => ⟨fun h => hp h.2, hx⟩
    · rw [herr]
      exact .inr ⟨fun h => hin h.1, e, rfl⟩

/-- The check of a fragment with one block has an answer, and it accepts exactly if every argument
is in place. -/
theorem run_spec (hf : WellFormed f) (horder : f.order = [b]) (hregs : Assigned f regs) :
    InPlace f b ∧ run f regs = .ok none ∨ ¬ InPlace f b ∧ ∃ e, run f regs = .ok (some e) := by
  have hall : ∀ i ∈ f.blockInstrs b, i ∈ f.allInstrs := fun i hi =>
    WellFormed.mem_allInstrs (by simp [horder]) hi
  have hfold := foldlM_checkInstr hf hregs hall (tracks_nil f regs)
  simp only [List.nil_append] at hfold
  unfold run
  rw [Allocation.visits_single hf horder, checkAll]
  simp only [Option.bind_none, Option.getD_none]
  rcases hfold with ⟨hin, active', hok⟩ | ⟨hin, e, herr⟩
  · exact .inl ⟨hin, by simp only [hok, checkAll, bind, Except.bind]⟩
  · exact .inr ⟨hin, e, by simp only [herr, bind, Except.bind]⟩

/-! ### Accepted code -/

section
variable {σ : Type} {cells : Cells} {rf : Array UInt64}

/-- Values that are in their registers have the bits of their cells there. -/
structure Holds (f : Fragment) (regs : Array Register) (pre : List InstrId) (cells : Cells)
    (rf : Array UInt64) : Prop where
  size_eq : rf.size = regs.size
  get_eq : ∀ v, InRegister f pre v → (Meaning.registers f).get rf v = cells v

theorem not_inRegister_nil (f : Fragment) (v : ValueId) : ¬ InRegister f [] v := by
  rintro ⟨r, j, -, hj, -⟩
  cases hj

theorem Holds.argBits_eq (h : Holds f regs pre cells rf)
    (hin : ∀ v ∈ inputs f i, InRegister f pre v)
    (n : Slot) :
    argBits f (Meaning.registers f) rf (f.instr i) n = argBits f Meaning.cells cells
      (f.instr i) n := by
  unfold argBits
  cases hn : (f.instr i).arg n with
  | none => rfl
  | some v =>
    simp only [bits]
    cases ho : (f.value v).origin with
    | constant c => rfl
    | result j =>
      have hconst : f.isConstant v = false := (Value.isConstant_eq_false_iff _).mpr ⟨j, ho⟩
      exact h.get_eq v (hin v (mem_inputs.mpr ⟨⟨n, hn⟩, hconst⟩))

/-- An instruction without a result leaves everything where it is. -/
theorem Holds.skip (h : Holds f regs pre cells rf) (hnone : (f.instr i).result = none) :
    Holds f regs (pre ++ [i]) cells rf where
  size_eq := h.size_eq
  get_eq v hv := by
    obtain ⟨r, j, hr, hj, hjv⟩ := hv
    rw [lastWriter?_concat, if_neg] at hj
    · exact h.get_eq v ⟨r, j, hr, hj, hjv⟩
    · rw [writes_iff]
      rintro ⟨u, hu, -⟩
      rw [hnone] at hu
      cases hu

/-- A result goes to its cell and, if it has one, to its register. -/
theorem Holds.keep (h : Holds f regs pre cells rf) (hregs : Assigned f regs) {u : ValueId}
    (hu : (f.instr i).result = some u) (hconst : f.isConstant u = false) (x : UInt64) :
    Holds f regs (pre ++ [i]) (Meaning.cells.set cells u x) ((Meaning.registers f).set rf u x) where
  size_eq := by
    simp only [Meaning.registers]
    cases (f.value u).reg with
    | none => exact h.size_eq
    | some r => exact Array.size_setIfInBounds.trans h.size_eq
  get_eq v hv := by
    obtain ⟨r, j, hr, hj, hjv⟩ := hv
    rw [lastWriter?_concat] at hj
    split at hj
    case isTrue hw =>
      -- the register was written by this instruction
      cases hj
      cases hu.symm.trans hjv
      have hlt : r.toNat < rf.size := h.size_eq ▸ hregs u r hconst hr
      simp only [Meaning.registers, Meaning.cells, hr, Array.getD_eq_getD_getElem?,
        Array.getElem?_setIfInBounds, hlt, if_true, Option.getD_some]
    case isFalse hw =>
      -- it still holds what an earlier instruction left there
      have hother : (f.value u).reg ≠ some r := fun h => hw (writes_iff.mpr ⟨u, hu, h⟩)
      have hvu : v ≠ u := by
        rintro rfl
        exact hother hr
      have hold := h.get_eq v ⟨r, j, hr, hj, hjv⟩
      simp only [Meaning.registers, hr] at hold ⊢
      simp only [Meaning.cells, if_neg hvu, ← hold]
      cases hreg : (f.value u).reg with
      | none => rfl
      | some r' =>
        have hne : r'.toNat ≠ r.toNat := by
          intro e
          exact hother (hreg.trans (congrArg some (UInt8.toNat_inj.mp e)))
        simp only [Array.getD_eq_getD_getElem?, Array.getElem?_setIfInBounds, if_neg hne]

/-- A run with cells and one on registers are before the same instruction. -/
inductive Beside (f : Fragment) (b : BlockId) (regs : Array Register) :
    Config Cells σ → Config (Array UInt64) σ → Prop
  | intro {pre post : List InstrId} {cells : Cells} {rf : Array UInt64} {m : Memory σ}
      (split : f.blockInstrs b = pre ++ post) (holds : Holds f regs pre cells rf) :
      Beside f b regs ⟨⟨post, []⟩, cells, m⟩ ⟨⟨post, []⟩, rf, m⟩

/-- Both runs go on beside each other, or stop with the same result. -/
inductive SameTurn (f : Fragment) (b : BlockId) (regs : Array Register) :
    Turn (Config Cells σ) (Result σ) → Turn (Config (Array UInt64) σ) (Result σ) → Prop
  | go {c : Config Cells σ} {d : Config (Array UInt64) σ} (h : Beside f b regs c d) :
      SameTurn f b regs (.go c) (.go d)
  | stop (r : Result σ) : SameTurn f b regs (.stop r) (.stop r)

/-- A fragment whose arguments are in place, and in which only operations that yield a result define
one. -/
structure Accepted (f : Fragment) (b : BlockId) (regs : Array Register) : Prop where
  wellFormed : WellFormed f
  order_eq : f.order = [b]
  assigned : Assigned f regs
  inPlace : InPlace f b
  result : ∀ i ∈ f.blockInstrs b, (f.instr i).result.isSome → (f.instr i).op.hasResult

variable (h : Accepted f b regs)
include h

theorem Accepted.startOf_eq : startOf f b = ⟨f.blockInstrs b, []⟩ := by
  rw [startOf, h.order_eq]
  simp

theorem Accepted.restart (hsize : rf.size = regs.size) (m : Memory σ) :
    Beside f b regs ⟨startOf f b, cells, m⟩ ⟨startOf f b, rf, m⟩ := by
  rw [h.startOf_eq]
  exact .intro (List.nil_append _).symm ⟨hsize, fun v hv => absurd hv (not_inRegister_nil f v)⟩

/-- A branch leads back to the start of the block, or out to the same place. -/
theorem Accepted.jump (hin : ∀ v ∈ inputs f i, InRegister f pre v)
    (hh : Holds f regs pre cells rf) (o : Offsets) (m : Memory σ) {target : Option ValueId}
    (htarget : ∀ v, target = some v → ∃ n, (f.instr i).arg n = some v) :
    SameTurn f b regs (Meaning.jump f Meaning.cells o cells m target)
      (Meaning.jump f (Meaning.registers f) o rf m target) := by
  cases target with
  | none => exact .stop _
  | some v =>
    simp only [Meaning.jump]
    cases ho : (f.value v).origin with
    | result j =>
      have hconst : f.isConstant v = false := (Value.isConstant_eq_false_iff _).mpr ⟨j, ho⟩
      simp only [hh.get_eq v (hin v (mem_inputs.mpr ⟨htarget v rfl, hconst⟩)), Meaning.cells]
      exact .stop _
    | constant c =>
      cases c
      case blk b' =>
        have hmem := h.wellFormed.target v b' ho
        rw [h.order_eq, List.mem_singleton] at hmem
        subst hmem
        exact .go (h.restart hh.size_eq m)
      all_goals
        dsimp only
        split <;> exact .stop _

theorem Accepted.runInstr (hi : f.blockInstrs b = pre ++ i :: post)
    (hh : Holds f regs pre cells rf) (g : Guest σ) (o : Offsets) (m : Memory σ) :
    SameTurn f b regs (runInstr f Meaning.cells g o i ⟨post, []⟩ cells m)
      (runInstr f (Meaning.registers f) g o i ⟨post, []⟩ rf m) := by
  have hmem : i ∈ f.blockInstrs b := by simp [hi]
  have hin := h.inPlace pre i post hi
  have hsplit : f.blockInstrs b = (pre ++ [i]) ++ post := by simp [hi]
  simp only [Meaning.runInstr, hh.argBits_eq hin]
  cases hbr : (f.instr i).op.isBranch with
  | true =>
    have hnone : (f.instr i).result = none := by
      cases hv : (f.instr i).result with
      | none => rfl
      | some v =>
        have := h.result i hmem (by simp [hv])
        rw [hasResult_of_isBranch hbr] at this
        cases this
    simp only [if_true]
    split
    · refine h.jump hin hh o m fun v hv => ?_
      unfold Exit.target? at hv
      split at hv
      · exact ⟨0, hv⟩
      · exact ⟨1, hv⟩
      · exact ⟨1, hv⟩
      · cases hv
    · exact .go (.intro hsplit (hh.skip hnone))
  | false =>
    simp only [Bool.false_eq_true, if_false]
    cases hp : perform g o (f.instr i).op (opTy f (f.instr i)) (argTy f (f.instr i) 0)
        (argTy f (f.instr i) 1) (argBits f Meaning.cells cells (f.instr i) 0)
        (argBits f Meaning.cells cells (f.instr i) 1)
        (argBits f Meaning.cells cells (f.instr i) 2) m with
    | error e => exact .stop _
    | ok p =>
      obtain ⟨out, m'⟩ := p
      refine .go ?_
      cases hv : (f.instr i).result with
      | none =>
        simp only [Meaning.keep, hv]
        exact .intro hsplit (hh.skip hv)
      | some v =>
        obtain ⟨x, rfl⟩ := Option.isSome_iff_exists.mp
          (perform_isSome g o (h.result i hmem (by simp [hv])) _ _ _ _ _ _ _ hp)
        simp only [Meaning.keep, hv]
        have horigin := (h.wellFormed.result i
          (WellFormed.mem_allInstrs (by simp [h.order_eq]) hmem) v hv).2
        exact .intro hsplit (hh.keep h.assigned hv
          ((Value.isConstant_eq_false_iff _).mpr ⟨i, horigin⟩) _)

theorem Accepted.advance (g : Guest σ) (o : Offsets) (c : Config Cells σ)
    (d : Config (Array UInt64) σ) (hcd : Beside f b regs c d) :
    Advance (step f Meaning.cells g o) (step f (Meaning.registers f) g o) (Beside f b regs)
      (· = ·) c d := by
  cases hcd with
  | @intro pre post cells rf m hsplit hh =>
    cases post with
    | nil => exact .stop ⟨0, .stop (step_end ..)⟩ ⟨0, .stop (step_end ..)⟩ rfl
    | cons i post =>
      have hturn := h.runInstr hsplit hh g o m
      rw [← step_instr, ← step_instr] at hturn
      generalize hl : step f Meaning.cells g o _ = left at hturn
      generalize hr : step f (Meaning.registers f) g o _ = right at hturn
      cases hturn with
      | go hrel => exact .go (m := 0) (n := 0) (.single hl) (.single hr) hrel
      | stop r => exact .stop ⟨0, .stop hl⟩ ⟨0, .stop hr⟩ rfl

/-- On registers the fragment ends as it does with cells. -/
theorem Accepted.ends_iff (g : Guest σ) (o : Offsets) (w : World σ) (r : Result σ) :
    Ends (step f (Meaning.registers f) g o) (Meaning.start f (Array.replicate regs.size 0) w) r ↔
      Evaluates g o f w r := by
  set locals : Array UInt8 := Array.replicate f.localsSize.toNat 0
  have hstart : Beside f b regs ⟨startOf f b, fun _ => 0, ⟨locals, w⟩⟩
      ⟨startOf f b, Array.replicate regs.size 0, ⟨locals, w⟩⟩ :=
    h.restart Array.size_replicate ⟨locals, w⟩
  obtain ⟨hforth, hback⟩ := simulation (h.advance g o) hstart
  have henter : ∀ {α : Type} (st : Store α) (s : α),
      GoesIn (step f st g o) 1 (Meaning.start f s w)
        ⟨startOf f b, s, ⟨locals, w⟩⟩ := by
    intro α st s
    rw [h.startOf_eq, Meaning.start, h.order_eq]
    exact .single (step_enter ..)
  rw [Evaluates, (henter Meaning.cells _).ends_iff, (henter (Meaning.registers f) _).ends_iff]
  constructor
  · intro hend
    obtain ⟨_, hend', rfl⟩ := hback r hend
    exact hend'
  · intro hend
    obtain ⟨_, hend', rfl⟩ := hforth r hend
    exact hend'

omit h in
/-- No argument that is in place is without a register. -/
theorem lowerArg_ne_fault (hin : ∀ v ∈ inputs f i, InRegister f pre v)
    (positions : List (BlockId × Nat)) (n : Slot) (e : Fault) :
    Code.lowerArg f positions ((f.instr i).arg n) ≠ .error (.fault e) := by
  cases hn : (f.instr i).arg n with
  | none => exact fun h => by cases h
  | some v =>
    rw [Code.lowerArg, Code.operand]
    cases ho : (f.value v).origin with
    | constant c => cases c <;> exact fun h => by cases h
    | result j =>
      have hconst : f.isConstant v = false := (Value.isConstant_eq_false_iff _).mpr ⟨j, ho⟩
      obtain ⟨r, -, hr, -, -⟩ := hin v (mem_inputs.mpr ⟨⟨n, hn⟩, hconst⟩)
      simp only [hr]
      exact fun h => by cases h

omit h in
theorem lowerInstr_ne_fault (hin : ∀ v ∈ inputs f i, InRegister f pre v)
    (positions : List (BlockId × Nat)) (e : Fault) :
    Code.lowerInstr f positions i ≠ .error (.fault e) := by
  have harg := lowerArg_ne_fault hin positions
  intro h
  unfold Code.lowerInstr at h
  cases h₀ : Code.lowerArg f positions ((f.instr i).arg 0) with
  | error x =>
    simp only [h₀, bind, Except.bind] at h
    cases h
    exact harg 0 e h₀
  | ok a =>
    cases h₁ : Code.lowerArg f positions ((f.instr i).arg 1) with
    | error x =>
      simp only [h₀, h₁, bind, Except.bind] at h
      cases h
      exact harg 1 e h₁
    | ok b =>
      cases h₂ : Code.lowerArg f positions ((f.instr i).arg 2) with
      | error x =>
        simp only [h₀, h₁, h₂, bind, Except.bind] at h
        cases h
        exact harg 2 e h₂
      | ok c =>
        simp only [h₀, h₁, h₂, bind, Except.bind] at h
        split at h <;> cases h

omit h in
/-- A fragment whose arguments are in place can be lowered, unless the backend does not support
it. -/
theorem ofFragment_ne_fault (horder : f.order = [b]) (hin : InPlace f b)
    (addr : UInt32) (e : Fault) :
    Code.ofFragment addr f ≠ .error (.fault e) := by
  intro h
  unfold Code.ofFragment at h
  cases hmap : f.allInstrs.mapM (Code.lowerInstr f (Code.starts f 0 f.order)) with
  | ok ops =>
    rw [hmap] at h
    cases h
  | error x =>
    rw [hmap] at h
    cases h
    obtain ⟨i, hi, hlow⟩ := exists_of_mapM_error hmap
    have hall : f.allInstrs = f.blockInstrs b := by simp [Fragment.allInstrs, horder]
    rw [hall] at hi
    obtain ⟨l₁, l₂, hl⟩ := List.append_of_mem hi
    exact lowerInstr_ne_fault (hin l₁ i l₂ hl) _ e hlow

end

/-! ### Support by register code -/

/-- An instruction that register code has: no operand is a string, and there are no vectors. -/
structure Lowerable (f : Fragment) (i : InstrId) : Prop where
  no_string : ∀ n v s, (f.instr i).arg n = some v → (f.value v).origin ≠ .constant (.str s)
  opTy_scalar : (opTy f (f.instr i)).isVector = false
  argTy_scalar : ∀ n, (argTy f (f.instr i) n).isVector = false

theorem Lowerable.exists_lowerArg (h : Lowerable f i) (hin : ∀ v ∈ inputs f i, InRegister f pre v)
    (positions : List (BlockId × Nat)) (n : Slot) :
    ∃ x, Code.lowerArg f positions ((f.instr i).arg n) = .ok x := by
  cases hx : Code.lowerArg f positions ((f.instr i).arg n) with
  | ok x => exact ⟨x, rfl⟩
  | error e =>
    exfalso
    cases hn : (f.instr i).arg n with
    | none =>
      rw [hn] at hx
      cases hx
    | some v =>
      rw [hn, Code.lowerArg, Code.operand] at hx
      cases ho : (f.value v).origin with
      | constant c =>
        rw [ho] at hx
        cases c with
        | str s => exact h.no_string n v s hn ho
        | _ => cases hx
      | result j =>
        have hconst : f.isConstant v = false := (Value.isConstant_eq_false_iff _).mpr ⟨j, ho⟩
        obtain ⟨r, -, hr, -, -⟩ := hin v (mem_inputs.mpr ⟨⟨n, hn⟩, hconst⟩)
        simp only [ho, hr] at hx
        cases hx

theorem Lowerable.exists_lowerInstr (h : Lowerable f i)
    (hin : ∀ v ∈ inputs f i, InRegister f pre v) (positions : List (BlockId × Nat)) :
    ∃ op, Code.lowerInstr f positions i = .ok op := by
  obtain ⟨a, ha⟩ := h.exists_lowerArg hin positions 0
  obtain ⟨b, hb⟩ := h.exists_lowerArg hin positions 1
  obtain ⟨c, hc⟩ := h.exists_lowerArg hin positions 2
  have hscalar : ((opTy f (f.instr i)).isVector || #v[argTy f (f.instr i) 0,
      argTy f (f.instr i) 1, argTy f (f.instr i) 2].any (·.isVector)) = false := by
    simp [h.opTy_scalar, h.argTy_scalar]
  unfold Code.lowerInstr
  simp only [ha, hb, hc, bind, Except.bind, hscalar]
  exact ⟨_, rfl⟩

/-- A fragment whose arguments are in place and whose instructions are supported can be lowered. -/
theorem exists_ofFragment (horder : f.order = [b]) (hin : InPlace f b)
    (hlow : ∀ i ∈ f.blockInstrs b, Lowerable f i) (addr : UInt32) :
    ∃ code, Code.ofFragment addr f = .ok code := by
  have hall : f.allInstrs = f.blockInstrs b := by simp [Fragment.allInstrs, horder]
  unfold Code.ofFragment
  rw [hall]
  cases hmap : (f.blockInstrs b).mapM (Code.lowerInstr f (Code.starts f 0 f.order)) with
  | ok ops => exact ⟨_, rfl⟩
  | error e =>
    obtain ⟨i, hi, hfails⟩ := exists_of_mapM_error hmap
    obtain ⟨l₁, l₂, hl⟩ := List.append_of_mem hi
    obtain ⟨op, hop⟩ := (hlow i hi).exists_lowerInstr (hin l₁ i l₂ hl) (Code.starts f 0 f.order)
    rw [hop] at hfails
    cases hfails

/-- The check of a fragment with one block never faults, and it accepts exactly the assignments in
which every argument that is not a constant has a register that was last written by its definition.
The lowering of an accepted fragment does not fault, and it succeeds if register code has all of the
instructions. If only operations that yield a result define one, then executing the code gives what
the fragment evaluates to with a cell for each value, from some amount of fuel on. If the fragment
does not end, no amount of fuel is enough. -/
theorem run_exact (hf : WellFormed f) (horder : f.order = [b]) (hregs : Assigned f regs)
    (addr : UInt32) :
    (run f regs = .ok none ↔ InPlace f b) ∧ (¬ InPlace f b → ∃ e, run f regs = .ok (some e)) ∧
    (run f regs = .ok none → (∀ e, Code.ofFragment addr f ≠ .error (.fault e)) ∧
      ((∀ i ∈ f.blockInstrs b, Lowerable f i) → ∃ code, Code.ofFragment addr f = .ok code) ∧
      ((∀ i ∈ f.blockInstrs b, (f.instr i).result.isSome → (f.instr i).op.hasResult) →
        ∀ code, Code.ofFragment addr f = .ok code →
          ∀ {σ : Type} (g : Guest σ) (o : Offsets) (w : World σ),
            (∀ r, Evaluates g o f w r → ∃ n, ∀ fuel ≥ n, code.execute g o regs.size fuel w = r) ∧
            ((∀ r, ¬ Evaluates g o f w r) →
              ∀ fuel, code.execute g o regs.size fuel w = .error .outOfFuel))) := by
  have hspec := run_spec hf horder hregs
  have hiff : run f regs = .ok none ↔ InPlace f b := by
    rcases hspec with ⟨hin, hrun⟩ | ⟨hin, e, hrun⟩
    · exact iff_of_true hrun hin
    · exact iff_of_false (by rw [hrun]; exact fun h => by cases h) hin
  refine ⟨hiff, fun hin => ?_, fun hrun => ⟨?_, fun hlow => ?_,
    fun hresult code hcode σ g o w => ?_⟩⟩
  · rcases hspec with ⟨hin', -⟩ | ⟨-, he⟩
    · exact absurd hin' hin
    · exact he
  · exact ofFragment_ne_fault horder (hiff.mp hrun) addr
  · exact exists_ofFragment horder (hiff.mp hrun) hlow addr
  · have h : Accepted f b regs := ⟨hf, horder, hregs, hiff.mp hrun, hresult⟩
    have htargets : TargetsExist f := fun _ _ v b' _ ho => hf.target v b' ho
    obtain ⟨hends, hnever⟩ := execute_ofFragment hcode htargets g o regs.size w
    refine ⟨fun r hr => hends r ((h.ends_iff g o w r).mpr hr), fun hnone => hnever fun r hr => ?_⟩
    exact hnone r ((h.ends_iff g o w r).mp hr)

/-- A loaded value is doubled in its own register. The second load is not used and has none. -/
def doubled : Fragment where
  values := #[
    { ty := .i32, origin := .constant (.i32 0) },
    { ty := .i32, origin := .result ⟨0⟩, reg := some 0 },
    { ty := .i32, origin := .result ⟨1⟩ }, { ty := .i32, origin := .result ⟨2⟩, reg := some 0 }]
  instrs := #[
    { op := .loadContext, args := slots (some ⟨0⟩), result := some ⟨1⟩, block := ⟨0⟩,
      next := some ⟨1⟩ },
    { op := .loadContext, args := slots (some ⟨0⟩), result := some ⟨2⟩, block := ⟨0⟩,
      prev := some ⟨0⟩, next := some ⟨2⟩ },
    { op := .add, args := slots (some ⟨1⟩) (some ⟨1⟩), result := some ⟨3⟩, block := ⟨0⟩,
      prev := some ⟨1⟩, next := some ⟨3⟩ },
    { op := .storeContext, args := slots (some ⟨0⟩) (some ⟨3⟩), block := ⟨0⟩, prev := some ⟨2⟩ }]
  blocks := #[{ head := some ⟨0⟩, tail := some ⟨3⟩ }]
  order := [⟨0⟩]

/-- One register. -/
def single : Array Register := #[⟨"r0", [.i32]⟩]

theorem doubled_code : doubled.blockInstrs ⟨0⟩ = [⟨0⟩, ⟨1⟩, ⟨2⟩, ⟨3⟩] := by decide

theorem doubled_wellFormed : WellFormed doubled := by decide

theorem doubled_assigned : Assigned doubled single := by
  have hall : ∀ x ∈ doubled.values, ∀ r, x.reg = some r → r.toNat < single.size := by
    simp [doubled, single]
  intro v r _ hr
  rcases doubled.value_mem v with hv | hv
  · exact hall _ hv r hr
  · rw [hv] at hr
    cases hr

theorem run_exact_doubled : InPlace doubled ⟨0⟩ ∧ run doubled single = .ok none ∧
    ∃ code, Code.ofFragment 0 doubled = .ok code ∧
      ∀ {σ : Type} (g : Guest σ) (o : Offsets) (w : World σ),
        (∀ r, Evaluates g o doubled w r →
          ∃ n, ∀ fuel ≥ n, code.execute g o single.size fuel w = r) ∧
        ((∀ r, ¬ Evaluates g o doubled w r) →
          ∀ fuel, code.execute g o single.size fuel w = .error .outOfFuel) := by
  obtain ⟨hiff, -, hsound⟩ := run_exact doubled_wellFormed rfl doubled_assigned 0
  have hin : InPlace doubled ⟨0⟩ := by
    have h₀ : inputs doubled ⟨0⟩ = [] := by decide
    have h₁ : inputs doubled ⟨1⟩ = [] := by decide
    have h₂ : inputs doubled ⟨2⟩ = [⟨1⟩, ⟨1⟩] := by decide
    have h₃ : inputs doubled ⟨3⟩ = [⟨3⟩] := by decide
    unfold InPlace
    rw [doubled_code]
    simp only [forall_split_cons, forall_split_nil, h₀, h₁, h₂, h₃, List.forall_mem_cons]
    have hload : InRegister doubled [⟨0⟩, ⟨1⟩] ⟨1⟩ := ⟨0, ⟨0⟩, rfl, by decide, rfl⟩
    have hsum : InRegister doubled [⟨0⟩, ⟨1⟩, ⟨2⟩] ⟨3⟩ := ⟨0, ⟨2⟩, rfl, by decide, rfl⟩
    simp [hload, hsum]
  have hrun := hiff.mpr hin
  have hresult : ∀ i ∈ doubled.blockInstrs ⟨0⟩, (doubled.instr i).result.isSome →
      (doubled.instr i).op.hasResult := by
    rw [doubled_code]
    decide
  have hlow : ∀ i ∈ doubled.blockInstrs ⟨0⟩, Lowerable doubled i := by
    intro i hi
    have hscalar :
      ∀ i ∈ doubled.blockInstrs ⟨0⟩, (opTy doubled (doubled.instr i)).isVector = false ∧
        ∀ n, (argTy doubled (doubled.instr i) n).isVector = false := by
      rw [doubled_code]
      decide
    refine ⟨fun n v s _ ho => ?_, (hscalar i hi).1, (hscalar i hi).2⟩
    have hall : ∀ x ∈ doubled.values, x.origin ≠ .constant (.str s) := by simp [doubled]
    rcases doubled.value_mem v with hv | hv
    · exact hall _ hv ho
    · rw [hv] at ho
      cases ho
  obtain ⟨-, hlowers, hagrees⟩ := hsound hrun
  obtain ⟨code, hcode⟩ := hlowers hlow
  exact ⟨hin, hrun, code, hcode, hagrees hresult code hcode⟩

/-! ### Accepted fragments that do something else -/

/-- A store names a result, in the register of the word that it stores. -/
def misnamed : Fragment where
  values := #[
    { ty := .i32, origin := .constant (.i32 0) }, { ty := .i32, origin := .constant (.i32 4) },
    { ty := .i32, origin := .result ⟨0⟩, reg := some 0 },
    { ty := .i32, origin := .result ⟨1⟩, reg := some 0 }]
  instrs := #[
    { op := .loadContext, args := slots (some ⟨0⟩), result := some ⟨2⟩, block := ⟨0⟩,
      next := some ⟨1⟩ },
    { op := .storeContext, args := slots (some ⟨0⟩) (some ⟨2⟩), result := some ⟨3⟩, block := ⟨0⟩,
      prev := some ⟨0⟩, next := some ⟨2⟩ },
    { op := .storeContext, args := slots (some ⟨1⟩) (some ⟨3⟩), block := ⟨0⟩, prev := some ⟨1⟩ }]
  blocks := #[{ head := some ⟨0⟩, tail := some ⟨2⟩ }]
  order := [⟨0⟩]

/-- A vector is copied by way of a register for vectors. -/
def copied : Fragment where
  values := #[
    { ty := .i32, origin := .constant (.i32 0) }, { ty := .i32, origin := .constant (.i32 16) },
    { ty := .v128, origin := .result ⟨0⟩, reg := some 0 }]
  instrs := #[
    { op := .loadContext, args := slots (some ⟨0⟩), result := some ⟨2⟩, block := ⟨0⟩,
      next := some ⟨1⟩ },
    { op := .storeContext, args := slots (some ⟨1⟩) (some ⟨2⟩), block := ⟨0⟩, prev := some ⟨0⟩ }]
  blocks := #[{ head := some ⟨0⟩, tail := some ⟨1⟩ }]
  order := [⟨0⟩]

theorem misnamed_wellFormed : WellFormed misnamed := by decide

theorem copied_wellFormed : WellFormed copied := by decide

/-- What an operation has for each of its slots. -/
def triple {α : Type} (a b c : α) : Vector α 3 := #v[a, b, c]

/-- The register code of the first one. -/
def misnamedCode : Code where
  guestAddr := 0
  ops := #[
    ⟨.loadContext, .i32, triple .i32 .i64 .i64, triple (.imm 0) .none .none, some 0⟩,
    ⟨.storeContext, .i32, triple .i32 .i32 .i64, triple (.imm 0) (.reg 0) .none, some 0⟩,
    ⟨.storeContext, .i32, triple .i32 .i32 .i64, triple (.imm 4) (.reg 0) .none, none⟩]
  localsSize := 0
  exits := []

theorem ofFragment_misnamed : Code.ofFragment 0 misnamed = .ok misnamedCode := by cbv

/-- A store leaves the register alone that is named for its result, so what is read there is the
word that was loaded and not a result. A fragment with vectors has no register code. -/
theorem accepted_not_kept :
    (WellFormed misnamed ∧ run misnamed single = .ok none ∧
      Code.ofFragment 0 misnamed = .ok misnamedCode ∧ ∀ g : Guest Unit,
        Evaluates g default misnamed ⟨#[7, 0, 0, 0, 9, 9, 9, 9], ()⟩
          (.ok (.dynamic, ⟨#[7, 0, 0, 0, 0, 0, 0, 0], ()⟩)) ∧
        ∀ fuel, misnamedCode.execute g default single.size (fuel + 4)
          ⟨#[7, 0, 0, 0, 9, 9, 9, 9], ()⟩ =
          .ok (.dynamic, ⟨#[7, 0, 0, 0, 7, 0, 0, 0], ()⟩)) ∧
    WellFormed copied ∧ run copied #[⟨"v0", [.v128]⟩] = .ok none ∧ ∀ addr,
      Code.ofFragment addr copied = .error (.error (.unsupported "load_context" .v128)) := by
  refine ⟨⟨misnamed_wellFormed, rfl, ofFragment_misnamed, fun g => ⟨?_, ?_⟩⟩,
    copied_wellFormed, rfl, fun addr => rfl⟩
  · exact ⟨4, .go rfl (.go rfl (.go rfl (.go rfl (.stop rfl))))⟩
  · intro fuel
    rfl

end Recompiler.Pass.AllocationCheck
