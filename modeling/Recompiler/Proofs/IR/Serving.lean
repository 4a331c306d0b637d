import Recompiler.Proofs.IR.Linked

/-!
Building methods keep a fragment linked, and so does every request. Main statement: whatever
requests lead to a fragment, its blocks hold exactly its live instructions, its use lists mirror its
arguments, and its program order lists each block once.
-/
namespace Recompiler.IR

open Fragment

variable {α β : Type} {f f' g : Fragment}

namespace Build

/-! ### Actions -/

/-- Each result of the action is a linked fragment that has the old values, has a place for the next
instruction, and is as `Q` says. -/
def Keeps (f : Fragment) (m : Build α) (Q : α → Fragment → Prop) : Prop :=
  ∀ a f', m f = .ok (a, f') →
    Linked f' ∧ f'.canAppend ∧ f.values.size ≤ f'.values.size ∧ Q a f'

/-- A fragment that code can be added to. -/
structure Ready (f : Fragment) : Prop where
  linked : Linked f
  canAppend : f.canAppend

variable {m : Build α} {k : α → Build β} {k' : Ty → Build β} {Q : α → Fragment → Prop}
  {R : β → Fragment → Prop}

theorem Keeps.bind (h : Keeps f m Q)
    (hk : ∀ a g, Ready g → f.values.size ≤ g.values.size → Q a g → Keeps g (k a) R) :
    Keeps f (m >>= k) R := by
  intro b f' hok
  change (m f >>= fun p => k p.1 p.2) = .ok (b, f') at hok
  cases hm : m f with
  | error e =>
    rw [hm] at hok
    cases hok
  | ok p =>
    rw [hm] at hok
    obtain ⟨hl, ha, hle, hq⟩ := h p.1 p.2 hm
    obtain ⟨hl', ha', hle', hr⟩ := hk p.1 p.2 ⟨hl, ha⟩ hle hq b f' hok
    exact ⟨hl', ha', Nat.le_trans hle hle', hr⟩

theorem Keeps.mono (h : Keeps f m Q) {Q' : α → Fragment → Prop} (hq : ∀ a g, Q a g → Q' a g) :
    Keeps f m Q' := by
  intro a f' hok
  obtain ⟨hl, ha, hle, hQ⟩ := h a f' hok
  exact ⟨hl, ha, hle, hq a f' hQ⟩

theorem keeps_pure (h : Ready f) (a : α) : Keeps f (pure a) fun _ _ => True := by
  intro b f' hok
  cases hok
  exact ⟨h.linked, h.canAppend, Nat.le_refl _, trivial⟩

theorem Keeps.ignore (h : Keeps f m fun _ _ => True) : Keeps f (do let _ ← m) fun _ _ => True :=
  h.bind fun _ _ hg _ _ => keeps_pure hg ()

/-- A rule is checked before the rest. -/
theorem Keeps.afterCheck {n : Build β} (h : Keeps f n R) (rule : Bool) (fault : Fault) :
    Keeps f (check rule fault >>= fun _ => n) R := by
  intro b f' hok
  change (check rule fault f >>= fun p => n p.2) = .ok (b, f') at hok
  unfold check at hok
  split at hok
  · exact h b f' hok
  · cases hok

theorem keeps_checkTarget (h : Ready f) (v : ValueId) :
    Keeps f (checkTarget v) fun _ _ => True := by
  intro a f' hok
  change check _ _ f = .ok (a, f') at hok
  unfold check at hok
  split at hok
  · cases hok
    exact ⟨h.linked, h.canAppend, Nat.le_refl _, trivial⟩
  · cases hok

/-- The type of a value is looked up before the rest. -/
theorem Keeps.afterTyOf {v : ValueId} (h : Keeps f (k' (f.ty v)) R) :
    Keeps f (tyOf v >>= k') R := fun b f' hok => h b f' hok

theorem keeps_get (h : Ready f) : Keeps f (get : Build Fragment) fun a g => f = g ∧ f = a := by
  intro a f' hok
  cases hok
  exact ⟨h.linked, h.canAppend, Nat.le_refl _, rfl, rfl⟩

theorem keeps_lift (h : Ready f) (x : Except Fault α) : Keeps f (liftM x) fun _ g => f = g := by
  intro a f' hok
  cases x with
  | error e => cases hok
  | ok b =>
    cases hok
    exact ⟨h.linked, h.canAppend, Nat.le_refl _, rfl⟩

theorem keeps_constant (h : Ready f) (c : Constant) :
    Keeps f (constant c) fun v g => v.index < g.values.size := by
  intro a f' hok
  cases hok
  refine ⟨h.linked.addConstant c, h.canAppend, ?_, ?_⟩
  · simp
  · simp

theorem keeps_setArg {i : InstrId} {v : ValueId} (h : Ready f) (hi : f.Live i) (n : Slot)
    (hv : v.index < f.values.size) : Keeps f (update (·.setArg i n v)) fun _ g => g.Live i := by
  intro a f' hok
  cases hok
  have hlinked := h.linked.setArg (n := n) hi hv
  have hframe := sameFrame_setArg f i n v
  refine ⟨hlinked, ?_, Nat.le_of_eq (sameValues_setArg f i n v).size_eq.symm, ?_⟩
  · unfold Fragment.canAppend
    rw [hframe.blocks_eq, hframe.point_eq]
    exact h.canAppend
  · change i.index < (f.setArg i n v).instrs.size ∧ ((f.setArg i n v).instr i).removed = false
    rw [size_instrs_setArg, instr_setArg]
    split <;> exact hi

/-- Filling the positions of an instruction one after the other. -/
theorem ready_setArgs {i : InstrId} (args : List (Slot × ValueId)) (h : Ready f) (hi : f.Live i)
    (hargs : ∀ p ∈ args, p.2.index < f.values.size) :
    Ready (args.foldl (fun f p => f.setArg i p.1 p.2) f) ∧
      (args.foldl (fun f p => f.setArg i p.1 p.2) f).Live i ∧
      f.values.size ≤ (args.foldl (fun f p => f.setArg i p.1 p.2) f).values.size := by
  induction args generalizing f with
  | nil => exact ⟨h, hi, Nat.le_refl _⟩
  | cons p args ih =>
    obtain ⟨hl, ha, hle, hlive⟩ := keeps_setArg h hi p.1 (hargs p (by simp)) () _ rfl
    obtain ⟨hr, hlive', hle'⟩ := ih ⟨hl, ha⟩ hlive fun q hq =>
      Nat.lt_of_lt_of_le (hargs q (by simp [hq])) hle
    exact ⟨hr, hlive', Nat.le_trans hle hle'⟩

theorem keeps_emit (h : Ready f) (op : Opcode) (ty : Option Ty) {args : List ValueId}
    (hargs : ∀ v ∈ args, v.index < f.values.size) :
    Keeps f (emit op ty args) fun i g => g.Live i := by
  intro a f' hok
  cases hok
  obtain ⟨hlinked, hlive, hopen, hle⟩ := h.linked.appendInstr h.canAppend op ty
  have hset := ready_setArgs ((List.finRange 3).zip args) ⟨hlinked, hopen⟩ hlive fun p hp =>
    Nat.lt_of_lt_of_le (hargs p.2 (List.of_mem_zip hp).2) hle
  exact ⟨hset.1.linked, hset.1.canAppend, Nat.le_trans hle hset.2.2, hset.2.1⟩

theorem keeps_effect (h : Ready f) (op : Opcode) {args : List ValueId}
    (hargs : ∀ v ∈ args, v.index < f.values.size) :
    Keeps f (emitEffect op args) fun _ _ => True :=
  ((keeps_emit h op none hargs).mono fun _ _ _ => trivial).ignore

theorem keeps_value (h : Ready f) (op : Opcode) (ty : Ty) {args : List ValueId}
    (hargs : ∀ v ∈ args, v.index < f.values.size) :
    Keeps f (emitValue op ty args) fun _ _ => True := by
  refine (keeps_emit h op (some ty) hargs).bind fun i g hg _ _ => ?_
  refine (keeps_get hg).bind ?_
  rintro _ _ - - ⟨rfl, rfl⟩
  exact (keeps_lift hg _).mono fun _ _ _ => trivial

/-! ### Methods -/

variable {a b c v : ValueId}

theorem keeps_branchEdge (h : Ready f) (dst : ValueId) :
    Keeps f (addBranchEdge dst) fun _ _ => True := by
  unfold addBranchEdge
  refine (keeps_get h).bind ?_
  rintro _ _ - - ⟨rfl, rfl⟩
  split
  · refine (keeps_lift h _).bind ?_
    rintro target _ - - rfl
    split
    · next src _ =>
      intro u f' hok
      cases hok
      have hsize : (f.addEdge src target).blocks.size = f.blocks.size :=
        size_blocks_modifyBlock f src _
      refine ⟨h.linked.addEdge src target, ?_, Nat.le_refl _, trivial⟩
      unfold Fragment.canAppend
      rw [hsize]
      exact h.canAppend
    · exact keeps_pure h ()
  · exact keeps_pure h ()

theorem keeps_convert (h : Ready f) (op : Opcode) (hv : v.index < f.values.size) (ty : Ty) :
    Keeps f (convert op v ty) fun _ _ => True :=
  .afterTyOf (.afterCheck (keeps_value h op ty (by simpa using hv)) _ _)

theorem keeps_shift (h : Ready f) (op : Opcode) (ha : a.index < f.values.size)
    (hb : b.index < f.values.size) : Keeps f (shift op a b) fun _ _ => True :=
  .afterTyOf
    (.afterCheck (.afterTyOf (.afterCheck (keeps_value h op _ (by simp [ha, hb])) _ _)) _ _)

theorem keeps_branch (h : Ready f) (ha : a.index < f.values.size) :
    Keeps f (branch a) fun _ _ => True := by
  refine (keeps_checkTarget h a).bind fun _ g hg hle _ => ?_
  refine (keeps_effect hg .branch (by simpa using Nat.lt_of_lt_of_le ha hle)).bind ?_
  exact fun _ g' hg' _ _ => keeps_branchEdge hg' a

theorem keeps_branchIf (h : Ready f) (op : Opcode) (ha : a.index < f.values.size)
    (hb : b.index < f.values.size) : Keeps f (branchIf op a b) fun _ _ => True := by
  refine .afterTyOf (.afterCheck ?_ _ _)
  refine (keeps_checkTarget h b).bind fun _ g hg hle _ => ?_
  refine (keeps_effect hg op ?_).bind fun _ g' hg' _ _ => keeps_branchEdge hg' b
  simp only [List.mem_cons, List.not_mem_nil, or_false, forall_eq_or_imp, forall_eq]
  exact ⟨Nat.lt_of_lt_of_le ha hle, Nat.lt_of_lt_of_le hb hle⟩

theorem keeps_select (h : Ready f) (ha : a.index < f.values.size) (hb : b.index < f.values.size)
    (hc : c.index < f.values.size) : Keeps f (select a b c) fun _ _ => True := by
  have hargs : ∀ v ∈ [a, b, c], v.index < f.values.size := by simp [ha, hb, hc]
  have hvalue := keeps_value h .select (f.ty b) hargs
  unfold select
  apply Keeps.afterTyOf
  apply Keeps.afterCheck
  apply Keeps.afterTyOf
  apply Keeps.afterTyOf
  apply Keeps.afterCheck
  exact hvalue

/-- Operations of one kind take the same number of arguments. -/
theorem arity_of_kind (op : Opcode) :
    match op.kind with
    | .loadHost | .loadGuest | .convert | .intUnary | .floatUnary | .branch => op.info.arity = 1
    | .select => op.info.arity = 3
    | .compare | .floatCompare | .intBinary | .floatBinary | .shift | .shiftSigned
    | .storeHost | .storeGuest | .branchIf => op.info.arity = 2
    | _ => True := by
  cases op <;> trivial

/-- An operation on values needs only the operands that it takes. -/
theorem keeps_ofOpcode (h : Ready f) (op : Opcode) (ty : Ty)
    (hargs : ∀ x ∈ [a, b, c].take op.info.arity, x.index < f.values.size) :
    Keeps f (ofOpcode op ty a b c) fun _ _ => True := by
  have hsome : ∀ {m : Build ValueId}, Keeps f m (fun _ _ => True) →
      Keeps f (some <$> m) fun _ _ => True := by
    intro m hm
    exact hm.bind fun v g hg _ _ => keeps_pure hg (some v)
  have hnone : ∀ {m : Build Unit}, Keeps f m (fun _ _ => True) →
      Keeps f (m *> pure (none : Option ValueId)) fun _ _ => True := by
    intro m hm
    exact hm.bind fun _ g hg _ _ => keeps_pure hg none
  have hunary : op.info.arity = 1 → a.index < f.values.size := by
    intro e
    simpa [e] using hargs
  have hbinary : op.info.arity = 2 → a.index < f.values.size ∧ b.index < f.values.size := by
    intro e
    simpa [e] using hargs
  have hternary : op.info.arity = 3 →
      a.index < f.values.size ∧ b.index < f.values.size ∧ c.index < f.values.size := by
    intro e
    simpa [e] using hargs
  have harity := arity_of_kind op
  unfold ofOpcode
  generalize op.kind = kind at harity ⊢
  cases kind with
  | loadHost =>
    have ha := hunary harity
    exact hsome (.afterTyOf (.afterCheck (keeps_value h .loadHost ty (by simpa using ha)) _ _))
  | loadGuest =>
    have ha := hunary harity
    exact hsome (.afterTyOf (.afterCheck
      (.afterCheck (keeps_value h .loadGuest ty (by simpa using ha)) _ _) _ _))
  | convert => exact hsome (keeps_convert h op (hunary harity) ty)
  | select =>
    obtain ⟨ha, hb, hc⟩ := hternary harity
    exact hsome (keeps_select h ha hb hc)
  | compare =>
    obtain ⟨ha, hb⟩ := hbinary harity
    exact hsome (.afterTyOf (.afterCheck (.afterTyOf (.afterTyOf (.afterCheck
      (keeps_value h op .i8 (by simp [ha, hb])) _ _))) _ _))
  | floatCompare =>
    obtain ⟨ha, hb⟩ := hbinary harity
    exact hsome (.afterTyOf (.afterCheck (.afterTyOf (.afterTyOf (.afterCheck
      (keeps_value h op .i8 (by simp [ha, hb])) _ _))) _ _))
  | intBinary =>
    obtain ⟨ha, hb⟩ := hbinary harity
    exact hsome (.afterTyOf (.afterCheck (.afterTyOf (.afterCheck
      (keeps_value h op _ (by simp [ha, hb])) _ _)) _ _))
  | intUnary =>
    have ha := hunary harity
    exact hsome (.afterTyOf (.afterCheck (keeps_value h op _ (by simpa using ha)) _ _))
  | floatBinary =>
    obtain ⟨ha, hb⟩ := hbinary harity
    exact hsome (.afterTyOf (.afterCheck (.afterTyOf (.afterCheck
      (keeps_value h op _ (by simp [ha, hb])) _ _)) _ _))
  | floatUnary =>
    have ha := hunary harity
    exact hsome (.afterTyOf (.afterCheck (keeps_value h op _ (by simpa using ha)) _ _))
  | shift =>
    obtain ⟨ha, hb⟩ := hbinary harity
    exact hsome (keeps_shift h op ha hb)
  | shiftSigned =>
    obtain ⟨ha, hb⟩ := hbinary harity
    exact hsome (.afterTyOf (.afterCheck (keeps_shift h op ha hb) _ _))
  | storeHost =>
    obtain ⟨ha, hb⟩ := hbinary harity
    exact hnone (.afterTyOf (.afterCheck (keeps_effect h .storeHost (by simp [ha, hb])) _ _))
  | storeGuest =>
    obtain ⟨ha, hb⟩ := hbinary harity
    exact hnone (.afterTyOf (.afterCheck (.afterTyOf (.afterCheck
      (keeps_effect h .storeGuest (by simp [ha, hb])) _ _)) _ _))
  | branch => exact hnone (keeps_branch h (hunary harity))
  | branchIf =>
    obtain ⟨ha, hb⟩ := hbinary harity
    exact hnone (keeps_branchIf h op ha hb)
  | _ => exact keeps_pure h none

theorem keeps_callArg {i : InstrId} (h : Ready f) (hi : f.Live i) (n : Slot) (v : Option ValueId)
    (hv : ∀ x ∈ v, x.index < f.values.size) : Keeps f (callArg i n v) fun _ g => g.Live i := by
  cases v with
  | none =>
    intro u f' hok
    cases hok
    exact ⟨h.linked, h.canAppend, Nat.le_refl _, hi⟩
  | some x => exact .afterTyOf (.afterCheck (keeps_setArg h hi n (hv x rfl)) _ _)

theorem keeps_method (h : Ready f) (m : Method)
    (hm : ∀ v ∈ m.operands, v.index < f.values.size) : Keeps f m.run fun _ _ => True := by
  cases m with
  | sourceInfo addr cycles =>
    refine (keeps_constant h _).bind fun x g hg _ hx => ?_
    refine (keeps_constant hg _).bind fun y g' hg' hle hy => ?_
    exact keeps_effect hg' .sourceInfo (by simpa using ⟨Nat.lt_of_lt_of_le hx hle, hy⟩)
  | fallback routine addr raw =>
    refine (keeps_constant h _).bind fun x g hg _ hx => ?_
    refine (keeps_constant hg _).bind fun y g₁ hg₁ hle₁ hy => ?_
    refine (keeps_constant hg₁ _).bind fun z g₂ hg₂ hle₂ hz => ?_
    exact keeps_effect hg₂ .fallback (by
      simpa using ⟨Nat.lt_of_lt_of_le (Nat.lt_of_lt_of_le hx hle₁) hle₂,
        Nat.lt_of_lt_of_le hy hle₂, hz⟩)
  | loadContext offset ty =>
    refine Keeps.ignore ((keeps_constant h _).bind fun x g hg _ hx => ?_)
    exact keeps_value hg .loadContext ty (by simpa using hx)
  | storeContext offset v =>
    refine (keeps_constant h _).bind fun x g hg hle hx => ?_
    exact keeps_effect hg .storeContext (by
      simpa using ⟨hx, Nat.lt_of_lt_of_le (hm v (by simp [Method.operands])) hle⟩)
  | loadLocal l =>
    refine Keeps.ignore ((keeps_get h).bind ?_)
    rintro _ _ - - ⟨rfl, rfl⟩
    refine (keeps_constant h _).bind fun x g hg _ hx => ?_
    exact keeps_value hg .loadLocal _ (by simpa using hx)
  | storeLocal l v =>
    refine (keeps_get h).bind ?_
    rintro _ _ - - ⟨rfl, rfl⟩
    refine .afterTyOf (.afterCheck ?_ _ _)
    refine (keeps_constant h _).bind fun x g hg hle hx => ?_
    exact keeps_effect hg .storeLocal (by
      simpa using ⟨hx, Nat.lt_of_lt_of_le (hm v (by simp [Method.operands])) hle⟩)
  | call routine a b =>
    have hopt : ∀ x, x ∈ a ∨ x ∈ b → x.index < f.values.size := by
      intro x hx
      refine hm x ?_
      simp only [Method.operands, List.mem_append, Option.mem_toList]
      exact hx
    refine (keeps_constant h _).bind fun x g hg hle hx => ?_
    refine (keeps_emit hg .call none (by simpa using hx)).bind fun i g₁ hg₁ hle₁ hi => ?_
    have hle' := Nat.le_trans hle hle₁
    refine (keeps_callArg hg₁ hi 1 a fun y hy => Nat.lt_of_lt_of_le (hopt y (.inl hy)) hle').bind
      fun _ g₂ hg₂ hle₂ hi₂ => ?_
    exact (keeps_callArg hg₂ hi₂ 2 b fun y hy => Nat.lt_of_lt_of_le (hopt y (.inr hy))
      (Nat.le_trans hle' hle₂)).mono fun _ _ _ => trivial
  | shiftBy op v n =>
    unfold Method.run
    dsimp only
    split
    · refine Keeps.ignore ((keeps_constant h _).bind fun x g hg hle hx => ?_)
      exact keeps_shift hg op (Nat.lt_of_lt_of_le (hm v (by simp [Method.operands])) hle) hx
    · exact keeps_pure h ()
  | operate op ty a b c => exact Keeps.ignore (keeps_ofOpcode h op ty hm)

end Build

namespace Fragment

/-- Every request keeps a fragment linked. -/
theorem Linked.serve {r : Request} (h : Linked f) (hallowed : r.Allowed f)
    (hok : r.serve f = .ok f') : Linked f' := by
  obtain ⟨hfound, hok⟩ := r.serve_eq_ok hok
  have hmap : ∀ {ε α β : Type} {x : Except ε α} {k : α → β} {y : β}, x.map k = .ok y →
      ∃ a, x = .ok a ∧ k a = y := by
    intro ε α β x k y hx
    cases x with
    | error e => cases hx
    | ok a => exact ⟨a, rfl, Except.ok.inj hx⟩
  cases r with
  | constant c =>
    cases hok
    exact h.addConstant c
  | scalar ty bits =>
    obtain ⟨p, hp, rfl⟩ := hmap hok
    unfold addScalar at hp
    split at hp
    · cases hp
      exact h.addConstant _
    · cases hp
  | appendBlock =>
    cases hok
    exact h.appendBlock
  | insertBlockAfter b =>
    cases hok
    exact h.insertBlockAfter b
  | setBlockLabel b label =>
    cases hok
    exact h.modifyBlock b (fun _ => rfl) fun _ => rfl
  | addEdge a b =>
    cases hok
    exact h.addEdge a b
  | appendInstr op ty =>
    cases hok
    exact (h.appendInstr hfound op ty).1
  | removeInstr i => exact h.removeInstr (of_decide_eq_true hfound) hok
  | setInstrLabel i label =>
    cases hok
    exact h.setInstrLabel i label
  | setArg i n v =>
    obtain ⟨n, -, rfl⟩ := hmap hok
    exact h.setArg hallowed (of_decide_eq_true (Bool.and_eq_true_iff.mp hfound).2)
  | clearArg i n =>
    obtain ⟨n, -, rfl⟩ := hmap hok
    exact h.clearArg i n
  | replaceUses a b =>
    have hboth := Bool.and_eq_true_iff.mp hfound
    exact h.replaceUses (of_decide_eq_true hboth.1) (of_decide_eq_true hboth.2) hok
  | setPoint p =>
    cases hok
    exact h.setPoint hallowed
  | atEndOf b =>
    cases hok
    exact h.atEndOf (of_decide_eq_true hfound)
  | afterInstr i =>
    cases hok
    exact h.afterInstr hallowed
  | beforeInstr i =>
    cases hok
    exact h.beforeInstr hallowed
  | allocLocal ty =>
    obtain ⟨p, hp, rfl⟩ := hmap hok
    exact h.allocLocal hp
  | reserveLocal ty offset =>
    obtain ⟨p, hp, rfl⟩ := hmap hok
    exact h.reserveLocal hp
  | method m =>
    obtain ⟨p, hp, rfl⟩ := hmap hok
    simp only [Request.found, Bool.and_eq_true, List.all_eq_true, decide_eq_true_eq] at hfound
    exact (Build.keeps_method ⟨h, hfound.1.1⟩ m hfound.1.2 p.1 p.2 hp).1

theorem Linked.serves {rs : List Request} (h : Linked f) (hrs : Serves f rs f') : Linked f' := by
  induction hrs with
  | nil => exact h
  | cons allowed done _ ih => exact ih (h.serve allowed done)

/-- After any requests, each block holds one list of instructions, linked in both directions from
its head to its tail; an instruction is in the list of its block until it is removed, and in no
other; positions refer to values exactly as the use lists say, each of them once, and those of
removed instructions to none; and the program order lists every block once. -/
theorem serves_linked {rs : List Request} (h : Serves empty rs f) :
    (∀ b : BlockId, b.index < f.blocks.size → f.Chain b (f.blockInstrs b)) ∧
    (∀ (i : InstrId) (b : BlockId), i.index < f.instrs.size → b.index < f.blocks.size →
      (i ∈ f.blockInstrs b ↔ (f.instr i).removed = false ∧ (f.instr i).block = b)) ∧
    (∀ i : InstrId, i.index < f.instrs.size → (f.instr i).removed = false →
      (f.instr i).block.index < f.blocks.size) ∧
    (∀ i n v, (f.instr i).arg n = some v ↔ (⟨i, n⟩ : Use) ∈ (f.value v).uses) ∧
    (∀ v, (f.value v).uses.Nodup) ∧
    (∀ i, (f.instr i).removed = true → ∀ n, (f.instr i).arg n = none) ∧
    f.order.Perm ((List.range f.blocks.size).map BlockId.mk) := by
  have hf := linked_empty.serves h
  have hchain : ∀ b : BlockId, b.index < f.blocks.size → f.Chain b (f.blockInstrs b) := by
    intro b hb
    obtain ⟨l, hl⟩ := hf.chain b hb
    rw [hl.blockInstrs_eq]
    exact hl
  refine ⟨hchain, ?_, ?_, fun i n v => (hf.uses v ⟨i, n⟩).symm, hf.uses_nodup, hf.cleared,
    hf.order_perm⟩
  · intro i b hi hb
    constructor
    · intro hm
      exact ⟨(hchain b hb).live i hm, (hchain b hb).block_eq i hm⟩
    · rintro ⟨hlive, rfl⟩
      obtain ⟨l, hl, hm⟩ := hf.listed i ⟨hi, hlive⟩
      rw [hl.blockInstrs_eq]
      exact hm
  · intro i hi hlive
    obtain ⟨l, hl, -⟩ := hf.listed i ⟨hi, hlive⟩
    exact hl.block_lt

/-- Code is put at the end, at the head and in the middle of a block, a value is used twice by one
instruction and then replaced, and the instruction at the insert point is removed. -/
def reworked : List Request :=
  [.constant (.i32 7), .appendInstr .loadContext (some .i32), .setArg ⟨0⟩ 0 ⟨0⟩, .appendBlock,
   .method (.operate .add .i32 ⟨1⟩ ⟨1⟩ ⟨0⟩), .beforeInstr ⟨0⟩,
     .appendInstr .loadContext (some .i32),
   .afterInstr ⟨0⟩, .appendInstr .sub (some .i32), .setArg ⟨3⟩ 0 ⟨1⟩, .replaceUses ⟨1⟩ ⟨3⟩,
   .removeInstr ⟨3⟩]

theorem serves_linked_reworked : ∃ f, Serves empty reworked f ∧
    f.blockInstrs ⟨0⟩ = [⟨2⟩, ⟨0⟩, ⟨1⟩] ∧ f.Chain ⟨0⟩ [⟨2⟩, ⟨0⟩, ⟨1⟩] ∧
    (f.value ⟨3⟩).uses = [⟨⟨1⟩, 0⟩, ⟨⟨1⟩, 1⟩] ∧ (f.value ⟨3⟩).uses.Nodup ∧
    (f.instr ⟨3⟩).arg 0 = none ∧ f.order.Perm [⟨0⟩, ⟨1⟩] := by
  have hlive : ∀ g : Fragment, ∀ i : InstrId, i.index < g.instrs.size →
    (g.instr i).removed = false →
      g.Live i := fun _ _ h₁ h₂ => ⟨h₁, h₂⟩
  have h : Serves empty reworked _ :=
    .cons trivial rfl <| .cons trivial rfl <| .cons (hlive _ _ (by decide) rfl) rfl <|
    .cons trivial rfl <| .cons trivial rfl <| .cons (hlive _ _ (by decide) rfl) rfl <|
    .cons trivial rfl <| .cons (hlive _ _ (by decide) rfl) rfl <| .cons trivial rfl <|
    .cons (hlive _ _ (by decide) rfl) rfl <| .cons trivial rfl <| .cons trivial rfl <| .nil _
  obtain ⟨hchain, -, -, huses, hnodup, hcleared, horder⟩ := serves_linked h
  exact ⟨_, h, rfl, hchain ⟨0⟩ (by decide), rfl, hnodup ⟨3⟩, hcleared ⟨3⟩ rfl 0, horder⟩

end Fragment
end Recompiler.IR
