import Recompiler.Proofs.IR.Leaving
import Recompiler.Proofs.IR.Operations
import Recompiler.Proofs.IR.Reaching

/-!
What code charges. Code whose charges stand before its branches, and that writes the counters in no
other way, counts down the same number of cycles on every way out: what it charges in all.
-/
namespace Recompiler

open IR

variable {σ : Type} {o : Offsets} {w w' w'' : World σ} {c c' n n' : UInt32} {size : Nat}

namespace Meaning

open Fragment Interp Machine

variable {α β : Type} {f f' f'' : Fragment} {b : BlockId} {l l' l₁ l₂ : List InstrId} {i : InstrId}
  {g : Guest σ} {s : Cells} {m m' : Memory σ} {cs cs' : List (UInt32 × UInt32)} {rest : Point}

/-! ### Instructions -/

/-- An argument is a constant word. -/
def HasWord (f : Fragment) (i : InstrId) (k : Slot) (x : UInt32) : Prop :=
  ∃ v, (f.instr i).arg k = some v ∧ v.index < f.values.size ∧
    (f.value v).origin = .constant (.i32 x)

theorem HasWord.grows {k : Slot} {x : UInt32} (h : HasWord f i k x) (hi : i.index < f.instrs.size)
    (hf : Grows f f') : HasWord f' i k x := by
  obtain ⟨v, hv, hlt, horigin⟩ := h
  refine ⟨v, ?_, Nat.lt_of_lt_of_le hlt hf.values_le, (hf.origin_eq v hlt).trans horigin⟩
  unfold Instr.arg
  rw [hf.args_eq i hi]
  exact hv

theorem HasWord.argBits_eq {st : Store α} {s : α} {k : Slot} {x : UInt32} (h : HasWord f i k x) :
    argBits f st s (f.instr i) k = x.toUInt64 := by
  obtain ⟨v, hv, -, horigin⟩ := h
  unfold argBits bits
  rw [hv]
  simp [horigin, Constant.bits?]

/-- The address and the cycles of a charge, if they are constants. -/
def charge? (f : Fragment) (i : InstrId) : Option (UInt32 × UInt32) := do
  let addr ← (f.instr i).arg 0
  let cycles ← (f.instr i).arg 1
  match (f.value addr).constant?, (f.value cycles).constant? with
  | some (.i32 addr), some (.i32 cycles) => some (addr, cycles)
  | _, _ => none

/-- The instruction charges so many cycles for a guest instruction. -/
structure Charges (f : Fragment) (i : InstrId) (addr cycles : UInt32) : Prop where
  lt : i.index < f.instrs.size
  op_eq : (f.instr i).op = .sourceInfo
  addr_eq : HasWord f i 0 addr
  cycles_eq : HasWord f i 1 cycles

/-- The instruction neither charges nor branches, and the counters are not what it writes. -/
structure Idle (o : Offsets) (f : Fragment) (i : InstrId) : Prop where
  lt : i.index < f.instrs.size
  op_ne : (f.instr i).op ≠ .sourceInfo
  straight : (f.instr i).op.isBranch = false
  clear : (f.instr i).op = .storeContext → ∃ x, HasWord f i 0 x ∧
    Clear x.toInt32.toInt 8 o.cycles ∧ Clear x.toInt32.toInt 8 o.instrs

/-- The instruction is a branch out of the fragment. -/
structure Leaves (f : Fragment) (i : InstrId) : Prop where
  lt : i.index < f.instrs.size
  branch : (f.instr i).op.isBranch = true
  target : ∃ v, Exit.target? (f.instr i) = some v ∧ v.index < f.values.size ∧
    ∀ b, (f.value v).origin ≠ .constant (.blk b)

theorem Charges.grows {addr cycles : UInt32} (h : Charges f i addr cycles) (hf : Grows f f') :
    Charges f' i addr cycles where
  lt := Nat.lt_of_lt_of_le h.lt hf.instrs_le
  op_eq := (hf.op_eq i h.lt).trans h.op_eq
  addr_eq := h.addr_eq.grows h.lt hf
  cycles_eq := h.cycles_eq.grows h.lt hf

theorem Charges.charge?_eq {addr cycles : UInt32} (h : Charges f i addr cycles) :
    charge? f i = some (addr, cycles) := by
  obtain ⟨a, ha, -, haddr⟩ := h.addr_eq
  obtain ⟨c, hc, -, hcycles⟩ := h.cycles_eq
  unfold charge? Value.constant?
  rw [ha, hc]
  simp [haddr, hcycles]

theorem Idle.grows (h : Idle o f i) (hf : Grows f f') : Idle o f' i where
  lt := Nat.lt_of_lt_of_le h.lt hf.instrs_le
  op_ne := by
    rw [hf.op_eq i h.lt]
    exact h.op_ne
  straight := by
    rw [hf.op_eq i h.lt]
    exact h.straight
  clear hop := by
    rw [hf.op_eq i h.lt] at hop
    obtain ⟨x, hx, hclear⟩ := h.clear hop
    exact ⟨x, hx.grows h.lt hf, hclear⟩

theorem Leaves.grows (h : Leaves f i) (hf : Grows f f') : Leaves f' i where
  lt := Nat.lt_of_lt_of_le h.lt hf.instrs_le
  branch := by
    rw [hf.op_eq i h.lt]
    exact h.branch
  target := by
    obtain ⟨v, hv, hlt, horigin⟩ := h.target
    refine ⟨v, ?_, Nat.lt_of_lt_of_le hlt hf.values_le, fun b => ?_⟩
    · unfold Exit.target? Instr.arg at hv ⊢
      rw [hf.op_eq i h.lt, hf.args_eq i h.lt]
      exact hv
    · rw [hf.origin_eq v hlt]
      exact horigin b

/-- What an idle instruction does leaves the counters alone. -/
theorem Idle.perform_spends {st : Store α} {s : α} (h : Idle o f i) (hg : g.Unmetered o size)
    (hm : m.world.ctx.size = size) {ty aty bty : Ty} {bits b c : UInt64} {out : Option UInt64}
    (hbits : bits = argBits f st s (f.instr i) 0)
    (hdone : perform g o (f.instr i).op ty aty bty bits b c m = .ok (out, m')) :
    Spends o m.world 0 0 m'.world := by
  have hstraight := h.straight
  cases hop : (f.instr i).op with
  | sourceInfo => exact absurd hop h.op_ne
  | branch | branchTrue | branchFalse =>
    rw [hop] at hstraight
    cases hstraight
  | fallback =>
    rw [hop] at hdone
    unfold perform at hdone
    obtain ⟨w, hw, hdone⟩ := Interp.bind_eq_ok hdone
    cases hdone
    exact hg.fallback _ _ _ _ _ hm hw
  | call =>
    rw [hop] at hdone
    cases hdone
    exact hg.call _ _ _ _ hm
  | storeHost =>
    rw [hop] at hdone
    cases hdone
    exact hg.writeHost _ _ _ _ hm
  | loadGuest =>
    rw [hop] at hdone
    cases hdone
    exact hg.read _ _ _ hm
  | storeGuest =>
    rw [hop] at hdone
    cases hdone
    exact hg.write _ _ _ _ hm
  | storeContext =>
    obtain ⟨x, hx, hcycles, hinstrs⟩ := h.clear hop
    rw [hop, hbits, hx.argBits_eq] at hdone
    unfold perform at hdone
    obtain ⟨w, -, hdone⟩ := Interp.bind_eq_ok hdone
    cases hdone
    rw [UInt32.toUInt32_toUInt64]
    -- no field is longer than eight bytes
    have hle := Context.width_le w
    have hnarrow : ∀ {d e : Int}, Clear d 8 e → Clear d w.bytes e := by
      intro d e hclear
      unfold Clear at hclear ⊢
      omega
    exact spends_set (hnarrow hcycles) (hnarrow hinstrs) m.world _
  | storeLocal =>
    rw [hop] at hdone
    unfold perform at hdone
    obtain ⟨m₁, hwrite, hdone⟩ := Interp.bind_eq_ok hdone
    cases hdone
    unfold Memory.writeLocal at hwrite
    split at hwrite
    · cases hwrite
      exact .refl o _
    · cases hwrite
  | loadContext | loadLocal =>
    rw [hop] at hdone
    unfold perform at hdone
    obtain ⟨_, -, hdone⟩ := Interp.bind_eq_ok hdone
    cases hdone
    exact .refl o _
  | loadHost =>
    rw [hop] at hdone
    cases hdone
    exact .refl o _
  | _ =>
    rw [hop] at hdone
    unfold perform at hdone
    obtain ⟨_, -, hdone⟩ := Interp.bind_eq_ok hdone
    cases hdone
    exact .refl o _

/-! ### Straight code -/

/-- The instructions of a list do not branch, and what they charge is the second list, in order. -/
inductive Metered (o : Offsets) (f : Fragment) : List InstrId → List (UInt32 × UInt32) → Prop
  | nil : Metered o f [] []
  | idle {i : InstrId} {l : List InstrId} {cs : List (UInt32 × UInt32)} (h : Idle o f i)
      (rest : Metered o f l cs) : Metered o f (i :: l) cs
  | charge {i : InstrId} {l : List InstrId} {cs : List (UInt32 × UInt32)} {addr cycles : UInt32}
      (h : Charges f i addr cycles) (rest : Metered o f l cs) :
      Metered o f (i :: l) ((addr, cycles) :: cs)

/-- Behind the charges: branches out of the fragment, and instructions that charge nothing. -/
def Exits (o : Offsets) (f : Fragment) (l : List InstrId) : Prop := ∀ i ∈ l, Idle o f i ∨ Leaves f i

theorem Metered.append (h : Metered o f l cs) (h' : Metered o f l' cs') :
    Metered o f (l ++ l') (cs ++ cs') := by
  induction h with
  | nil => exact h'
  | idle h _ ih => exact .idle h ih
  | charge h _ ih => exact .charge h ih

theorem Metered.grows (h : Metered o f l cs) (hf : Grows f f') : Metered o f' l cs := by
  induction h with
  | nil => exact .nil
  | idle h _ ih => exact .idle (h.grows hf) ih
  | charge h _ ih => exact .charge (h.grows hf) ih

theorem metered_of_idle (h : ∀ i ∈ l, Idle o f i) : Metered o f l [] := by
  induction l with
  | nil => exact .nil
  | cons i l ih =>
    exact .idle (h i List.mem_cons_self) (ih fun j hj => h j (List.mem_cons_of_mem i hj))

theorem Metered.straight (h : Metered o f l cs) : ∀ i ∈ l, (f.instr i).op.isBranch = false := by
  induction h with
  | nil => simp
  | idle h _ ih => exact List.forall_mem_cons.mpr ⟨h.straight, ih⟩
  | charge h _ ih =>
    refine List.forall_mem_cons.mpr ⟨?_, ih⟩
    rw [h.op_eq]
    rfl

/-- The charges in the code are those of the list. -/
theorem Metered.charges_eq (h : Metered o f l cs) :
    (l.filter fun i => (f.instr i).op = .sourceInfo).map (charge? f) = cs.map some := by
  induction h with
  | nil => rfl
  | idle h _ ih => rw [List.filter_cons_of_neg (by simpa using h.op_ne), ih]
  | charge h _ ih =>
    rw [List.filter_cons_of_pos (by simpa using h.op_eq), List.map_cons, List.map_cons, ih,
      h.charge?_eq]

theorem Exits.grows (h : Exits o f l) (hf : Grows f f') : Exits o f' l := fun i hi =>
  (h i hi).imp (·.grows hf) (·.grows hf)

theorem Exits.append (h : Exits o f l) (h' : Exits o f l') : Exits o f (l ++ l') := by
  intro i hi
  exact (List.mem_append.mp hi).elim (h i) (h' i)

theorem exits_of_idle (h : ∀ i ∈ l, Idle o f i) : Exits o f l := fun i hi => .inl (h i hi)

theorem Exits.op_ne (h : Exits o f l) : ∀ i ∈ l, (f.instr i).op ≠ .sourceInfo := by
  intro i hi
  obtain hidle | hleaves := h i hi
  · exact hidle.op_ne
  · intro hop
    have hbranch := hleaves.branch
    rw [hop] at hbranch
    cases hbranch

/-! ### Runs -/

/-- The machine of a fragment on cells. -/
abbrev Goes (g : Guest σ) (o : Offsets) (f : Fragment) (l : List InstrId) (s : Cells) (m : Memory σ)
    (r : Result σ) : Prop := Ends (step f cells g o) ⟨⟨l, []⟩, s, m⟩ r

variable {exit : Exit}

/-- What follows an instruction that does not branch, if the run does not fail. -/
theorem Goes.straight (h : Goes g o f (i :: l) s m (.ok (exit, w')))
    (hi : (f.instr i).op.isBranch = false) : ∃ s' m' out, Goes g o f l s' m' (.ok (exit, w')) ∧
      perform g o (f.instr i).op (opTy f (f.instr i)) (argTy f (f.instr i) 0)
        (argTy f (f.instr i) 1)
        (argBits f cells s (f.instr i) 0) (argBits f cells s (f.instr i) 1)
        (argBits f cells s (f.instr i) 2) m = .ok (out, m') := by
  have hstep := step_instr f cells g o i l [] s m
  unfold runInstr at hstep
  simp only [hi, Bool.false_eq_true, if_false] at hstep
  split at hstep
  case h_1 out m' hdone =>
    exact ⟨_, m', out, (GoesIn.single hstep).ends_iff.mp h, hdone⟩
  case h_2 e _ =>
    cases h.unique ⟨0, .stop hstep⟩

theorem Idle.goes (h : Idle o f i) (hg : g.Unmetered o size) (hm : m.world.ctx.size = size)
    (hgoes : Goes g o f (i :: l) s m (.ok (exit, w'))) :
    ∃ s' m', Goes g o f l s' m' (.ok (exit, w')) ∧ Spends o m.world 0 0 m'.world := by
  obtain ⟨s', m', out, hrest, hdone⟩ := hgoes.straight h.straight
  exact ⟨s', m', hrest, h.perform_spends hg hm rfl hdone⟩

theorem Charges.goes {addr cycles : UInt32} (h : Charges f i addr cycles) (ho : o.Placed size)
    (hm : m.world.ctx.size = size) (hgoes : Goes g o f (i :: l) s m (.ok (exit, w'))) :
    ∃ s' m', Goes g o f l s' m' (.ok (exit, w')) ∧ Spends o m.world cycles 1 m'.world := by
  have hop : (f.instr i).op.isBranch = false := by
    rw [h.op_eq]
    rfl
  obtain ⟨s', m', out, hrest, hdone⟩ := hgoes.straight hop
  rw [h.op_eq, h.cycles_eq.argBits_eq] at hdone
  cases hdone
  refine ⟨s', _, hrest, ?_⟩
  rw [UInt32.toUInt32_toUInt64]
  exact spends_charge ho hm cycles

/-- A branch goes on behind itself, or only the pc is written. -/
theorem Leaves.goes (h : Leaves f i) (ho : o.Placed size)
    (hgoes : Goes g o f (i :: l) s m (.ok (exit, w'))) :
    Goes g o f l s m (.ok (exit, w')) ∨ Spends o m.world 0 0 w' := by
  have hstep := step_instr f cells g o i l [] s m
  obtain ⟨v, hv, -, horigin⟩ := h.target
  have hleave : ∀ {r : Result σ}, step f cells g o ⟨⟨i :: l, []⟩, s, m⟩ = .stop r →
      r = .ok (exit, w') := fun hstop => Ends.unique ⟨0, .stop hstop⟩ hgoes
  unfold runInstr at hstep
  simp only [h.branch, if_true] at hstep
  split at hstep
  · right
    rw [hv] at hstep
    unfold jump at hstep
    simp only at hstep
    cases hvalue : (f.value v).origin with
    | result j =>
      rw [hvalue] at hstep
      cases hleave hstep
      exact spends_set_pc ho _ _
    | constant c =>
      rw [hvalue] at hstep horigin
      cases c with
      | blk b => exact absurd rfl (horigin b)
      | _ =>
        simp only at hstep
        split at hstep
        · cases hleave hstep
          exact spends_set_pc ho _ _
        · cases hleave hstep
  · left
    exact (GoesIn.single hstep).ends_iff.mp hgoes

/-- Nothing is charged behind the charges. -/
theorem Exits.goes (h : Exits o f l) (hg : g.Unmetered o size) (ho : o.Placed size)
    (hm : m.world.ctx.size = size) (hgoes : Goes g o f l s m (.ok (exit, w'))) :
    Spends o m.world 0 0 w' := by
  induction l generalizing s m with
  | nil =>
    cases hgoes.unique ⟨0, .stop (step_end f cells g o s m)⟩
    exact .refl o _
  | cons i l ih =>
    have hrest : Exits o f l := fun j hj => h j (List.mem_cons_of_mem i hj)
    obtain hidle | hleaves := h i List.mem_cons_self
    · obtain ⟨s', m', hgoes', hspends⟩ := hidle.goes hg hm hgoes
      have hspends' := ih hrest (hspends.size_eq.trans hm) hgoes'
      simpa using hspends.trans hspends'
    · obtain hgoes' | hspends := hleaves.goes ho hgoes
      · exact ih hrest hm hgoes'
      · exact hspends

/-- Straight code spends what it charges, whatever way the code behind it leaves. -/
theorem Metered.goes (h : Metered o f l cs) (hexits : Exits o f l') (hg : g.Unmetered o size)
    (ho : o.Placed size) (hm : m.world.ctx.size = size)
    (hgoes : Goes g o f (l ++ l') s m (.ok (exit, w'))) :
    Spends o m.world (cs.map Prod.snd).sum (UInt32.ofNat cs.length) w' := by
  induction h generalizing s m with
  | nil => exact hexits.goes hg ho hm hgoes
  | idle h _ ih =>
    obtain ⟨s', m', hgoes', hspends⟩ := h.goes hg hm hgoes
    have hspends' := ih (hspends.size_eq.trans hm) hgoes'
    simpa using hspends.trans hspends'
  | charge h _ ih =>
    obtain ⟨s', m', hgoes', hspends⟩ := h.goes ho hm hgoes
    have hspends' := hspends.trans (ih (hspends.size_eq.trans hm) hgoes')
    rw [List.map_cons, List.sum_cons, List.length_cons, UInt32.ofNat_add,
      UInt32.add_comm (.ofNat _)]
    exact hspends'

/-- A fragment of one block spends what it charges on every way out. -/
theorem Metered.evaluates (h : Metered o f l cs) (hexits : Exits o f l') (hf : Single f b (l ++ l'))
    (hg : g.Unmetered o size) (ho : o.Placed size) (hw : w.ctx.size = size)
    (heval : Evaluates g o f w (.ok (exit, w'))) :
    Spends o w (cs.map Prod.snd).sum (UInt32.ofNat cs.length) w' := by
  have henter : step f cells g o (start f (fun _ => 0) w) =
      .go ⟨⟨l ++ l', []⟩, fun _ => 0, ⟨Array.replicate f.localsSize.toNat 0, w⟩⟩ := by
    unfold start
    rw [hf.order_eq, step_enter, hf.chain.blockInstrs_eq]
  exact h.goes hexits hg ho hw ((GoesIn.single henter).ends_iff.mp heval)

/-! ### Built code -/

/-- If the action succeeds, `Q` holds of the instructions that it has put at the insert point. -/
def Adds (act : Build α) (f : Fragment) (Q : α → Fragment → List InstrId → Prop) : Prop :=
  ∀ b l₁ l₂, Open f b l₁ l₂ → ∀ a f', act f = .ok (a, f') →
    ∃ l, Extends f f' b l₁ l l₂ ∧ Q a f' l

variable {act : Build α} {k : α → Build β} {P Q : α → Fragment → List InstrId → Prop}
  {R : β → Fragment → List InstrId → Prop}

theorem ok_of_bind_ok {c : β} (h : (act >>= k) f = .ok (c, f'')) :
    ∃ a f', act f = .ok (a, f') ∧ k a f' = .ok (c, f'') := by
  obtain ⟨⟨a, f'⟩, hact, hk⟩ := Interp.bind_eq_ok (show (act f >>= fun p => k p.1 p.2) = _ from h)
  exact ⟨a, f', hact, hk⟩

theorem adds_pure {a : α} (h : Q a f []) : Adds (pure a) f Q := by
  intro b l₁ l₂ hopen a' f' hact
  cases hact
  exact ⟨[], .refl hopen, h⟩

theorem Adds.bind (h : Adds act f P) (hk : ∀ a f' l, Grows f f' → P a f' l →
    Adds (k a) f' fun c f'' l' => R c f'' (l ++ l')) : Adds (act >>= k) f R := by
  intro b l₁ l₂ hopen c f'' hboth
  obtain ⟨a, f', hact, hrest⟩ := ok_of_bind_ok hboth
  obtain ⟨l, hext, hP⟩ := h b l₁ l₂ hopen a f' hact
  obtain ⟨l', hext', hR⟩ := hk a f' l hext.grows hP b (l₁ ++ l) l₂ hext.opened c f'' hrest
  exact ⟨l ++ l', hext.trans hext', hR⟩

theorem Adds.mono (h : Adds act f P) (hPQ : ∀ a f' l, Grows f f' → P a f' l → Q a f' l) :
    Adds act f Q := by
  intro b l₁ l₂ hopen a f' hact
  obtain ⟨l, hext, hP⟩ := h b l₁ l₂ hopen a f' hact
  exact ⟨l, hext, hPQ a f' l hext.grows hP⟩

/-- What an action is known to lead to holds besides. -/
theorem Adds.and {K : α → Fragment → Cells → Memory σ → Prop} (h : Adds act f P)
    (hemit : Emits g o act f s m K) :
    Adds act f fun a f' l => P a f' l ∧ ∃ s' m', K a f' s' m' := by
  intro b l₁ l₂ hopen a f' hact
  obtain ⟨l, hext, hP⟩ := h b l₁ l₂ hopen a f' hact
  obtain ⟨a', f'', l', s', m', hact', -, -, -, hK⟩ := hemit b l₁ l₂ hopen
  have hsame : (Except.ok (a', f'') : Except Fault (α × Fragment)) = .ok (a, f') :=
    hact'.symm.trans hact
  cases hsame
  exact ⟨l, hext, hP, s', m', hK⟩

/-- The action only puts idle instructions at the insert point. -/
def Idles (o : Offsets) (act : Build α) : Prop :=
  ∀ f, Adds act f fun _ f' l => ∀ i ∈ l, Idle o f' i

theorem idle_append (h : ∀ i ∈ l, Idle o f i) (hf : Grows f f') (h' : ∀ i ∈ l', Idle o f' i) :
    ∀ i ∈ l ++ l', Idle o f' i := by
  intro i hi
  obtain hi | hi := List.mem_append.mp hi
  · exact (h i hi).grows hf
  · exact h' i hi

theorem Idles.bind (h : Idles o act) (hk : ∀ a, Idles o (k a)) : Idles o (act >>= k) := fun f =>
  (h f).bind fun a f' _ _ hidle => (hk a f').mono fun _ _ _ hgrows hidle' =>
    idle_append hidle hgrows hidle'

/-- The action leaves the fragment as it is. -/
def Inspects (act : Build α) : Prop := ∀ f a f', act f = .ok (a, f') → f' = f

theorem inspects_pure (a : α) : Inspects (pure a : Build α) := by
  intro f a' f' h
  cases h
  rfl

theorem inspects_tyOf (v : ValueId) : Inspects (Build.tyOf v) := by
  intro f a f' h
  cases h
  rfl

theorem inspects_check (rule : Bool) (fault : Fault) : Inspects (Build.check rule fault) := by
  intro f a f' h
  unfold Build.check at h
  split at h <;> cases h
  rfl

theorem Inspects.adds_bind (h : Inspects act) (hk : ∀ a, Adds (k a) f R) :
    Adds (act >>= k) f R := by
  intro b l₁ l₂ hopen c f'' hboth
  obtain ⟨a, f', hact, hrest⟩ := ok_of_bind_ok hboth
  cases h f a f' hact
  exact hk a b l₁ l₂ hopen c f'' hrest

theorem Inspects.idles (h : Inspects act) : Idles o act := by
  intro f b l₁ l₂ hopen a f' hact
  rw [h f a f' hact]
  exact ⟨[], .refl hopen, by simp⟩

theorem idles_pure (a : α) : Idles o (pure a : Build α) := (inspects_pure a).idles

theorem idles_tyOf (v : ValueId) : Idles o (Build.tyOf v) := (inspects_tyOf v).idles

theorem idles_check (rule : Bool) (fault : Fault) : Idles o (Build.check rule fault) :=
  (inspects_check rule fault).idles

theorem idles_constant (c : Constant) : Idles o (Build.constant c) := by
  intro f b l₁ l₂ hopen a f' hact
  obtain ⟨v, f₁, hconst, hext, -⟩ := constant_ok hopen c
  have hsame : (Except.ok (v, f₁) : Except Fault (ValueId × Fragment)) = .ok (a, f') :=
    hconst.symm.trans hact
  cases hsame
  exact ⟨[], hext, by simp⟩

theorem idles_i32 (x : UInt32) : Idles o (Build.i32 x) := idles_constant _

theorem idles_i64 (x : UInt64) : Idles o (Build.i64 x) := idles_constant _

section
variable {op : Opcode} {ty : Option Ty} {args : List ValueId}

/-- The operations that have nothing to do with counters. -/
def Plain (op : Opcode) : Prop :=
  op ≠ .sourceInfo ∧ op.isBranch = false ∧ op ≠ .storeContext

instance (op : Opcode) : Decidable (Plain op) := by
  unfold Plain
  infer_instance

theorem idle_of_emitted (hop : Plain op) (h : Emitted f f' b l₁ l₂ op ty args i) : Idle o f' i where
  lt := by
    rw [h.id_eq, h.size_instrs]
    exact Nat.lt_succ_self _
  op_ne := by
    rw [h.op_eq]
    exact hop.1
  straight := by
    rw [h.op_eq]
    exact hop.2.1
  clear heq := by
    rw [h.op_eq] at heq
    exact absurd heq hop.2.2

theorem adds_emit (hlen : args.length ≤ 3) : Adds (Build.emit op ty args) f fun i f' l =>
    l = [i] ∧ ∃ b l₁ l₂, Emitted f f' b l₁ l₂ op ty args i := by
  intro b l₁ l₂ hopen i f' hact
  obtain ⟨f₁, hemit, h⟩ := emit_spec hopen.chain hopen.point op ty args hlen
  have hsame : (Except.ok (_, f₁) : Except Fault (InstrId × Fragment)) = .ok (i, f') :=
    hemit.symm.trans hact
  cases hsame
  exact ⟨_, extends_of_emitted h, rfl, b, l₁, l₂, h⟩

theorem idles_emit (hop : Plain op) (hlen : args.length ≤ 3) : Idles o (Build.emit op ty args) := by
  intro f
  apply (adds_emit hlen).mono
  intro i f' l _ ⟨hl, b, l₁, l₂, h⟩ j hj
  rw [hl] at hj
  cases List.mem_singleton.mp hj
  exact idle_of_emitted hop h

theorem idles_emitEffect (hop : Plain op) (hlen : args.length ≤ 3) :
    Idles o (Build.emitEffect op args) :=
  (idles_emit hop hlen).bind fun _ => idles_pure ()

/-- The result of an operation has its type. -/
theorem adds_emitValue {t : Ty} (hop : Plain op) (hlen : args.length ≤ 3) :
    Adds (Build.emitValue op t args) f fun v f' l =>
      (∀ i ∈ l, Idle o f' i) ∧ v.index < f'.values.size ∧ f'.ty v = t := by
  refine (adds_emit hlen).bind fun i f₁ l _ ⟨hl, b, l₁, l₂, h⟩ => ?_
  intro b' l₁' l₂' hopen v f' hact
  have hresult : f₁.resultOf i = .ok ⟨f.values.size⟩ := by
    unfold resultOf
    rw [h.result_eq]
    rfl
  change (f₁.resultOf i >>= fun v => Except.ok (v, f₁)) = _ at hact
  rw [hresult] at hact
  cases hact
  refine ⟨[], .refl hopen, ?_, ?_, (h.value_eq t rfl).1⟩
  · intro j hj
    rw [hl, List.append_nil] at hj
    cases List.mem_singleton.mp hj
    exact idle_of_emitted hop h
  · rw [h.size_values]
    exact Nat.lt_succ_self _

theorem idles_emitValue {t : Ty} (hop : Plain op) (hlen : args.length ≤ 3) :
    Idles o (Build.emitValue op t args) := fun _ =>
  (adds_emitValue hop hlen).mono fun _ _ _ _ h => h.1

end

theorem idles_loadContext (offset : Int) (ty : Ty) : Idles o (Build.loadContext offset ty) :=
  (idles_i32 _).bind fun _ => idles_emitValue (by decide) (by simp)

/-- A constant operand of an emitted instruction. -/
theorem hasWord_of_emitted {op : Opcode} {ty : Option Ty} {args : List ValueId} {v : ValueId}
    {x : UInt32} {k : Slot} (h : Emitted f f' b l₁ l₂ op ty args i) (hv : args[k.val]? = some v)
    (hlt : v.index < f.values.size) (horigin : (f.value v).origin = .constant (.i32 x)) :
    HasWord f' i k x :=
  ⟨v, (h.arg_eq k).trans hv, Nat.lt_of_lt_of_le hlt h.grows.values_le,
    (h.grows.origin_eq v hlt).trans horigin⟩

theorem adds_i32 (x : UInt32) : Adds (Build.i32 x) f fun v f' l =>
    l = [] ∧ v.index < f'.values.size ∧ (f'.value v).origin = .constant (.i32 x) := by
  intro b l₁ l₂ hopen v f' hact
  obtain ⟨v₁, f₁, hconst, hext, hv⟩ := constant_ok hopen (.i32 x)
  have hsame : (Except.ok (v₁, f₁) : Except Fault (ValueId × Fragment)) = .ok (v, f') :=
    hconst.symm.trans hact
  cases hsame
  refine ⟨[], hext, rfl, (hv fun _ => 0).lt, ?_⟩
  cases hact
  exact congrArg Value.origin (value_addValue_new { ty := .i32, origin := .constant (.i32 x) })

theorem idles_storeContext {d : Int} (v : ValueId)
    (hcycles : Clear (Int32.ofInt d).toInt 8 o.cycles)
    (hinstrs : Clear (Int32.ofInt d).toInt 8 o.instrs) :
    Idles o (Build.storeContext d v) := by
  intro f
  refine (adds_i32 (Int32.ofInt d).toUInt32).bind fun a f₁ l _ ⟨hl, hlt, horigin⟩ => ?_
  refine (adds_emit (by simp)).bind fun i f₂ l' _ ⟨hl', b, l₁, l₂, h⟩ => ?_
  apply adds_pure
  intro j hj
  rw [hl, hl', List.nil_append, List.append_nil] at hj
  cases List.mem_singleton.mp hj
  refine ⟨?_, ?_, ?_, fun _ => ⟨_, hasWord_of_emitted h rfl hlt horigin, ?_, ?_⟩⟩
  · rw [h.id_eq, h.size_instrs]
    exact Nat.lt_succ_self _
  · rw [h.op_eq]
    decide
  · rw [h.op_eq]
    rfl
  · rwa [Int32.toInt32_toUInt32]
  · rwa [Int32.toInt32_toUInt32]

theorem adds_sourceInfo (addr cycles : UInt32) : Adds (Build.sourceInfo addr cycles) f fun _ f' l =>
    Metered o f' l [(addr, cycles)] := by
  refine (adds_i32 addr).bind fun a f₁ l _ ⟨hl, hlt, horigin⟩ => ?_
  refine (adds_i32 cycles).bind fun c f₂ l' hgrows ⟨hl', hlt', horigin'⟩ => ?_
  refine (adds_emit (by simp)).bind fun i f₃ l'' _ ⟨hl'', b, l₁, l₂, h⟩ => ?_
  apply adds_pure
  have hlt₂ := Nat.lt_of_lt_of_le hlt hgrows.values_le
  have haddr : HasWord f₃ i 0 addr :=
    hasWord_of_emitted h rfl hlt₂ ((hgrows.origin_eq a hlt).trans horigin)
  have hcycles : HasWord f₃ i 1 cycles := hasWord_of_emitted h rfl hlt' horigin'
  have hi : i.index < f₃.instrs.size := by
    rw [h.id_eq, h.size_instrs]
    exact Nat.lt_succ_self _
  rw [hl, hl', hl'']
  exact .charge ⟨hi, h.op_eq, haddr, hcycles⟩ .nil

/-! ### Building methods -/

section
variable {op : Opcode}

/-- The result of a conversion has the type that was asked for. -/
theorem adds_convert (hop : Plain op) (v : ValueId) (ty : Ty) :
    Adds (Build.convert op v ty) f fun u f' l =>
      (∀ i ∈ l, Idle o f' i) ∧ u.index < f'.values.size ∧ f'.ty u = ty :=
  (inspects_tyOf v).adds_bind fun _ => (inspects_check _ _).adds_bind fun _ =>
    adds_emitValue hop (by simp)

theorem idles_convert (hop : Plain op) (v : ValueId) (ty : Ty) : Idles o (Build.convert op v ty) :=
  fun _ => (adds_convert hop v ty).mono fun _ _ _ _ h => h.1

theorem idles_intBinary (hop : Plain op) (a b : ValueId) : Idles o (Build.intBinary op a b) :=
  (idles_tyOf a).bind fun _ => (idles_check _ _).bind fun _ => (idles_tyOf b).bind fun _ =>
    (idles_check _ _).bind fun _ => idles_emitValue hop (by simp)

theorem idles_not (a : ValueId) : Idles o (Build.not a) :=
  (idles_tyOf a).bind fun _ => (idles_check _ _).bind fun _ => idles_emitValue (by decide) (by simp)

theorem idles_compare (hop : Plain op) (a b : ValueId) : Idles o (Build.compare op a b) :=
  (idles_tyOf a).bind fun _ => (idles_check _ _).bind fun _ => (idles_tyOf a).bind fun _ =>
    (idles_tyOf b).bind fun _ => (idles_check _ _).bind fun _ => idles_emitValue hop (by simp)

theorem idles_shift (hop : Plain op) (a n : ValueId) : Idles o (Build.shift op a n) :=
  (idles_tyOf a).bind fun _ => (idles_check _ _).bind fun _ => (idles_tyOf n).bind fun _ =>
    (idles_check _ _).bind fun _ => idles_emitValue hop (by simp)

theorem idles_shiftBy (hop : Plain op) (a : ValueId) (n : UInt32) :
    Idles o (Build.shiftBy op a n) :=
  (idles_i32 n).bind fun _ => idles_shift hop a _

theorem idles_shiftSigned (hop : Plain op) (a n : ValueId) : Idles o (Build.shiftSigned op a n) :=
  (idles_tyOf a).bind fun _ => (idles_check _ _).bind fun _ => idles_shift hop a n

theorem idles_loadHost (addr : ValueId) (ty : Ty) : Idles o (Build.loadHost addr ty) :=
  (idles_tyOf addr).bind fun _ => (idles_check _ _).bind fun _ =>
    idles_emitValue (by decide) (by simp)

theorem idles_storeHost (addr v : ValueId) : Idles o (Build.storeHost addr v) :=
  (idles_tyOf addr).bind fun _ => (idles_check _ _).bind fun _ =>
    idles_emitEffect (by decide) (by simp)

theorem idles_loadGuest (addr : ValueId) (ty : Ty) : Idles o (Build.loadGuest addr ty) :=
  (idles_tyOf addr).bind fun _ => (idles_check _ _).bind fun _ => (idles_check _ _).bind fun _ =>
    idles_emitValue (by decide) (by simp)

theorem idles_storeGuest (addr v : ValueId) : Idles o (Build.storeGuest addr v) :=
  (idles_tyOf addr).bind fun _ => (idles_check _ _).bind fun _ => (idles_tyOf v).bind fun _ =>
    (idles_check _ _).bind fun _ => idles_emitEffect (by decide) (by simp)

theorem idles_fallback (routine : UInt64) (addr raw : UInt32) :
    Idles o (Build.fallback routine addr raw) :=
  (idles_i64 routine).bind fun _ => (idles_i32 addr).bind fun _ => (idles_i32 raw).bind fun _ =>
    idles_emitEffect (by decide) (by simp)

/-- A call with one argument. -/
theorem adds_call (routine : UInt64) {v : ValueId} (hv : v.index < f.values.size)
    (hty : f.ty v = .i64) : Adds (Build.call routine (some v) none) f fun _ f' l =>
      ∀ i ∈ l, Idle o f' i := by
  refine (idles_i64 (o := o) routine f).bind fun r f₁ l hgrows hidle => ?_
  have hlt₁ : v.index < f₁.values.size := Nat.lt_of_lt_of_le hv hgrows.values_le
  have hty₁ : f₁.ty v = .i64 := (hgrows.ty_eq v hv).trans hty
  intro b l₁ l₂ hopen c f' hact
  have hcall : Build.emitEffect .call [r, v] f₁ = .ok (c, f') :=
    (call_eq hopen hlt₁ hty₁).symm.trans hact
  have hidles : Idles o (Build.emitEffect .call [r, v]) := idles_emitEffect (by decide) (by simp)
  obtain ⟨l', hext, hidle'⟩ := hidles f₁ b l₁ l₂ hopen c f' hcall
  exact ⟨l', hext, idle_append hidle hext.grows hidle'⟩

end

/-! ### Branches -/

/-- A branch to a word leaves the fragment. -/
theorem leaves_of_carries {v : ValueId} {x : UInt32} {args : List ValueId} {op : Opcode}
    (h : Carries f i op args) (hop : op.isBranch = true)
    (htarget : Exit.target? (f.instr i) = some v) (hv : Holds32 f s v x) : Leaves f i where
  lt := h.lt
  branch := by
    rw [h.op_eq]
    exact hop
  target := by
    refine ⟨v, htarget, hv.lt, fun b horigin => ?_⟩
    have hty := hv.constant_ty _ horigin
    cases hty

theorem leaves_of_branch {v : ValueId} {x : UInt32} (h : Carries f i .branch [v])
    (hv : Holds32 f s v x) : Leaves f i := by
  apply leaves_of_carries h rfl _ hv
  unfold Exit.target?
  rw [h.op_eq]
  exact h.arg_eq 0

theorem leaves_of_branchIf {op : Opcode} {c d : ValueId} {x : UInt32} (hop : IsCondition op)
    (h : Carries f i op [c, d]) (hd : Holds32 f s d x) : Leaves f i := by
  apply leaves_of_carries h hop.isBranch _ hd
  unfold Exit.target?
  rw [h.op_eq]
  obtain rfl | rfl := hop <;> exact h.arg_eq 1

/-! ### Code that leaves -/

/-- The value is a word. -/
def IsWord (f : Fragment) (v : ValueId) : Prop := ∃ cells x, Holds32 f cells v x

/-- The code ends with a branch out of the fragment and nothing else in it branches or charges. -/
def Closes (o : Offsets) (f : Fragment) (l : List InstrId) (op : Opcode) : Prop :=
  ∃ l' i, l = l' ++ [i] ∧ (∀ j ∈ l', Idle o f j) ∧ Leaves f i ∧ (f.instr i).op = op

theorem Closes.exits {op : Opcode} (h : Closes o f l op) : Exits o f l := by
  obtain ⟨l', i, rfl, hidle, hleaves, -⟩ := h
  apply (exits_of_idle hidle).append
  intro j hj
  cases List.mem_singleton.mp hj
  exact .inr hleaves

theorem Closes.grows {op : Opcode} (h : Closes o f l op) (hf : Grows f f') : Closes o f' l op := by
  obtain ⟨l', i, hl, hidle, hleaves, hop⟩ := h
  exact ⟨l', i, hl, fun j hj => (hidle j hj).grows hf, hleaves.grows hf,
    (hf.op_eq i hleaves.lt).trans hop⟩

/-- Idle code in front. -/
theorem Closes.behind {op : Opcode} (h : Closes o f' l' op) (hidle : ∀ i ∈ l, Idle o f i)
    (hf : Grows f f') : Closes o f' (l ++ l') op := by
  obtain ⟨l'', i, rfl, hidle', hleaves, hop⟩ := h
  exact ⟨l ++ l'', i, (List.append_assoc ..).symm, idle_append hidle hf hidle', hleaves, hop⟩

theorem adds_branch {v : ValueId} (hv : IsWord f v) : Adds (Build.branch v) f fun _ f' l =>
    Closes o f' l .branch := by
  obtain ⟨cells, x, hx⟩ := hv
  intro b l₁ l₂ hopen u f' hact
  obtain ⟨f₁, hbranch, hemit⟩ := branch_ok hopen hx.lt hx.ty_eq
  have hsame : (Except.ok ((), f₁) : Except Fault (Unit × Fragment)) = .ok (u, f') :=
    hbranch.symm.trans hact
  cases hsame
  have hcarries := carries_of_emitted hemit
  have hx' : Holds32 f' cells v x := hx.grows hemit.grows fun _ _ => rfl
  exact ⟨_, extends_of_emitted hemit, [], _, rfl, by simp, leaves_of_branch hcarries hx',
    hcarries.op_eq⟩

/-- A branch to a computed word. -/
theorem Adds.branch {act : Build ValueId}
    (h : Adds act f fun v f' l => (∀ i ∈ l, Idle o f' i) ∧ IsWord f' v) :
    Adds (act >>= Build.branch) f fun _ f' l => Closes o f' l .branch :=
  h.bind fun _ _ _ _ ⟨hidle, hv⟩ => (adds_branch hv).mono fun _ _ _ hgrows hcloses =>
    hcloses.behind hidle hgrows

theorem adds_branchIf {c : ValueId} {op : Opcode} (hop : IsCondition op) (hc : IsWord f c)
    (x : UInt32) : Adds (do let d ← Build.i32 x; Build.branchIf op c d) f fun _ f' l =>
      Closes o f' l op := by
  obtain ⟨cells, y, hy⟩ := hc
  intro b l₁ l₂ hopen u f' hact
  obtain ⟨d, i, f₁, hbranch, hext, hcarries, hd⟩ :=
    branchIfTo_ok hopen op hy.lt (by rw [hy.ty_eq]; rfl) x
  have hsame : (Except.ok ((), f₁) : Except Fault (Unit × Fragment)) = .ok (u, f') :=
    hbranch.symm.trans hact
  cases hsame
  exact ⟨_, hext, [], i, rfl, by simp, leaves_of_branchIf hop hcarries (hd cells), hcarries.op_eq⟩

end Meaning
end Recompiler
