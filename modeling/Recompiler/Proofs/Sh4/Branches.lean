import Recompiler.Proofs.IR.Leaving
import Recompiler.Proofs.Sh4.Lifting

/-!
The code of branches and the ways out of a block. A slot is built behind the code of its branch, and
inserted into it at the mark: what runs before the slot, the slot and what runs behind it are told
apart here.
-/
namespace Recompiler.Sh4

open IR Meaning State Fragment

variable {f : Fragment} {b : BlockId} {l l₁ l₂ : List InstrId} {s : Cells} {w : State}
  {m : Interp.Memory Board} {op : Opcode} {x addr raw next : UInt32}
  {slot : Build (Option InsertPoint)} {Q : Interp.Memory Board → Prop}

/-- At the end of the only block, an instruction that does not leave goes on with a branch to the
next one. -/
theorem finish_falls {o : Op} (ho : (o.has .storePc && !o.has .conditional) = false)
    (h : Single f b l) (hopen : Open f b l []) (next : UInt32) :
    Lift.finish o next f = (do Build.branch (← Build.i32 next)) f := by
  have hpoint : f.point = ⟨some b, (f.block b).tail⟩ := by
    rw [hopen.point, h.chain.tail_eq]
  have hsame : f.atEndOf b = f := by
    unfold atEndOf
    rw [← hpoint]
    rfl
  unfold Lift.finish
  rw [ho, if_neg (by decide), bind_ok (show (get : Build Fragment) f = .ok (f, f) from rfl),
    h.order_eq]
  change (Build.update (·.atEndOf b) >>= fun _ => Build.i32 next >>= Build.branch) f = _
  rw [bind_ok (show Build.update (·.atEndOf b) f = .ok ((), f.atEndOf b) from rfl), hsame]

/-- Going on at the pc leaves the state as it is. -/
theorem evaluates_pc (h : Single f b l) (hopen : Open f b l [])
    (hrun : RunsTo guest offsets f l w s m) :
    ∃ f', (Lift.load .pc >>= Build.branch) f = .ok ((), f') ∧
      ∃ exit, Evaluates guest offsets f' w (.ok (exit, m.world)) := by
  have hpc : Emits guest offsets (Lift.load .pc) f s m _ := emits_load .pc
  obtain ⟨f', hbranch, exit, heval⟩ := evaluates_emits_branch h hopen hrun
    (hpc.mono fun v f' s' m' _ hv => ⟨congrArg Interp.Memory.world hv.1, hv.2⟩)
  have hsame : m.world.set32 offsets.pc (State.get m.world .pc) = m.world :=
    congrArg (fun c => { m.world with ctx := c }) (Context.set_get m.world.ctx .pc)
  refine ⟨f', hbranch, exit, ?_⟩
  rw [hsame] at heval
  exact heval

/-- Code is inserted at a mark, and the insert point is back at the end. -/
theorem insertAt_code {a : Option InsertPoint} {f₁ : Fragment} (h : Single f b (l₁ ++ l₂))
    (hopen : Open f b (l₁ ++ l₂) []) (hl₂ : l₂ ≠ [])
    (hact : slot (f.setPoint ⟨some b, l₁.getLast?⟩) = .ok (a, f₁))
    (hext : Extends (f.setPoint ⟨some b, l₁.getLast?⟩) f₁ b l₁ l l₂) :
    ∃ f', Lift.insertAt ⟨some b, l₁.getLast?⟩ slot f = .ok ((), f') ∧
      Single f' b (l₁ ++ l ++ l₂) ∧ Open f' b (l₁ ++ l ++ l₂) [] ∧ Grows f₁ f' := by
  have hsingle := ((h.setPoint _).extends hext).setPoint f.point
  refine ⟨f₁.setPoint f.point, ?_, hsingle, ⟨?_, ?_⟩, grows_setPoint _ _⟩
  · unfold Lift.insertAt Lift.here
    rw [bind_assoc, bind_ok (show (get : Build Fragment) f = .ok (f, f) from rfl), pure_bind,
      bind_ok (show Build.update (·.setPoint _) f = .ok ((), f.setPoint _) from rfl), bind_ok hact]
    rfl
  · rw [List.append_nil]
    exact hsingle.chain
  · have hlast : ∀ l' : List InstrId, (l' ++ l₂).getLast? = l₂.getLast? := by
      intro l'
      rw [List.getLast?_append]
      cases hlast : l₂.getLast? with
      | none => exact absurd (List.getLast?_eq_none_iff.mp hlast) hl₂
      | some i => rfl
    rw [hlast]
    exact hopen.point.trans (by rw [hlast])

/-- The same for code that runs through. -/
theorem insertAt_ok (h : Single f b (l₁ ++ l₂)) (hopen : Open f b (l₁ ++ l₂) []) (hl₂ : l₂ ≠ [])
    (hslot : ∀ f', Emits guest offsets slot f' s m fun _ _ _ m' => Q m') :
    ∃ f' l s' m', Lift.insertAt ⟨some b, l₁.getLast?⟩ slot f = .ok ((), f') ∧
      Single f' b (l₁ ++ l ++ l₂) ∧ Open f' b (l₁ ++ l ++ l₂) [] ∧ Grows f f' ∧
      Runs f' guest offsets l s m s' m' ∧ (∀ v : ValueId, v.index < f.values.size → s' v = s v) ∧
      Q m' := by
  have hmark : Open (f.setPoint ⟨some b, l₁.getLast?⟩) b l₁ l₂ := ⟨h.chain.setPoint _, rfl⟩
  obtain ⟨a, f₁, l, s', m', hact, hext, hrun, hsame, hQ⟩ := hslot _ b l₁ l₂ hmark
  obtain ⟨f', hinsert, hsingle, hopen', hgrows⟩ := insertAt_code h hopen hl₂ hact hext
  have hgrows' : Grows f f' := ((grows_setPoint f _).trans hext.grows).trans hgrows
  exact ⟨f', l, s', m', hinsert, hsingle, hopen', hgrows', hrun.grows hgrows, hsame, hQ⟩

/-- A conditional branch with a slot and the way out behind it. -/
theorem evaluates_conditional (addr raw next : UInt32) {o : Op}
    (ho : (o.has .storePc && !o.has .conditional) = false) (h : Single f b l)
    (hopen : Open f b l []) (hrun : RunsTo guest offsets f l w s m)
    (hop : IsCondition op)
    (hslot : ∀ f' s', Emits guest offsets slot f' s' m fun _ _ _ m' => Q m') :
    ∃ f', (do
        let mark ← Lift.branchIf addr raw op
        Lift.insertAt mark slot
        Lift.finish o next) f = .ok ((), f') ∧
      ∃ m' exit, Q m' ∧ Evaluates guest offsets f' w (.ok (exit, m'.world.set32 offsets.pc
        (if isTaken op (State.get m.world .sr &&& srT).toUInt64 then condTarget addr raw
          else next))) := by
  have hcond : Emits guest offsets Lift.loadT f s m _ := emits_loadT
  obtain ⟨c, f₁, l₁, s₁, m₁, hact₁, hext₁, hrun₁, -, rfl, hc⟩ := hcond b l [] hopen
  have hsingle₁ := h.append hext₁
  obtain ⟨d, i, f₂, hact₂, hext₂, hi, hd⟩ :=
    branchIfTo_ok hext₁.opened op hc.lt (by rw [hc.ty_eq]; rfl) (condTarget addr raw)
  have hsingle₂ := hsingle₁.append hext₂
  obtain ⟨f₃, l₃, s₃, m₃, hact₃, hsingle₃, hopen₃, hgrows₃, hrun₃, hsame₃, hQ⟩ :=
    insertAt_ok hsingle₂ hext₂.opened (by simp) fun f' => hslot f' s₁
  obtain ⟨v, j, f₄, hact₄, hext₄, hj, hv⟩ := branchTo_ok hopen₃ next
  have hsingle₄ := hsingle₃.append hext₄
  rw [List.append_assoc _ [i] [j]] at hsingle₄
  -- the code of the slot runs before the branch, whose values it keeps
  have hc₂ : Holds32 f₂ s₁ c _ := hc.grows hext₂.grows fun _ _ => rfl
  have hc₄ : Holds32 f₄ s₃ c _ := (hc₂.grows hgrows₃ hsame₃).grows hext₄.grows fun _ _ => rfl
  have hd₄ : Holds32 f₄ s₃ d _ := ((hd s₁).grows hgrows₃ hsame₃).grows hext₄.grows fun _ _ => rfl
  have hpast :=
    ((((hrun.grows hext₁.grows).append hrun₁).grows hext₂.grows).grows hgrows₃).append hrun₃
  obtain ⟨exit, heval⟩ := evaluates_branchIf hsingle₄ (hpast.grows hext₄.grows) hop
    ((hi.grows hgrows₃).grows hext₄.grows) hj hc₄ hd₄ (hv s₃)
  refine ⟨f₄, ?_, m₃, exit, hQ, heval⟩
  unfold Lift.branchIf Lift.here
  simp only [bind_assoc, pure_bind]
  rw [bind_ok hact₁, bind_ok (show (get : Build Fragment) f₁ = .ok (f₁, f₁) from rfl),
    hext₁.opened.point, ← bind_assoc, bind_ok hact₂, bind_ok hact₃, finish_falls ho hsingle₃ hopen₃,
    hact₄]

/-! ### Jumps -/

/-- What a jump does to the link register. -/
def linked (addr : UInt32) (link : Bool) (s : State) : State :=
  if link then s.set .pr (addr + 4) else s

/-- The code for that. -/
def linkCode (addr : UInt32) (link : Bool) : Build Unit :=
  if link then Lift.storeConst .pr (addr + 4) else return ()

theorem jump_eq (addr : UInt32) (dst : ValueId) (link : Bool) : Lift.jump addr dst link = (do
    let mark ← Lift.here
    linkCode addr link
    Build.branch dst
    return mark) := by
  cases link with
  | true => simp only [Lift.jump, linkCode, Lift.storeConst, if_true, bind_assoc]
  | false => simp only [Lift.jump, linkCode, Bool.false_eq_true, if_false, pure_bind]

theorem emits_link {cells : Cells} (addr : UInt32) (link : Bool) :
    Emits guest offsets (linkCode addr link) f cells m fun _ _ _ m' =>
      m' = withWorld m (linked addr link m.world) := by
  cases link with
  | true => exact emits_storeConst .pr (addr + 4)
  | false => exact .pure rfl

/-- A jump with a slot. The target is known before the slot runs, and the link is written behind
it. -/
theorem evaluates_jump (addr : UInt32) {target : Build ValueId} (h : Single f b l)
    (hopen : Open f b l [])
    (hrun : RunsTo guest offsets f l w s m) (link : Bool)
    (htarget : Emits guest offsets target f s m fun v f' s' m' => m' = m ∧ Holds32 f' s' v x)
    (hslot : ∀ f' s', Emits guest offsets slot f' s' m fun _ _ _ m' => Q m') :
    ∃ f', (do
        let mark ← Lift.jump addr (← target) link
        Lift.insertAt mark slot) f = .ok ((), f') ∧
      ∃ m' exit, Q m' ∧ Evaluates guest offsets f' w
        (.ok (exit, (linked addr link m'.world).set32 offsets.pc x)) := by
  obtain ⟨v, f₁, l₁, s₁, m₁, hact₁, hext₁, hrun₁, -, rfl, hv⟩ := htarget b l [] hopen
  have hsingle₁ := h.append hext₁
  -- the code behind the slot leads on from wherever the slot ends
  obtain ⟨_, f₂, l₂, hact₂, hext₂, hrun₂⟩ := Emits.forall (P := fun s _ => Holds32 f₁ s v x)
    hext₁.opened ⟨s₁, m₁, hv⟩ fun s m _ => emits_link addr link
  have hv₂ : Holds32 f₂ s₁ v x := hv.grows hext₂.grows fun _ _ => rfl
  obtain ⟨f₃, hact₃, hemit⟩ := branch_ok hext₂.opened hv₂.lt hv₂.ty_eq
  have hext₃ := hext₂.trans (extends_of_emitted hemit)
  obtain ⟨f₄, l₄, s₄, m₄, hact₄, hsingle₄, -, hgrows₄, hrun₄, hsame₄, hQ⟩ :=
    insertAt_ok (hsingle₁.append hext₃) hext₃.opened (by simp) fun f' => hslot f' s₁
  have hv₄ : Holds32 f₁ s₄ v x := hv.grows (.refl f₁) fun u hu =>
    hsame₄ u (Nat.lt_of_lt_of_le hu hext₃.grows.values_le)
  obtain ⟨s₅, m₅, hrun₅, hsame₅, hm₅⟩ := hrun₂ s₄ m₄ hv₄
  have hv₅ : Holds32 f₄ s₅ v x := hv₄.grows (hext₃.grows.trans hgrows₄) hsame₅
  have hgrows₂ : Grows f₂ f₄ := hemit.grows.trans hgrows₄
  have hbefore :=
    (((hrun.grows hext₁.grows).append hrun₁).grows (hext₂.grows.trans hgrows₂)).append hrun₄
  have hpast := hbefore.append (hrun₅.grows hgrows₂)
  have hsplit : l ++ l₁ ++ l₄ ++ (l₂ ++ [(⟨f₂.instrs.size⟩ : InstrId)]) =
      (l ++ l₁ ++ l₄ ++ l₂) ++ ⟨f₂.instrs.size⟩ :: [] := by simp
  rw [hsplit] at hsingle₄
  obtain ⟨exit, heval⟩ :=
    evaluates_branch hsingle₄ hpast ((carries_of_emitted hemit).grows hgrows₄) hv₅
  rw [hm₅] at heval
  refine ⟨f₄, ?_, m₄, exit, hQ, heval⟩
  rw [bind_ok hact₁, jump_eq]
  unfold Lift.here
  simp only [bind_assoc, pure_bind]
  rw [bind_ok (show (get : Build Fragment) f₁ = .ok (f₁, f₁) from rfl), bind_ok hact₂,
    bind_ok hact₃,
    hext₁.opened.point, hact₄]

end Recompiler.Sh4
