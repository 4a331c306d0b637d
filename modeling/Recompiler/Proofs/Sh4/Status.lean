import Mathlib.Logic.Relation
import Recompiler.Proofs.Sh4.Banks
import Recompiler.Proofs.Sh4.Instructions

/-!
Changes of the status registers. However they come about, by a routine, by an interpreted
instruction or by lifted code, each bank keeps what it holds; and returning from an exception gives
back the registers and the status that the exception found.
-/
namespace Recompiler.Sh4

open IR Meaning State

/-! ### Changes of status -/

/-- The code that an action puts into a fragment leads from a store and a memory to a state. -/
def LeadsTo (act : Build Unit) (f : Fragment) (cells : Cells)
    (m : Interp.Memory Board) (t : State) :
    Prop :=
  ∃ b l₁ l₂ f' l cells' m', Open f b l₁ l₂ ∧ act f = .ok ((), f') ∧ Extends f f' b l₁ l l₂ ∧
    Runs f' guest offsets l cells m cells' m' ∧ m'.world = t

variable {s t : State} {f : Fragment} {cells : Cells} {m : Interp.Memory Board} {v : ValueId}

/-- Code leads to no other state than the one it is known to lead to. -/
theorem LeadsTo.eq {act : Build Unit} (h : LeadsTo act f cells m t)
    (hemits : Emits guest offsets act f cells m fun _ _ _ m' => m' = withWorld m s) : t = s := by
  obtain ⟨b, l₁, l₂, f', l, cells', m', hopen, hact, hext, hrun, rfl⟩ := h
  obtain ⟨_, f'', l', cells'', m'', hact', hext', hrun', -, hm⟩ := hemits b l₁ l₂ hopen
  cases hact.symm.trans hact'
  have hcode := hext'.opened.chain.blockInstrs_eq.symm.trans hext.opened.chain.blockInstrs_eq
  have hl : l' = l := List.append_cancel_left (List.append_cancel_right hcode)
  subst hl
  rw [(hrun'.unique hrun).2, hm, world_withWorld]

/-- The instructions that change no register: they test, set a status register or raise an
exception. -/
def Op.isStatusOnly : Op → Bool
  | cmpEq | cmpHs | cmpGe | cmpHi | cmpGt | cmpEqImm | tst | clrt | sett
  | ldcSr | ldsFpscr | trapa | invalid => true
  | _ => false

/-- One change of the status registers: by a routine, by an interpreted instruction, by the return
from an exception behind its delay slot, or by lifted code. -/
inductive StatusChange : State → State → Prop where
  | sr (s : State) (v : UInt32) : StatusChange s (s.modify fun c => Context.setSr c v)
  | truth (s : State) (on : Bool) : StatusChange s (s.modify fun c => Context.setT c on)
  | fpscr (s : State) (v : UInt32) : StatusChange s (s.modify fun c => Context.setFpscr c v)
  | exception (s : State) (spc vector : UInt32) :
    StatusChange s (s.modify fun c => Context.enterException c spc vector)
  | interrupt {s t : State} (done : s.interruptCheck = .ok t) : StatusChange s t
  | interpreted {op : Op} (hop : op.isStatusOnly = true) (addr raw : UInt32) (s : State) :
    StatusChange s (perform op addr raw s)
  | returned {addr raw : UInt32} {s₀ s t : State} (slot : runSlot (addr + 2) s₀ = .ok s)
    (done : interpret .rte addr raw s₀ = .ok t) : StatusChange s t
  | lifted {op : Op} (hop : op.isStatusOnly = true) (hlifted : op.isLifted = true)
    {mem : Option FastMem} {addr raw : UInt32} {f : Fragment} {cells : Cells}
    {m : Interp.Memory Board} {t : State}
    (code : LeadsTo (Lift.simple mem op addr raw) f cells m t) : StatusChange m.world t
  | liftedTruth {f : Fragment} {cells : Cells} {m : Interp.Memory Board} {v : ValueId} {p : Bool}
    {t : State} (hv : HoldsTruth f cells v p ∨ Holds32 f cells v p.toUInt32)
    (code : LeadsTo (Lift.storeT v) f cells m t) : StatusChange m.world t
  | liftedSr {f : Fragment} {cells : Cells} {m : Interp.Memory Board} {v : ValueId} {x : UInt32}
    {t : State} (hv : Holds32 f cells v x)
    (code : LeadsTo (Lift.storeSr v) f cells m t) : StatusChange m.world t
  | liftedFpscr {f : Fragment} {cells : Cells} {m : Interp.Memory Board} {v : ValueId} {x : UInt32}
    {t : State} (hv : Holds32 f cells v x)
    (code : LeadsTo (Lift.storeFpscr v) f cells m t) : StatusChange m.world t

section
variable {c : Context} (hc : c.size = 4 * Field.all.length)
include hc

/-- Writing the event of an exception and then entering it. -/
theorem sameBanks_event {e : Field} (he : e ∈ Field.entryWords ++ Field.eventWords)
    (x spc vector : UInt32) :
    Context.SameBanks c (Context.enterException (Context.set c e x) spc vector) := by
  have hsize : (Context.set c e x).size = 4 * Field.all.length := by rw [Context.size_set, hc]
  exact (Context.SameBanks.set he x).trans (.enterException hsize spc vector)

theorem sameBanks_events {e e' : Field} (he : e ∈ Field.entryWords ++ Field.eventWords)
    (he' : e' ∈ Field.entryWords ++ Field.eventWords) (x x' spc vector : UInt32) :
    Context.SameBanks c
      (Context.enterException (Context.set (Context.set c e x) e' x') spc vector) := by
  have hsize : (Context.set c e x).size = 4 * Field.all.length := by rw [Context.size_set, hc]
  exact (Context.SameBanks.set he x).trans (sameBanks_event hsize he' x' spc vector)

end

theorem sameBanks_perform {op : Op} (hop : op.isStatusOnly = true) (hs : s.Sized)
    (addr raw : UInt32) :
    Context.SameBanks s.ctx (perform op addr raw s).ctx := by
  cases op
  all_goals dsimp only [perform, State.test, State.modify, State.set]
  case trapa => exact sameBanks_events hs (by decide) (by decide) _ _ _ _
  case invalid => exact sameBanks_event hs (by decide) _ _ _
  case ldcSr => exact .setSr hs _
  case ldsFpscr => exact .setFpscr hs _
  case cmpEq | cmpHs | cmpGe | cmpHi | cmpGt | cmpEqImm | tst | clrt | sett => exact .setT hs _
  all_goals cases hop

/-- The context with a line noted as the event of an exception. -/
def noted (s : State) (line : Fin 32) : Context :=
  Context.set (Context.set s.ctx .pending (s.get .pending &&& ~~~(1 <<< UInt32.ofNat line))) .intevt
    (intevtBase + UInt32.ofNat line * 0x20)

theorem size_noted (s : State) (line : Fin 32) : (noted s line).size = s.ctx.size := by
  rw [noted, Context.size_set, Context.size_set]

theorem get_noted {f : Field} (h : f ∉ Field.eventWords) (line : Fin 32) :
    Context.get (noted s line) f = s.get f := by
  have hne {e : Field} (he : e ∈ Field.eventWords) : f ≠ e := by
    rintro rfl
    exact h he
  rw [noted, Context.get_set_ne _ (hne (by decide)),
    Context.get_set_ne _ (hne (by decide)), State.get]

/-- What delivering a line does. -/
theorem deliver_eq (s : State) (line : Fin 32) : s.deliver line = {
    ctx := Context.enterException (noted s line) (s.get .pc) vectorInterrupt
    rest := { s.rest with taken := s.rest.taken + 1 } } := by
  have hpc : Context.get (noted s line) .pc = s.get .pc := get_noted (by decide) line
  unfold deliver
  dsimp only [State.modify, State.set]
  rw [← hpc, noted]

/-- A check changes nothing, delivers a line, or faults at the end of the count. -/
theorem interruptCheck_cases (s : State) :
    (s.acceptedLine? = none ∧ s.interruptCheck = .ok s) ∨
    ∃ line, s.acceptedLine? = some line ∧
      ((s.rest.taken.toNat + 1 < UInt32.size ∧ s.interruptCheck = .ok (s.deliver line)) ∨
        (s.rest.taken.toNat + 1 = UInt32.size ∧ s.interruptCheck = .error .overflow)) := by
  unfold interruptCheck
  cases hline : s.acceptedLine? with
  | none => exact .inl ⟨rfl, rfl⟩
  | some line =>
    refine .inr ⟨line, rfl, ?_⟩
    dsimp only
    by_cases hroom : s.rest.taken.toNat + 1 < UInt32.size
    · exact .inl ⟨hroom, if_pos hroom⟩
    · have hlt : s.rest.taken.toNat < UInt32.size := s.rest.taken.toNat_lt
      exact .inr ⟨by omega, if_neg hroom⟩

theorem interruptCheck_eq_ok (h : s.interruptCheck = .ok t) :
    t = s ∨ ∃ line, s.acceptedLine? = some line ∧ t = s.deliver line := by
  obtain ⟨-, hdone⟩ | ⟨line, hline, ⟨-, hdone⟩ | ⟨-, hdone⟩⟩ := interruptCheck_cases s
  · rw [hdone] at h
    exact .inl (Except.ok.inj h).symm
  · rw [hdone] at h
    exact .inr ⟨line, hline, (Except.ok.inj h).symm⟩
  · rw [hdone] at h
    cases h

theorem kept_deliver (hs : s.Sized) (line : Fin 32) :
    (s.deliver line).Sized ∧ Context.SameBanks s.ctx (s.deliver line).ctx := by
  rw [deliver_eq]
  constructor
  · rw [State.Sized, Context.size_enterException, size_noted]
    exact hs
  · dsimp only [noted]
    exact sameBanks_events hs (by decide) (by decide) _ _ _ _

theorem kept_interruptCheck (hs : s.Sized) (h : s.interruptCheck = .ok t) :
    t.Sized ∧ Context.SameBanks s.ctx t.ctx := by
  obtain rfl | ⟨line, -, rfl⟩ := interruptCheck_eq_ok h
  · exact ⟨hs, .refl _⟩
  · exact kept_deliver hs line

/-- The return from an exception sets the status register behind the slot, and then the pc. -/
theorem interpret_rte {addr raw : UInt32} {s₀ : State} (slot : runSlot (addr + 2) s₀ = .ok s) :
    interpret .rte addr raw s₀ =
      .ok ((s.modify fun c => Context.setSr c (s₀.get .ssr)).set .pc (s₀.get .spc)) := by
  unfold interpret
  dsimp only
  rw [slot]
  rfl

theorem performVia_of_isStatusOnly {op : Op} (hop : op.isStatusOnly = true) (mem : Option FastMem)
    (addr raw : UInt32) (s : State) : performVia mem op addr raw s = perform op addr raw s := by
  cases op
  case cmpEq | cmpHs | cmpGe | cmpHi | cmpGt | cmpEqImm | tst | clrt | sett | ldcSr | ldsFpscr |
    trapa | invalid => rfl
  all_goals cases hop

theorem storePc_of_isStatusOnly {op : Op} (hop : op.isStatusOnly = true)
    (hlifted : op.isLifted = true) : op.has .storePc = false := by
  cases op
  case cmpEq | cmpHs | cmpGe | cmpHi | cmpGt | cmpEqImm | tst | clrt | sett | ldcSr | ldsFpscr =>
    rfl
  case trapa | invalid => cases hlifted
  all_goals cases hop

theorem emits_statusOnly {op : Op} (hop : op.isStatusOnly = true) (hlifted : op.isLifted = true)
    (mem : Option FastMem) (addr raw : UInt32) :
    Emits guest offsets (Lift.simple mem op addr raw) f cells m fun _ _ _ m' =>
      m' = withWorld m (perform op addr raw m.world) := by
  rw [← performVia_of_isStatusOnly hop mem]
  exact emits_simple mem raw (storePc_of_isStatusOnly hop hlifted) addr

theorem kept_modify {g : Context → Context} (hs : s.Sized) (hsize : (g s.ctx).size = s.ctx.size)
    (h : Context.SameBanks s.ctx (g s.ctx)) :
    (s.modify g).Sized ∧ Context.SameBanks s.ctx (s.modify g).ctx :=
  ⟨hsize.trans hs, h⟩

theorem kept_setSr (hs : s.Sized) (v : UInt32) :
    (s.modify fun c => Context.setSr c v).Sized ∧
      Context.SameBanks s.ctx (s.modify fun c => Context.setSr c v).ctx :=
  kept_modify hs (Context.size_setSr _ v) (.setSr hs v)

theorem StatusChange.kept (h : StatusChange s t) (hs : s.Sized) :
    t.Sized ∧ Context.SameBanks s.ctx t.ctx := by
  cases h with
  | sr _ v => exact kept_setSr hs v
  | truth _ on => exact kept_modify hs (Context.size_setT _ on) (.setT hs on)
  | fpscr _ v => exact kept_modify hs (Context.size_setFpscr _ v) (.setFpscr hs v)
  | exception _ spc vector =>
    exact kept_modify hs (Context.size_enterException _ spc vector) (.enterException hs spc vector)
  | interrupt done => exact kept_interruptCheck hs done
  | interpreted hop addr raw =>
    exact ⟨Sized.perform hs _ addr raw, sameBanks_perform hop hs addr raw⟩
  | @returned addr raw s₀ _ _ slot done =>
    rw [interpret_rte slot] at done
    obtain rfl := Except.ok.inj done
    obtain ⟨hsized, hbanks⟩ := kept_setSr hs (s₀.get .ssr)
    refine ⟨hsized.set .pc _, ?_⟩
    rw [State.ctx_set]
    exact hbanks.trans (.set (by decide) _)
  | lifted hop hlifted code =>
    rw [code.eq (emits_statusOnly hop hlifted _ _ _)]
    exact ⟨Sized.perform hs _ _ _, sameBanks_perform hop hs _ _⟩
  | liftedTruth hv code =>
    rw [code.eq (hv.elim emits_storeT emits_storeT_word)]
    exact kept_modify hs (Context.size_setT _ _) (.setT hs _)
  | liftedSr hv code =>
    rw [code.eq (emits_storeSr hv)]
    exact kept_setSr hs _
  | liftedFpscr hv code =>
    rw [code.eq (emits_storeFpscr hv)]
    exact kept_modify hs (Context.size_setFpscr _ _) (.setFpscr hs _)

/-- The banks stay the same through any number of changes. -/
theorem kept_of_changes (h : Relation.ReflTransGen StatusChange s t) (hs : s.Sized) :
    t.Sized ∧ Context.SameBanks s.ctx t.ctx := by
  induction h with
  | refl => exact ⟨hs, .refl s.ctx⟩
  | tail _ change ih =>
    obtain ⟨hsized, hbanks⟩ := change.kept ih.1
    exact ⟨hsized, ih.2.trans hbanks⟩

/-! ### Exceptions -/

/-- An exception is entered; the second argument is the pc to return to. -/
inductive Enters (s : State) : UInt32 → State → Prop where
  | vectored (spc vector : UInt32) :
    Enters s spc (s.modify fun c => Context.enterException c spc vector)
  | interrupt {line : Fin 32} {t : State} (h : s.acceptedLine? = some line)
    (done : s.interruptCheck = .ok t) : Enters s (s.get .pc) t
  | trap (addr raw : UInt32) : Enters s (addr + 2) (perform .trapa addr raw s)
  | illegal (addr raw : UInt32) : Enters s addr (perform .invalid addr raw s)

variable {pc : UInt32}

theorem Enters.statusChange (h : Enters s pc t) : StatusChange s t := by
  cases h with
  | vectored _ vector => exact .exception s pc vector
  | interrupt _ done => exact .interrupt done
  | trap addr raw => exact .interpreted rfl addr raw s
  | illegal _ raw => exact .interpreted rfl pc raw s

/-- Before the entry only the words of the event are written. -/
theorem Enters.ctx_eq (h : Enters s pc t) (hs : s.Sized) :
    ∃ c vector, t.ctx = Context.enterException c pc vector ∧ c.size = 4 * Field.all.length ∧
      ∀ f ∉ Field.eventWords, Context.get c f = s.get f := by
  have hset {c : Context} {e f : Field} (he : e ∈ Field.eventWords) (x : UInt32)
      (hf : f ∉ Field.eventWords) : Context.get (Context.set c e x) f = Context.get c f :=
    Context.get_set_ne c (by rintro rfl; exact hf he) x
  have hsets {e e' : Field} (he : e ∈ Field.eventWords) (he' : e' ∈ Field.eventWords)
    (x x' : UInt32)
      {f : Field} (hf : f ∉ Field.eventWords) :
      Context.get (Context.set (Context.set s.ctx e x) e' x') f = s.get f := by
    rw [hset he' _ hf, hset he _ hf, State.get]
  cases h with
  | vectored _ vector => exact ⟨s.ctx, vector, by rw [State.modify], hs, fun _ _ => rfl⟩
  | @interrupt line _ h done =>
    obtain ⟨hnone, -⟩ | ⟨line', -, ⟨-, hdone⟩ | ⟨-, hdone⟩⟩ := interruptCheck_cases s
    · rw [h] at hnone
      cases hnone
    · rw [hdone] at done
      obtain rfl := Except.ok.inj done
      rw [deliver_eq]
      dsimp only
      exact ⟨noted s line', vectorInterrupt, rfl, (size_noted s _).trans hs,
        fun f hf => get_noted hf _⟩
    · rw [hdone] at done
      cases done
  | trap addr raw =>
    dsimp only [perform, State.modify, State.set]
    refine ⟨_, _, rfl, ?_, fun f hf => hsets (by decide) (by decide) _ _ hf⟩
    rw [Context.size_set, Context.size_set, hs]
  | illegal _ raw =>
    dsimp only [perform, State.modify, State.set]
    refine ⟨_, _, rfl, ?_, fun f hf => hset (by decide) _ hf⟩
    rw [Context.size_set, hs]

theorem runSlot_nop {addr : UInt32} (h : decode (s.fetch addr) = .nop) :
    runSlot addr s = .ok s := by
  unfold runSlot
  dsimp only
  rw [h]
  rfl

/-- What the return writes is what the entry saved. -/
theorem Enters.get_returned (h : Enters s pc t) (hs : s.Sized) {f : Field}
    (hf : f ∉ Field.entryWords ++ Field.eventWords) :
    ((t.modify fun c => Context.setSr c (t.get .ssr)).set .pc (t.get .spc)).get f = s.get f := by
  obtain ⟨c, vector, hctx, hc, hsame⟩ := h.ctx_eq hs
  obtain ⟨hentry, hevent⟩ : f ∉ Field.entryWords ∧ f ∉ Field.eventWords := by
    simpa only [List.mem_append, not_or] using hf
  have hssr : t.get .ssr = Context.get c .sr := by
    rw [State.get, hctx, Context.get_enterException_ssr hc]
  rw [State.get_set_ne _ (Field.notMem_entryWords.mp hentry).1, hssr, State.get, State.modify, hctx,
    Context.get_setSr_enterException hc hentry, hsame f hevent]

theorem Enters.spc_eq (h : Enters s pc t) (hs : s.Sized) : t.get .spc = pc := by
  obtain ⟨c, vector, hctx, hc, -⟩ := h.ctx_eq hs
  rw [State.get, hctx, Context.get_enterException_spc hc]

/-- However the status registers change, neither bank of the general registers nor of the float
registers does; and returning from an exception with an empty slot gives back the pc, the status
register and all registers. -/
theorem banks_kept (hs : s.Sized) :
    (Relation.ReflTransGen StatusChange s t → Context.SameBanks s.ctx t.ctx) ∧
    ∀ pc addr raw : UInt32, Enters s pc t → decode (t.fetch (addr + 2)) = .nop →
      ∃ u, interpret .rte addr raw t = .ok u ∧ Context.SameBanks s.ctx u.ctx ∧ u.get .pc = pc ∧
        ∀ f ∉ Field.entryWords ++ Field.eventWords, u.get f = s.get f := by
  refine ⟨fun h => (kept_of_changes h hs).2, fun pc addr raw henter hnop => ?_⟩
  have hslot : runSlot (addr + 2) t = .ok t := runSlot_nop hnop
  have hdone : interpret .rte addr raw t = .ok _ := interpret_rte hslot
  have hchanges : Relation.ReflTransGen StatusChange s _ :=
    .tail (.single henter.statusChange) (.returned hslot hdone)
  obtain ⟨ht, -⟩ := henter.statusChange.kept hs
  refine ⟨_, hdone, (kept_of_changes hchanges hs).2, ?_, fun f hf => henter.get_returned hs hf⟩
  rw [State.get_set_same (kept_setSr ht _).1, henter.spc_eq hs]

/-- Power-on state with an empty instruction at every address. -/
def poweredOn : State where
  ctx := Context.reset
  rest := { ram := { data := #[9, 0], mask := 1 } }

theorem sized_poweredOn : poweredOn.Sized := by
  simp [State.Sized, poweredOn, Context.reset]

/-- The lower bank is active and the banks hold different words. -/
def lowBank : State := ((poweredOn.set .sr srMd).set (.r 0) 5).set (.ralt 0) 7

theorem sized_lowBank : lowBank.Sized := ((sized_poweredOn.set _ _).set _ _).set _ _

/-- A trap makes the other bank the active one, and the return from it exchanges the banks again. -/
theorem banks_kept_trapped : lowBank.Sized ∧ ∃ t, Relation.ReflTransGen StatusChange lowBank t ∧
    lowBank.get (.r 0) = 5 ∧ t.get (.r 0) = 7 ∧ t.get (.ralt 0) = 5 ∧
    Context.SameBanks lowBank.ctx t.ctx ∧ Enters lowBank 0x1002 t ∧ decode (t.fetch 0x202) = .nop ∧
    ∃ u, interpret .rte 0x200 0x2b t = .ok u ∧ Context.SameBanks lowBank.ctx u.ctx ∧
      u.get .pc = 0x1002 ∧ u.get .sr = srMd ∧ u.get (.r 0) = 5 ∧ u.get (.ralt 0) = 7 := by
  have hs := sized_lowBank
  have henter : Enters lowBank 0x1002 (perform .trapa 0x1000 0xc300 lowBank) :=
    .trap 0x1000 0xc300
  have hchange := Relation.ReflTransGen.single henter.statusChange
  have hnop : decode (State.fetch (perform .trapa 0x1000 0xc300 lowBank) (0x200 + 2)) = .nop := by
    decide +kernel
  have hwords : lowBank.get .sr = srMd ∧ lowBank.get (.r 0) = 5 ∧ lowBank.get (.ralt 0) = 7 := by
    decide +kernel
  have hexchanged : State.get (perform .trapa 0x1000 0xc300 lowBank) (.r 0) = 7 ∧
      State.get (perform .trapa 0x1000 0xc300 lowBank) (.ralt 0) = 5 := by
    decide +kernel
  obtain ⟨u, hdone, hbanks, hpc, hget⟩ := (banks_kept hs).2 _ _ 0x2b henter hnop
  refine ⟨hs, _, hchange, hwords.2.1, hexchanged.1, hexchanged.2, (banks_kept hs).1 hchange, henter,
    hnop, u, hdone, hbanks, hpc, ?_, ?_, ?_⟩
  · exact (hget .sr (by decide)).trans hwords.1
  · exact (hget (.r 0) (by decide)).trans hwords.2.1
  · exact (hget (.ralt 0) (by decide)).trans hwords.2.2

end Recompiler.Sh4
