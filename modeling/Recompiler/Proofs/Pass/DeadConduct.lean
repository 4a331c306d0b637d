import Recompiler.Proofs.Pass.ContextReuse
import Recompiler.Proofs.Pass.DeadRemoval

/-!
Removal of dead code and what a run shows of it. Dead instructions have no effect on memory, with
one exception: a load from guest memory is a call of the guest, and it counts as dead when its
result is unused. Unless such a load is taken out, the calls and the end of a run stay the same.
-/
namespace Recompiler.Pass.DeadCode

open IR Fragment Interp Meaning Machine
open ContextReuse (room)

variable {σ : Type} {g : Guest σ} {o : Offsets} {f f' : Fragment} {gone : List InstrId}
  {i : InstrId} {w : World σ} {s s' : Cells} {m m' : Memory σ}

/-- An operation without side effects leaves memory as it is, if reads of guest memory do. -/
theorem perform_silent {op : Opcode} (hsilent : op.hasSideEffects = false)
    (hquiet : op = .loadGuest → ∀ w a t, (g.read w a t).2 = t) {ty aty bty : Ty} {a b c : UInt64}
    {x : Option UInt64} (h : perform g o op ty aty bty a b c m = .ok (x, m')) : m' = m := by
  cases op with
  | sourceInfo | fallback | call | storeHost | storeGuest | storeContext | storeLocal | branch
  | branchFalse | branchTrue => cases hsilent
  | loadHost =>
    cases h
    rfl
  | loadGuest =>
    have hworld := hquiet rfl (.ofTy ty) a.toUInt32 m.world
    simp only [perform] at h
    cases h
    rw [hworld]
  | loadContext | loadLocal =>
    obtain ⟨_, -, h⟩ := bind_eq_ok h
    cases h
    rfl
  | _ =>
    simp only [perform] at h
    obtain ⟨_, -, h⟩ := bind_eq_ok h
    cases h
    rfl

/-! ### Side by side -/

/-- The states in which the two fragments are at the same place. The cells of results that are gone
do not matter. -/
structure Abreast (g : Guest σ) (o : Offsets) (f : Fragment) (gone : List InstrId) (w : World σ)
    (c c' : Config Cells σ) : Prop where
  run : ∃ x, GoesIn (step f cells g o) x (start f (fun _ => 0) w) c
  code_eq : c'.point.code = c.point.code.filter (· ∉ gone)
  blocks_eq : c'.point.blocks = c.point.blocks
  store_eq : ∀ v, (∀ k ∈ gone, (f.instr k).result ≠ some v) → c'.store v = c.store v
  memory_eq : c'.memory = c.memory

theorem Abreast.reached {c c' : Config Cells σ} (h : Abreast g o f gone w c c') :
    Reached g o w.ctx.size f c := by
  obtain ⟨x, hgo⟩ := h.run
  exact (Reached.start rfl).goesIn hgo

theorem abreast_start (h : Drops f f' gone) :
    Abreast g o f gone w (start f (fun _ => 0) w) (start f' (fun _ => 0) w) where
  run := ⟨0, .refl _⟩
  code_eq := rfl
  blocks_eq := h.order_eq
  store_eq _ _ := rfl
  memory_eq := by simp only [start, h.localsSize_eq]

section
variable (h : Drops f f' gone) (hf : WellFormed f)
  (hquiet : ∀ i ∈ f.allInstrs, i ∈ gone → (f.instr i).op = .loadGuest →
    ∀ w a t, (g.read w a t).2 = t)
  (hsound : ∀ e, ¬Evaluates g o f w (.error e)) {rest : List InstrId} {blocks : List BlockId}
  {c' : Config Cells σ}
include h hf

include hquiet hsound in
/-- An instruction that is gone is passed by the first fragment alone. -/
theorem Abreast.skip (hp : Abreast g o f gone w ⟨⟨i :: rest, blocks⟩, s, m⟩ c')
    (hig : i ∈ gone) : ∃ s₁, step f cells g o ⟨⟨i :: rest, blocks⟩, s, m⟩ =
      .go ⟨⟨rest, blocks⟩, s₁, m⟩ ∧ Abreast g o f gone w ⟨⟨rest, blocks⟩, s₁, m⟩ c' := by
  have hi := hp.reached.mem_allInstrs hf
  have hstep := step_instr f cells g o i rest blocks s m
  rw [runInstr_eq, h.plain i hig] at hstep
  simp only [Bool.false_eq_true, if_false] at hstep
  obtain ⟨x, hrun⟩ := hp.run
  cases hperf : performed g o f i s m with
  | error e =>
    rw [hperf] at hstep
    exact absurd (hrun.ends ⟨0, .stop hstep⟩) (hsound e)
  | ok r =>
    obtain ⟨y, m₁⟩ := r
    obtain rfl : m₁ = m := perform_silent (h.silent i hig) (hquiet i hi hig) hperf
    rw [hperf] at hstep
    refine ⟨_, hstep, ⟨x + 1, hrun.trans (.single hstep)⟩, ?_, hp.blocks_eq, ?_, hp.memory_eq⟩
    · rw [hp.code_eq, List.filter_cons_of_neg (by simpa using hig)]
    · intro v hv
      rw [hp.store_eq v hv]
      exact (keep_of_ne (hv i hig) y).symm

/-- An instruction that stays is run by both fragments. -/
theorem Abreast.both
    (hp : Abreast g o f gone w ⟨⟨i :: rest, blocks⟩, s, m⟩
      ⟨⟨i :: rest.filter (· ∉ gone), blocks⟩, s', m⟩) (hig : i ∉ gone) :
    Pace (step f cells g o) (step f' cells g o) ahead (Abreast g o f gone w) (fun r r' => r' = r)
      ⟨⟨i :: rest, blocks⟩, s, m⟩ ⟨⟨i :: rest.filter (· ∉ gone), blocks⟩, s', m⟩ := by
  have hi := hp.reached.mem_allInstrs hf
  -- Its arguments are no results that are gone.
  have hargs : ∀ n v, (f.instr i).arg n = some v → s' v = s v := fun n v hv =>
    hp.store_eq v fun k hk hres => h.unused k hk v hres i hi hig n hv
  obtain ⟨x, hrun⟩ := hp.run
  have hstep := step_instr f cells g o i rest blocks s m
  have hstep' := step_instr f' cells g o i (rest.filter (· ∉ gone)) blocks s' m
  rw [runInstr_eq] at hstep hstep'
  rw [h.op_eq i hi, h.argBits_eq hi hig hargs, h.target?_eq hi hig, h.performed_eq hi hig hargs]
    at hstep'
  cases hop : (f.instr i).op.isBranch with
  | true =>
    simp only [hop, if_true] at hstep hstep'
    cases htaken : isTaken (f.instr i).op (argBits f cells s (f.instr i) 0) with
    | true =>
      simp only [htaken, if_true] at hstep hstep'
      have htarget : ∀ v, Exit.target? (f.instr i) = some v → s' v = s v := by
        intro v hv
        obtain ⟨n, hn⟩ := target?_mem hv
        exact hargs n v hn
      rcases h.jump_cases (o := o) (m := m) hf htarget with ⟨r, hstop, hstop'⟩ | ⟨b, -, hgo, hgo'⟩
      · exact .stop (hstep.trans hstop) (hstep'.trans hstop') rfl
      · have hnext := hstep.trans hgo
        exact .both hnext (hstep'.trans hgo')
          ⟨⟨x + 1, hrun.trans (.single hnext)⟩, rfl, rfl, hp.store_eq, rfl⟩
    | false =>
      simp only [htaken, Bool.false_eq_true, if_false] at hstep hstep'
      exact .both hstep hstep' ⟨⟨x + 1, hrun.trans (.single hstep)⟩, rfl, rfl, hp.store_eq, rfl⟩
  | false =>
    simp only [hop, Bool.false_eq_true, if_false] at hstep hstep'
    cases hperf : performed g o f i s m with
    | error e =>
      rw [hperf] at hstep hstep'
      exact .stop hstep hstep' rfl
    | ok r =>
      obtain ⟨y, m₁⟩ := r
      rw [hperf] at hstep hstep'
      refine .both hstep hstep' ⟨⟨x + 1, hrun.trans (.single hstep)⟩, rfl, rfl, ?_, rfl⟩
      intro v hv
      change keep f' cells (f'.instr i) s' y v = keep f cells (f.instr i) s y v
      rw [h.keep_eq hi]
      by_cases hres : (f.instr i).result = some v
      · cases y with
        | none =>
          rw [keep_none, keep_none]
          exact hp.store_eq v hv
        | some y =>
          rw [keep_eq hres, keep_eq hres]
          simp only [if_true]
      · rw [keep_of_ne hres, keep_of_ne hres]
        exact hp.store_eq v hv

include hquiet hsound

theorem Abreast.pace (c c' : Config Cells σ) (hp : Abreast g o f gone w c c') :
    Pace (step f cells g o) (step f' cells g o) ahead (Abreast g o f gone w) (fun r r' => r' = r)
      c c' := by
  obtain ⟨⟨code, blocks⟩, s, m⟩ := c
  cases code with
  | nil =>
    obtain ⟨⟨code', blocks'⟩, s', m'⟩ := c'
    obtain rfl : code' = [] := hp.code_eq
    obtain rfl : blocks' = blocks := hp.blocks_eq
    obtain rfl : m' = m := hp.memory_eq
    obtain ⟨seen, hpath⟩ := hp.reached.path
    obtain ⟨x, hrun⟩ := hp.run
    cases blocks' with
    | nil => exact .stop rfl rfl rfl
    | cons b blocks =>
      have hb : b ∈ f.order := hpath.blocks_subset hf (by simp)
      have hstep := step_enter f cells g o b blocks s m'
      exact .both hstep (step_enter f' cells g o b blocks s' m')
        ⟨⟨x + 1, hrun.trans (.single hstep)⟩, h.blockInstrs_eq hb, rfl, hp.store_eq, rfl⟩
  | cons i rest =>
    by_cases hig : i ∈ gone
    · obtain ⟨s₁, hstep, hp₁⟩ := hp.skip h hf hquiet hsound hig
      exact .alone hstep (Nat.lt_succ_self _) hp₁
    · obtain ⟨⟨code', blocks'⟩, s', m'⟩ := c'
      obtain rfl : code' = i :: rest.filter (· ∉ gone) := by
        rw [← List.filter_cons_of_pos (by simpa using hig)]
        exact hp.code_eq
      obtain rfl : blocks' = blocks := hp.blocks_eq
      obtain rfl : m' = m := hp.memory_eq
      exact hp.both h hf hig

/-- Without dead instructions a fragment ends alike and passes the same worlds. -/
theorem drops_meaning : (∀ r, Evaluates g o f w r ↔ Evaluates g o f' w r) ∧
    ∀ w', Passes g o f w w' ↔ Passes g o f' w w' := by
  have hpace := Abreast.pace h hf hquiet hsound
  have hstart : Abreast g o f gone w (start f (fun _ => 0) w) (start f' (fun _ => 0) w) :=
    abreast_start h
  obtain ⟨hforth, hback⟩ := simulation (fun _ _ hp => advance_of_pace hpace hp) hstart
  constructor
  · intro r
    constructor
    · intro hr
      obtain ⟨r', hr', rfl⟩ := hforth r hr
      exact hr'
    · intro hr
      obtain ⟨r', hr', rfl⟩ := hback r hr
      exact hr'
  · intro w'
    constructor
    · intro ⟨x, c, hgo, hc⟩
      obtain ⟨y, c', hgo', hp⟩ := goesIn_left hpace hstart hgo
      exact ⟨y, c', hgo', (congrArg Memory.world hp.memory_eq).trans hc⟩
    · intro ⟨x, c', hgo', hc⟩
      obtain ⟨y, c, hgo, hp⟩ := goesIn_right hpace hstart hgo'
      exact ⟨y, c, hgo, (congrArg Memory.world hp.memory_eq).symm.trans hc⟩

end

/-- Where a run comes to no fault, what is left after the pass makes the same calls on the same
contexts and ends alike, if no load from guest memory was taken out. If the guest's reads change
nothing, it ends alike in any case. -/
theorem run_keeps_calls (hf : WellFormed f) (hu : f.UseLists) :
    ∃ f' n, run f = .ok (f', n) ∧
      ∀ {σ : Type} (g : Guest σ) (o : Offsets) (w : World σ),
        (∀ e, ¬Evaluates g o f w (.error e)) →
        ((∀ i ∈ f.allInstrs, (f.instr i).op = .loadGuest → i ∈ f'.allInstrs) →
          (∀ r, Evaluates g o f w r ↔ Evaluates g o f' w r) ∧
            ∀ calls, Makes g o f w calls ↔ Makes g o f' w calls) ∧
        ((∀ w a t, (g.read w a t).2 = t) → ∀ r, Evaluates g o f w r ↔ Evaluates g o f' w r) := by
  obtain ⟨f', gone, hrun, h⟩ := run_drops hf hu
  refine ⟨f', gone.length, hrun, ?_⟩
  intro σ g o w hsound
  constructor
  · intro hloads
    have hquiet : ∀ {τ : Type} {g : Guest τ}, ∀ i ∈ f.allInstrs, i ∈ gone →
        (f.instr i).op = .loadGuest → ∀ w a t, (g.read w a t).2 = t := by
      intro τ g i hi hig hop
      exact absurd hig (h.mem_allInstrs.mp (hloads i hi hop)).2
    have hsound' : ∀ e, ¬Evaluates g.recording o f w.fresh (.error e) := fun e he =>
      hsound e (evaluates_recording he)
    refine ⟨(drops_meaning h hf hquiet hsound).1, ?_⟩
    intro calls
    obtain ⟨-, hworlds⟩ := drops_meaning h hf hquiet hsound'
    exact exists_congr fun w' => and_congr_left fun _ => hworlds w'
  · intro hreads
    exact (drops_meaning h hf (fun _ _ _ _ => hreads) hsound).1

/-- The pass over the waste takes both operations out, and what is left conducts itself alike. -/
theorem run_keeps_calls_waste : (WellFormed waste ∧ waste.UseLists) ∧
    (∀ e, ¬Evaluates mute default waste room (.error e)) ∧
    ∃ f' n, run waste = .ok (f', n) ∧
      (∀ r, Evaluates mute default waste room r ↔ Evaluates mute default f' room r) ∧
      ∀ calls, Makes mute default waste room calls ↔ Makes mute default f' room calls := by
  have hends : ∃ w', Evaluates mute default waste room (.ok (.dynamic, w')) :=
    ⟨_, 5, .go rfl (.go rfl (.go rfl (.go rfl (.go rfl (.stop rfl)))))⟩
  have hsound : ∀ e, ¬Evaluates mute default waste room (.error e) := by
    intro e he
    obtain ⟨w', hw'⟩ := hends
    cases Ends.unique he hw'
  have hloads : ∀ i ∈ waste.allInstrs, (waste.instr i).op ≠ .loadGuest := by decide
  obtain ⟨f', n, hrun, hsame⟩ := run_keeps_calls waste_wellFormed waste_linked.uses
  obtain ⟨hresults, hcalls⟩ := (hsame mute default room hsound).1 fun i hi hop =>
    absurd hop (hloads i hi)
  exact ⟨⟨waste_wellFormed, waste_linked.uses⟩, hsound, f', n, hrun, hresults, hcalls⟩

/-! ### A load that the guest takes note of -/

/-- A load whose result is not used. -/
def peek : Fragment where
  values := #[{ ty := .i32, origin := .constant (.i32 16), uses := [⟨⟨0⟩, 0⟩] },
    { ty := .i32, origin := .result ⟨0⟩ },
    { ty := .i32, origin := .constant (.i32 0x100), uses := [⟨⟨1⟩, 0⟩] }]
  instrs := #[
    { op := .loadGuest, args := slots (some ⟨0⟩), result := some ⟨1⟩, block := ⟨0⟩,
      next := some ⟨1⟩ },
    { op := .branch, args := slots (some ⟨2⟩), block := ⟨0⟩, prev := some ⟨0⟩ }]
  blocks := #[{ head := some ⟨0⟩, tail := some ⟨1⟩ }]
  order := [⟨0⟩]

/-- Only the branch is left. -/
def peekGone : Fragment where
  values := #[{ ty := .i32, origin := .constant (.i32 16) },
    { ty := .i32, origin := .result ⟨0⟩ },
    { ty := .i32, origin := .constant (.i32 0x100), uses := [⟨⟨1⟩, 0⟩] }]
  instrs := #[
    { op := .loadGuest, args := slots none, result := some ⟨1⟩, block := ⟨0⟩, removed := true },
    { op := .branch, args := slots (some ⟨2⟩), block := ⟨0⟩ }]
  blocks := #[{ head := some ⟨1⟩, tail := some ⟨1⟩ }]
  order := [⟨0⟩]

/-- A guest with a device that counts its reads in the context. -/
def counting : Guest Unit :=
  { mute with read := fun _ _ w => (0, w.set32 8 (w.get32 8 + 1)) }

/-- After the pass the read is not counted: the run before and the run after end in different
contexts. -/
theorem dead_load_shows : ¬∀ f : Fragment, WellFormed f → f.UseLists → Ordered f → ∀ f' n,
    run f = .ok (f', n) → ∀ (g : Guest Unit) (o : Offsets) (w : World Unit),
      (∀ e, ¬Evaluates g o f w (.error e)) → ∀ r, Evaluates g o f w r → Evaluates g o f' w r := by
  intro h
  have hwell : WellFormed peek := by decide
  have hordered : Ordered peek := ordered_of_single rfl (by decide)
  have hrun : run peek = .ok (peekGone, 1) := by rfl
  have hbefore : ∃ w', Evaluates counting default peek room (.ok (.static 0, w')) ∧
      w'.get32 8 = 1 := ⟨_, ⟨2, .go rfl (.go rfl (.stop rfl))⟩, by decide⟩
  have hafter : ∃ w', Evaluates counting default peekGone room (.ok (.static 0, w')) ∧
      w'.get32 8 = 0 := ⟨_, ⟨1, .go rfl (.stop rfl)⟩, by decide⟩
  obtain ⟨w₁, hw₁, hone⟩ := hbefore
  obtain ⟨w₂, hw₂, hzero⟩ := hafter
  have hsound : ∀ e, ¬Evaluates counting default peek room (.error e) := by
    intro e he
    cases Ends.unique he hw₁
  have hsame := h peek hwell (useLists_of_numbers (by decide) (by decide)) hordered peekGone 1 hrun
    counting default room hsound _ hw₁
  cases Ends.unique hsame hw₂
  rw [hone] at hzero
  cases hzero

end Recompiler.Pass.DeadCode
