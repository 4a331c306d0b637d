import Recompiler.Proofs.Allocation.Correctness
import Recompiler.Proofs.IR.Typing

/-!
Allocation of fragments with more than one block. A block is allocated from the state at the end of
the block it is entered from, also where control leaves that one before its end.
-/
namespace Recompiler.Pass.Allocation

open IR IR.Fragment Interp Machine Meaning

/-! ### A branch that is followed by spills -/

/-- A value is loaded that only the second block uses. Behind the branch to that block three other
values are needed at once. -/
def early : Fragment where
  values := #[
    { ty := .i32, origin := .constant (.i32 0) }, { ty := .i32, origin := .result ⟨0⟩ },
    { ty := .i32, origin := .constant (.i32 4) }, { ty := .i8, origin := .result ⟨1⟩ },
    { ty := .blk, origin := .constant (.blk ⟨1⟩) },
    { ty := .i32, origin := .constant (.i32 8) }, { ty := .i32, origin := .result ⟨3⟩ },
    { ty := .i32, origin := .result ⟨4⟩ }, { ty := .i32, origin := .result ⟨5⟩ },
    { ty := .i32, origin := .result ⟨6⟩ }, { ty := .i32, origin := .constant (.i32 0x100) },
    { ty := .i32, origin := .constant (.i32 12) }]
  instrs := #[
    { op := .loadContext, args := slots (some ⟨0⟩), result := some ⟨1⟩, block := ⟨0⟩,
      next := some ⟨1⟩ },
    { op := .loadContext, args := slots (some ⟨2⟩), result := some ⟨3⟩, block := ⟨0⟩,
      prev := some ⟨0⟩, next := some ⟨2⟩ },
    { op := .branchTrue, args := slots (some ⟨3⟩) (some ⟨4⟩), block := ⟨0⟩, prev := some ⟨1⟩,
      next := some ⟨3⟩ },
    { op := .loadContext, args := slots (some ⟨5⟩), result := some ⟨6⟩, block := ⟨0⟩,
      prev := some ⟨2⟩, next := some ⟨4⟩ },
    { op := .loadContext, args := slots (some ⟨5⟩), result := some ⟨7⟩, block := ⟨0⟩,
      prev := some ⟨3⟩, next := some ⟨5⟩ },
    { op := .loadContext, args := slots (some ⟨5⟩), result := some ⟨8⟩, block := ⟨0⟩,
      prev := some ⟨4⟩, next := some ⟨6⟩ },
    { op := .select, args := slots (some ⟨6⟩) (some ⟨7⟩) (some ⟨8⟩), result := some ⟨9⟩,
      block := ⟨0⟩, prev := some ⟨5⟩, next := some ⟨7⟩ },
    { op := .branch, args := slots (some ⟨10⟩), block := ⟨0⟩, prev := some ⟨6⟩ },
    { op := .storeContext, args := slots (some ⟨11⟩) (some ⟨1⟩), block := ⟨1⟩ }]
  blocks := #[{ head := some ⟨0⟩, tail := some ⟨7⟩, edges := [⟨1⟩] },
    { head := some ⟨8⟩, tail := some ⟨8⟩ }]
  order := [⟨0⟩, ⟨1⟩]

/-- Three registers for words and bytes. -/
def three : Array Register := #[⟨"a", [.i8, .i32]⟩, ⟨"b", [.i8, .i32]⟩, ⟨"c", [.i8, .i32]⟩]

theorem early_code : early.blockInstrs ⟨0⟩ = [⟨0⟩, ⟨1⟩, ⟨2⟩, ⟨3⟩, ⟨4⟩, ⟨5⟩, ⟨6⟩, ⟨7⟩] ∧
    early.blockInstrs ⟨1⟩ = [⟨8⟩] := by decide

def quiet : Guest Unit where
  read _ _ w := (0, w)
  write _ _ _ w := w
  fallback _ _ _ w := .ok w
  call _ _ _ w := w
  readHost _ _ _ := 0
  writeHost _ _ _ w := w

def before : World Unit := ⟨#[0x55, 0, 0, 0, 1, 0, 0, 0, 0, 0, 0, 0, 0, 0, 0, 0], ()⟩

theorem early_wellFormed : WellFormed early := by decide

/-- Every path begins with the first instruction. -/
theorem early_paths {seen : List InstrId} {p : Point} (h : Path early seen p) :
    p = ⟨[], early.order⟩ ∨ p = ⟨early.blockInstrs ⟨0⟩, [⟨1⟩]⟩ ∨ ⟨0⟩ ∈ seen := by
  rw [early_code.1]
  induction h with
  | start => exact .inl rfl
  | enter h ih =>
    rcases ih with e | e | hm
    · cases e
      exact .inr (.inl (by rw [early_code.1]))
    · cases e
    · exact .inr (.inr hm)
  | pass h hop ih =>
    rcases ih with e | e | hm
    · cases e
    · cases e
      exact .inr (.inr List.mem_cons_self)
    · exact .inr (.inr (List.mem_cons_of_mem _ hm))
  | jump h htarget hv ih =>
    rcases ih with e | e | hm
    · cases e
    · cases e
      exact .inr (.inr List.mem_cons_self)
    · exact .inr (.inr (List.mem_cons_of_mem _ hm))

theorem early_ordered : Ordered early where
  reachable := by
    have hstart : Path early [] (startOf early ⟨0⟩) := Path.start.enter
    have hentry : Path early [] ⟨[⟨0⟩, ⟨1⟩, ⟨2⟩, ⟨3⟩, ⟨4⟩, ⟨5⟩, ⟨6⟩, ⟨7⟩], [⟨1⟩]⟩ := hstart
    have htaken : Path early [⟨2⟩, ⟨1⟩, ⟨0⟩] (startOf early ⟨1⟩) :=
      ((hentry.pass (by decide)).pass (by decide)).jump (v := ⟨4⟩) rfl rfl
    intro b hb
    simp only [early, List.mem_cons, List.not_mem_nil, or_false] at hb
    rcases hb with rfl | rfl
    · exact ⟨_, hstart⟩
    · exact ⟨_, htaken⟩
  defined := by
    intro b hb
    simp only [early, List.mem_cons, List.not_mem_nil, or_false] at hb
    rcases hb with rfl | rfl
    · -- in the first block, an earlier instruction of it
      have hdef : ∀ l₁ i l₂, early.blockInstrs ⟨0⟩ = l₁ ++ i :: l₂ →
        ∀ n, ∀ v ∈ (early.instr i).arg n,
          early.isConstant v = false → ∃ j ∈ l₁, (early.instr j).result = some v := by decide
      intro l₁ i l₂ e n v hv hc
      obtain ⟨j, hj, hres⟩ := hdef l₁ i l₂ e n v hv hc
      exact ⟨j, hres, fun _ => hj, fun _ _ => .inl hj⟩
    · have hdef : ∀ n, ∀ v ∈ (early.instr ⟨8⟩).arg n, early.isConstant v = false →
          (early.instr ⟨0⟩).result = some v := by decide
      intro l₁ i l₂ e n v hv hc
      rw [early_code.2] at e
      obtain ⟨rfl, rfl, rfl⟩ : l₁ = [] ∧ i = ⟨8⟩ ∧ l₂ = [] := by
        cases l₁ with
        | nil =>
          cases e
          exact ⟨rfl, rfl, rfl⟩
        | cons j l₁ => simp at e
      refine ⟨⟨0⟩, hdef n v hv hc, fun h => ?_, fun seen hp => .inr ?_⟩
      · rw [early_code.2] at h
        simp at h
      · rcases early_paths hp with e | e | hm
        · cases e
        · cases e
        · exact hm

theorem early_typed : Typed early := by decide

/-- The value comes to the second block. -/
theorem early_evaluates : Evaluates quiet default early before
    (.ok (.dynamic, ⟨#[0x55, 0, 0, 0, 1, 0, 0, 0, 0, 0, 0, 0, 0x55, 0, 0, 0], ()⟩)) :=
  ⟨5, .go rfl (.go rfl (.go rfl (.go rfl (.go rfl (.stop rfl)))))⟩

set_option maxRecDepth 10000 in
theorem early_executed :
    (((run early three).toOption.bind fun out => (Code.ofFragment 0 out.fragment).toOption.bind
      fun code => (code.execute quiet default three.size 20 before).toOption).map fun r =>
        (r.1, r.2.ctx)) = some (.dynamic, before.ctx) := by
  cbv

/-- Allocation loses a value where a branch is followed by spills. The blocks of `early` form a
tree, its arguments are defined on every path and there are three registers for each type, but the
slot that the second block loads from is only written behind the branch: the value that comes to the
second block is stored as zero. -/
theorem run_early : WellFormed early ∧ Ordered early ∧ Typed early ∧
    ((early.block ⟨0⟩).edges = [⟨1⟩] ∧ (early.block ⟨1⟩).edges = []) ∧
    (∀ i ∈ early.allInstrs, ∀ n, ∀ v ∈ (early.instr i).arg n, early.isConstant v = false →
      3 ≤ three.countP (·.holds (early.ty v))) ∧
    ∃ out code, run early three = .ok out ∧ Code.ofFragment 0 out.fragment = .ok code ∧
      code.execute quiet default three.size 20 before = .ok (.dynamic, before) ∧
      ¬ Evaluates quiet default early before (.ok (.dynamic, before)) := by
  refine ⟨early_wellFormed, early_ordered, early_typed, ⟨rfl, rfl⟩, by decide, ?_⟩
  have hrun := early_executed
  cases hout : run early three with
  | error e =>
    rw [hout] at hrun
    cases hrun
  | ok out =>
    rw [hout] at hrun
    dsimp only [Except.toOption, Option.bind_some] at hrun
    cases hcode : Code.ofFragment 0 out.fragment with
    | error e =>
      rw [hcode] at hrun
      cases hrun
    | ok code =>
      rw [hcode] at hrun
      dsimp only [Except.toOption, Option.bind_some] at hrun
      refine ⟨out, code, rfl, hcode, ?_, fun h => ?_⟩
      · cases hexec : code.execute quiet default three.size 20 before with
        | error e =>
          rw [hexec] at hrun
          cases hrun
        | ok r =>
          obtain ⟨exit, ctx, rest⟩ := r
          rw [hexec] at hrun
          cases hrun
          rfl
      · have hctx := Ends.unique h early_evaluates
        simp [before] at hctx

end Recompiler.Pass.Allocation
