import Recompiler.Proofs.Pass.Simplifying

/-!
Passes that replace results keep the meaning of a fragment. The exit is the same up to one change:
a computed target that turns out constant makes a dynamic exit static.
-/
namespace Recompiler.Pass

open IR Interp Meaning Machine

/-- Constant propagation and simplification end for every fragment that was built by the rules and
defines its results first, and keep its meaning; a rule for constants predicts what its operation
computes, and the constant it makes holds what the result type keeps of that. -/
theorem passes_keep_meaning {f : Fragment} {run : Fragment → Except Fault (Fragment × Nat)}
    (hrun : run = Fold.run ∨ run = Simplify.run) (hf : WellFormed f) (hu : f.UseLists)
    (ho : Ordered f) (ht : Typed f) :
    (∃ f' n, run f = .ok (f', n) ∧
      ∀ {σ : Type} (g : Guest σ) (o : Offsets), SameMeaning g o f f') ∧
    ∀ rule ∈ Fold.rules, Fold.Exact rule ∧ ∀ o b, rule.apply o = .bits b →
      ∃ c, Constant.ofBits? rule.result b = some c ∧ c.bits? = some (fit rule.result b) := by
  constructor
  · rcases hrun with rfl | rfl
    · obtain ⟨f', n, done, hrun, hstage⟩ := Fold.run_stage hf hu ho ht
      exact ⟨f', n, hrun, fun g o => hstage.sameMeaning hf ho ht g o⟩
    · obtain ⟨f', n, done, hrun, hstage⟩ := Simplify.run_stage hf hu ho ht
      exact ⟨f', n, hrun, fun g o => hstage.sameMeaning hf ho ht g o⟩
  · intro rule hrule
    obtain ⟨hexact, hform⟩ := Fold.rules_form hrule
    refine ⟨hexact, fun o b hb => ?_⟩
    rcases hform with ⟨-, -, -, -, happly⟩ | ⟨-, hint, -, -, -⟩
    · rw [happly] at hb
      cases hb
    · obtain ⟨c, hc, -, hbits⟩ := bits_ofBits hint b
      exact ⟨c, hc, hbits⟩

/-- A loop that lasts while a word of the context is not zero, and a computed address behind it. -/
def spin : Fragment where
  values := #[{ ty := .i32, origin := .constant (.i32 16), uses := [⟨⟨0⟩, 0⟩] },
    { ty := .i32, origin := .constant (.i32 0x100), uses := [⟨⟨1⟩, 0⟩] },
    { ty := .i32, origin := .constant (.i32 0x20), uses := [⟨⟨1⟩, 1⟩] },
    { ty := .i32, origin := .constant (.i32 0), uses := [⟨⟨2⟩, 1⟩] },
    { ty := .blk, origin := .constant (.blk ⟨1⟩), uses := [⟨⟨3⟩, 1⟩] },
    { ty := .i32, origin := .result ⟨0⟩, uses := [⟨⟨2⟩, 0⟩] },
    { ty := .i32, origin := .result ⟨1⟩, uses := [⟨⟨4⟩, 0⟩] },
    { ty := .i32, origin := .result ⟨2⟩, uses := [⟨⟨3⟩, 0⟩] }]
  instrs := #[
    { op := .loadContext, args := slots (some ⟨0⟩), result := some ⟨5⟩, block := ⟨0⟩,
      next := some ⟨1⟩ },
    { op := .add, args := slots (some ⟨1⟩) (some ⟨2⟩), result := some ⟨6⟩, block := ⟨0⟩,
      prev := some ⟨0⟩ },
    { op := .sub, args := slots (some ⟨5⟩) (some ⟨3⟩), result := some ⟨7⟩, block := ⟨1⟩,
      next := some ⟨3⟩ },
    { op := .branchTrue, args := slots (some ⟨7⟩) (some ⟨4⟩), block := ⟨1⟩, prev := some ⟨2⟩,
      next := some ⟨4⟩ },
    { op := .branch, args := slots (some ⟨6⟩), block := ⟨1⟩, prev := some ⟨3⟩ }]
  blocks := #[{ head := some ⟨0⟩, tail := some ⟨1⟩ },
    { head := some ⟨2⟩, tail := some ⟨4⟩, edges := [⟨1⟩] }]
  order := [⟨0⟩, ⟨1⟩]

theorem spin_code : spin.blockInstrs ⟨0⟩ = [⟨0⟩, ⟨1⟩] ∧ spin.blockInstrs ⟨1⟩ = [⟨2⟩, ⟨3⟩, ⟨4⟩] := by
  decide

theorem spin_wellFormed : WellFormed spin := by decide

theorem spin_uses : spin.UseLists := Fragment.useLists_of_numbers (by decide) (by decide)

/-- Behind the first block, a path has passed all of it. -/
theorem spin_paths {seen : List InstrId} {p : Point} (h : Path spin seen p) :
    p = ⟨[], spin.order⟩ ∨
      (p.blocks = [⟨1⟩] ∧ p.code ⊆ spin.blockInstrs ⟨0⟩ ∧
        ∀ i ∈ spin.blockInstrs ⟨0⟩, i ∈ p.code ∨ i ∈ seen) ∨
      (p.blocks = [] ∧ ∀ i ∈ spin.blockInstrs ⟨0⟩, i ∈ seen) := by
  induction h with
  | start => exact .inl rfl
  | enter h ih =>
    rcases ih with e | ⟨e, -, ih⟩ | ⟨e, -⟩
    · cases e
      exact .inr (.inl ⟨rfl, List.Subset.refl _, fun i hi => .inl hi⟩)
    · cases e
      exact .inr (.inr ⟨rfl, fun i hi => (ih i hi).resolve_left (by simp)⟩)
    · cases e
  | pass h hop ih =>
    rcases ih with e | ⟨e, hsub, ih⟩ | ⟨e, ih⟩
    · cases e
    · refine .inr (.inl ⟨e, fun i hi => hsub (List.mem_cons_of_mem _ hi), fun i hi => ?_⟩)
      rcases ih i hi with h | h
      · rcases List.mem_cons.mp h with rfl | h
        · exact .inr (by simp)
        · exact .inl h
      · exact .inr (List.mem_cons_of_mem _ h)
    · exact .inr (.inr ⟨e, fun i hi => List.mem_cons_of_mem _ (ih i hi)⟩)
  | @jump seen code i blocks v b h htarget hv ih =>
    have hb : b = ⟨1⟩ := by
      have hall : ∀ x ∈ spin.values, ∀ b, x.origin = .constant (.blk b) → b = ⟨1⟩ := by
        simp [spin]
      rcases spin.value_mem v with hm | hm
      · exact hall _ hm b hv
      · rw [hm] at hv
        cases hv
    subst hb
    rcases ih with e | ⟨-, hsub, -⟩ | ⟨e, ih⟩
    · cases e
    · -- the first block does not branch
      have hnone : ∀ i ∈ spin.blockInstrs ⟨0⟩, Exit.target? (spin.instr i) = none := by decide
      rw [hnone i (hsub (by simp))] at htarget
      cases htarget
    · exact .inr (.inr ⟨rfl, fun i hi => List.mem_cons_of_mem _ (ih i hi)⟩)

theorem spin_ordered : Ordered spin where
  reachable := by
    have h₀ : Path spin [] (startOf spin ⟨0⟩) := Path.start.enter
    have h₁ : Path spin [⟨1⟩, ⟨0⟩] (startOf spin ⟨1⟩) :=
      ((h₀.pass (by decide)).pass (by decide)).enter
    intro b hb
    simp only [spin, List.mem_cons, List.not_mem_nil, or_false] at hb
    rcases hb with rfl | rfl
    · exact ⟨_, h₀⟩
    · exact ⟨_, h₁⟩
  defined := by
    have hfirst : ∀ seen, Path spin seen (startOf spin ⟨1⟩) → ∀ i ∈ spin.blockInstrs ⟨0⟩,
      i ∈ seen := by
      intro seen hp
      rcases spin_paths hp with e | ⟨e, -⟩ | ⟨-, h⟩
      · cases e
      · cases e
      · exact h
    have hbehind : ∀ i ∈ spin.blockInstrs ⟨0⟩, ∀ l₁ : List InstrId,
        (i ∈ spin.blockInstrs ⟨1⟩ → i ∈ l₁) ∧
          ∀ seen, Path spin seen (startOf spin ⟨1⟩) → i ∈ l₁ ∨ i ∈ seen := by
      intro i hi l₁
      refine ⟨fun hi' => ?_, fun seen hp => .inr (hfirst seen hp i hi)⟩
      cases block_unique spin_wellFormed (by decide) (by decide) hi hi'
    intro b hb
    simp only [spin, List.mem_cons, List.not_mem_nil, or_false] at hb
    rcases hb with rfl | rfl
    · intro l₁ i l₂ e n v hv hc
      have hconst : ∀ i ∈ spin.blockInstrs ⟨0⟩, ∀ n, ∀ v ∈ (spin.instr i).arg n,
          spin.isConstant v = true := by decide
      rw [hconst i (by simp [e]) n v hv] at hc
      cases hc
    · have hdefined : ∀ l₁ i l₂, spin.blockInstrs ⟨1⟩ = l₁ ++ i :: l₂ → ∀ n,
          ∀ v ∈ (spin.instr i).arg n, spin.isConstant v = false →
            ∃ j ∈ spin.blockInstrs ⟨0⟩ ++ l₁, (spin.instr j).result = some v := by decide
      intro l₁ i l₂ e n v hv hc
      obtain ⟨j, hj, hres⟩ := hdefined l₁ i l₂ e n v hv hc
      refine ⟨j, hres, ?_⟩
      rcases List.mem_append.mp hj with hj | hj
      · exact hbehind j hj l₁
      · exact ⟨fun _ => hj, fun _ _ => .inl hj⟩

theorem spin_typed : Typed spin := by decide

/-- The pass over a loop and the address behind it. -/
theorem passes_keep_spin : (WellFormed spin ∧ spin.UseLists ∧ Ordered spin ∧ Typed spin) ∧
    (∃ f' n, Fold.run spin = .ok (f', n) ∧
      ∀ {σ : Type} (g : Guest σ) (o : Offsets), SameMeaning g o spin f') ∧
    ∃ f' n, Simplify.run spin = .ok (f', n) ∧
      ∀ {σ : Type} (g : Guest σ) (o : Offsets), SameMeaning g o spin f' :=
  ⟨⟨spin_wellFormed, spin_uses, spin_ordered, spin_typed⟩,
    (passes_keep_meaning (.inl rfl) spin_wellFormed spin_uses spin_ordered spin_typed).1,
    (passes_keep_meaning (.inr rfl) spin_wellFormed spin_uses spin_ordered spin_typed).1⟩

/-! ### Resolved exits -/

/-- An address is computed from constants, and control leaves for it. -/
def leap : Fragment where
  values := #[{ ty := .i32, origin := .constant (.i32 0x100), uses := [⟨⟨0⟩, 0⟩] },
    { ty := .i32, origin := .constant (.i32 0x20), uses := [⟨⟨0⟩, 1⟩] },
    { ty := .i32, origin := .result ⟨0⟩, uses := [⟨⟨1⟩, 0⟩] }]
  instrs := #[
    { op := .add, args := slots (some ⟨0⟩) (some ⟨1⟩), result := some ⟨2⟩, block := ⟨0⟩,
      next := some ⟨1⟩ },
    { op := .branch, args := slots (some ⟨2⟩), block := ⟨0⟩, prev := some ⟨0⟩ }]
  blocks := #[{ head := some ⟨0⟩, tail := some ⟨1⟩ }]
  order := [⟨0⟩]

/-- The address is known. -/
def leapFolded : Fragment where
  values := #[{ ty := .i32, origin := .constant (.i32 0x100) },
    { ty := .i32, origin := .constant (.i32 0x20) },
    { ty := .i32, origin := .result ⟨0⟩ },
    { ty := .i32, origin := .constant (.i32 0x120), uses := [⟨⟨1⟩, 0⟩] }]
  instrs := #[
    { op := .add, args := slots none, result := some ⟨2⟩, block := ⟨0⟩, removed := true },
    { op := .branch, args := slots (some ⟨3⟩), block := ⟨0⟩ }]
  blocks := #[{ head := some ⟨1⟩, tail := some ⟨1⟩ }]
  order := [⟨0⟩]

theorem leap_run : Fold.run leap = .ok (leapFolded, 1) := by rfl

theorem leap_wellFormed : WellFormed leap := by decide

theorem leap_ordered : Ordered leap := ordered_of_single rfl (by decide)

theorem leap_typed : Typed leap := by decide

/-- A guest without memory. -/
def mute : Guest Unit where
  read _ _ w := (0, w)
  write _ _ _ w := w
  fallback _ _ _ w := .ok w
  call _ _ _ w := w
  readHost _ _ _ := 0
  writeHost _ _ _ w := w

def nowhere : World Unit := ⟨#[0, 0, 0, 0], ()⟩

theorem leap_evaluates :
    Evaluates mute default leap nowhere (.ok (.dynamic, ⟨#[0x20, 1, 0, 0], ()⟩)) :=
  ⟨2, .go rfl (.go rfl (.stop rfl))⟩

theorem leapFolded_evaluates :
    Evaluates mute default leapFolded nowhere (.ok (.static 0, ⟨#[0x20, 1, 0, 0], ()⟩)) :=
  ⟨1, .go rfl (.stop rfl)⟩

/-- The exit does not stay the same: where the address was computed, it becomes a static exit. -/
theorem not_same_exit : ¬∀ f : Fragment, WellFormed f → f.UseLists → Ordered f → Typed f →
    ∀ f' n, Fold.run f = .ok (f', n) → ∀ (g : Guest Unit) (o : Offsets) w exit w',
      Evaluates g o f w (.ok (exit, w')) → Evaluates g o f' w (.ok (exit, w')) := by
  intro h
  have huses : leap.UseLists := Fragment.useLists_of_numbers (by decide) (by decide)
  have hdynamic := h leap leap_wellFormed huses leap_ordered leap_typed leapFolded 1 leap_run mute
    default nowhere .dynamic _ leap_evaluates
  cases Ends.unique hdynamic leapFolded_evaluates

end Recompiler.Pass
