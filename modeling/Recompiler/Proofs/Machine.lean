import Mathlib

/-! Deterministic machines, their runs, and simulation in both directions. -/
namespace Recompiler.Machine

/-- A step leads to another state or stops with a result. -/
inductive Turn (α ρ : Type) where
  | go (next : α)
  | stop (result : ρ)

variable {α β ρ τ : Type} {step : α → Turn α ρ} {stepB : β → Turn β τ}

/-- The machine in state `a` stops with `r` after `n` steps to other states. -/
inductive EndsIn (step : α → Turn α ρ) : Nat → α → ρ → Prop
  | stop {a : α} {r : ρ} (h : step a = .stop r) : EndsIn step 0 a r
  | go {n : Nat} {a b : α} {r : ρ} (h : step a = .go b) (rest : EndsIn step n b r) :
      EndsIn step (n + 1) a r

/-- The machine in state `a` stops with `r`. -/
def Ends (step : α → Turn α ρ) (a : α) (r : ρ) : Prop := ∃ n, EndsIn step n a r

/-- The machine goes from `a` to `b` in `n` steps. -/
inductive GoesIn (step : α → Turn α ρ) : Nat → α → α → Prop
  | refl (a : α) : GoesIn step 0 a a
  | step {n : Nat} {a b c : α} (h : step a = .go b) (rest : GoesIn step n b c) :
      GoesIn step (n + 1) a c

theorem EndsIn.unique {m n : Nat} {a : α} {r s : ρ} (hr : EndsIn step m a r)
    (hs : EndsIn step n a s) : m = n ∧ r = s := by
  induction hr generalizing n with
  | stop h =>
    cases hs with
    | stop h' =>
      rw [h] at h'
      cases h'
      exact ⟨rfl, rfl⟩
    | go h' _ =>
      rw [h] at h'
      cases h'
  | go h _ ih =>
    cases hs with
    | stop h' =>
      rw [h] at h'
      cases h'
    | go h' rest =>
      rw [h] at h'
      cases h'
      obtain ⟨hn, hr⟩ := ih rest
      exact ⟨by omega, hr⟩

theorem Ends.unique {a : α} {r s : ρ} (hr : Ends step a r) (hs : Ends step a s) : r = s := by
  obtain ⟨m, hm⟩ := hr
  obtain ⟨n, hn⟩ := hs
  exact (hm.unique hn).2

theorem GoesIn.trans {m n : Nat} {a b c : α} (hab : GoesIn step m a b) (hbc : GoesIn step n b c) :
    GoesIn step (m + n) a c := by
  induction hab with
  | refl => simpa using hbc
  | step h _ ih => rw [Nat.add_right_comm]; exact .step h (ih hbc)

theorem GoesIn.single {a b : α} (h : step a = .go b) : GoesIn step 1 a b := .step h (.refl b)

theorem GoesIn.endsIn {m n : Nat} {a b : α} {r : ρ} (hab : GoesIn step m a b)
    (hb : EndsIn step n b r) : EndsIn step (n + m) a r := by
  induction hab with
  | refl => exact hb
  | step h _ ih => exact .go h (ih hb)

theorem GoesIn.ends {m : Nat} {a b : α} {r : ρ} (hab : GoesIn step m a b) (hb : Ends step b r) :
    Ends step a r := by
  obtain ⟨n, hn⟩ := hb
  exact ⟨n + m, hab.endsIn hn⟩

/-- What remains of a finished run after its first steps. -/
theorem GoesIn.rest {m n : Nat} {a b : α} {r : ρ} (hab : GoesIn step m a b)
    (ha : EndsIn step n a r) : ∃ k, k + m = n ∧ EndsIn step k b r := by
  induction hab generalizing n with
  | refl => exact ⟨n, rfl, ha⟩
  | step h _ ih =>
    cases ha with
    | stop h' =>
      rw [h] at h'
      cases h'
    | go h' rest =>
      rw [h] at h'
      cases h'
      obtain ⟨k, hk, hr⟩ := ih rest
      exact ⟨k, by omega, hr⟩

theorem GoesIn.ends_iff {m : Nat} {a b : α} {r : ρ} (hab : GoesIn step m a b) :
    Ends step a r ↔ Ends step b r := by
  refine ⟨?_, hab.ends⟩
  rintro ⟨n, hn⟩
  obtain ⟨k, -, hk⟩ := hab.rest hn
  exact ⟨k, hk⟩

/-- From a pair of states, both machines go on to a related pair, each by a step at least, or both
stop with results that correspond. -/
inductive Advance (step : α → Turn α ρ) (stepB : β → Turn β τ) (related : α → β → Prop)
    (same : ρ → τ → Prop) (a : α) (b : β) : Prop
  | go {m n : Nat} {a' : α} {b' : β} (left : GoesIn step (m + 1) a a')
      (right : GoesIn stepB (n + 1) b b') (h : related a' b')
  | stop {r : ρ} {s : τ} (left : Ends step a r) (right : Ends stepB b s) (h : same r s)

/-- A relation that every pair advances in keeps the results of finished runs, and a run is finished
on one side if it is on the other. -/
theorem simulation {related : α → β → Prop} {same : ρ → τ → Prop}
    (advance : ∀ a b, related a b → Advance step stepB related same a b) {a : α} {b : β}
    (h : related a b) :
    (∀ r, Ends step a r → ∃ s, Ends stepB b s ∧ same r s) ∧
      (∀ s, Ends stepB b s → ∃ r, Ends step a r ∧ same r s) := by
  constructor
  · rintro r ⟨n, hn⟩
    induction n using Nat.strongRecOn generalizing a b with
    | ind n ih =>
      cases advance a b h with
      | go left right h' =>
        obtain ⟨k, hk, hr⟩ := left.rest hn
        obtain ⟨s, hs, hrs⟩ := ih k (by omega) h' hr
        exact ⟨s, right.ends hs, hrs⟩
      | stop left right hrs =>
        rw [Ends.unique ⟨n, hn⟩ left]
        exact ⟨_, right, hrs⟩
  · rintro s ⟨n, hn⟩
    induction n using Nat.strongRecOn generalizing a b with
    | ind n ih =>
      cases advance a b h with
      | go left right h' =>
        obtain ⟨k, hk, hs⟩ := right.rest hn
        obtain ⟨r, hr, hrs⟩ := ih k (by omega) h' hs
        exact ⟨r, left.ends hr, hrs⟩
      | stop left right hrs =>
        rw [Ends.unique ⟨n, hn⟩ right]
        exact ⟨_, left, hrs⟩

theorem Advance.prepend {related : α → β → Prop} {same : ρ → τ → Prop} {a a₁ : α} {b : β}
    (h : step a = .go a₁) (hadv : Advance step stepB related same a₁ b) :
    Advance step stepB related same a b := by
  rcases hadv with ⟨left, right, hr⟩ | ⟨left, right, hs⟩
  · exact .go (.step h left) right hr
  · exact .stop ((GoesIn.single h).ends left) right hs

/-- From a pair of states, both machines make a step to a related pair, or the first one makes a
step alone, which lowers the rank, or both stop with results that correspond. -/
inductive Pace (step : α → Turn α ρ) (stepB : β → Turn β τ) (rank : α → Nat)
    (related : α → β → Prop) (same : ρ → τ → Prop) (a : α) (b : β) : Prop
  | alone {a' : α} (left : step a = .go a') (hlt : rank a' < rank a) (h : related a' b)
  | both {a' : α} {b' : β} (left : step a = .go a') (right : stepB b = .go b') (h : related a' b')
  | stop {r : ρ} {s : τ} (left : step a = .stop r) (right : stepB b = .stop s) (h : same r s)

section
variable {related : α → β → Prop} {same : ρ → τ → Prop} {rank : α → Nat}
  (pace : ∀ a b, related a b → Pace step stepB rank related same a b) {a : α} {b : β}
include pace

theorem advance_of_pace (h : related a b) : Advance step stepB related same a b := by
  induction hn : rank a using Nat.strongRecOn generalizing a with
  | ind n ih =>
    rcases pace a b h with ⟨left, hlt, h'⟩ | ⟨left, right, h'⟩ | ⟨left, right, hs⟩
    · exact (ih _ (hn ▸ hlt) h' rfl).prepend left
    · exact .go (.single left) (.single right) h'
    · exact .stop ⟨0, .stop left⟩ ⟨0, .stop right⟩ hs

/-- Whatever state the first machine comes to, the second one comes to a related one. -/
theorem goesIn_left (h : related a b) {n : Nat} {a' : α} (hgo : GoesIn step n a a') :
    ∃ m b', GoesIn stepB m b b' ∧ related a' b' := by
  induction hgo generalizing b with
  | refl a => exact ⟨0, b, .refl b, h⟩
  | step hstep _ ih =>
    rcases pace _ b h with ⟨left, -, h'⟩ | ⟨left, right, h'⟩ | ⟨left, -, -⟩
    · cases hstep.symm.trans left
      exact ih h'
    · cases hstep.symm.trans left
      obtain ⟨m, b', hb, hr⟩ := ih h'
      exact ⟨m + 1, b', .step right hb, hr⟩
    · cases hstep.symm.trans left

theorem goesIn_right (h : related a b) {n : Nat} {b' : β} (hgo : GoesIn stepB n b b') :
    ∃ m a', GoesIn step m a a' ∧ related a' b' := by
  induction hgo generalizing a with
  | refl b => exact ⟨0, a, .refl a, h⟩
  | @step n b c b' hstep _ ih =>
    -- the first machine goes on alone until both make the step
    have hpair : ∃ m a₁, GoesIn step m a a₁ ∧ related a₁ c := by
      induction hk : rank a using Nat.strongRecOn generalizing a with
      | ind k ih' =>
        rcases pace a b h with ⟨left, hlt, h'⟩ | ⟨left, right, h'⟩ | ⟨-, right, -⟩
        · obtain ⟨m, a₁, hgo, hr⟩ := ih' _ (hk ▸ hlt) h' rfl
          exact ⟨m + 1, a₁, .step left hgo, hr⟩
        · cases hstep.symm.trans right
          exact ⟨1, _, .single left, h'⟩
        · cases hstep.symm.trans right
    obtain ⟨m, a₁, hgo, hr⟩ := hpair
    obtain ⟨m', a', hgo', hr'⟩ := ih hr
    exact ⟨m + m', a', hgo.trans hgo', hr'⟩

end
/-! ### Steps that can fail -/

variable {ε : Type} {next : α → Except ε α}

/-- So many steps. -/
def steps (next : α → Except ε α) : Nat → α → Except ε α
  | 0, a => .ok a
  | n + 1, a => do
    let a ← next a
    steps next n a

theorem steps_cons {a b : α} (h : next a = .ok b) (n : Nat) :
    steps next (n + 1) a = steps next n b := by
  rw [steps, h]
  rfl

theorem steps_succ (n : Nat) (a : α) : steps next (n + 1) a = steps next n a >>= next := by
  induction n generalizing a with
  | zero =>
    change (next a >>= fun b => Except.ok b) = next a
    cases next a <;> rfl
  | succ n ih =>
    change (next a >>= fun b => steps next (n + 1) b) =
      (next a >>= fun b => steps next n b) >>= next
    cases next a with
    | error e => rfl
    | ok b => exact ih b

end Recompiler.Machine
