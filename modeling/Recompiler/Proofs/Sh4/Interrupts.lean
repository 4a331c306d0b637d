import Recompiler.Proofs.Sh4.Status

/-!
Interrupts. A check delivers the most urgent of the pending lines that the status register lets
through, and nothing else takes a line away: whatever is raised stays pending until it is delivered.
-/
namespace Recompiler.Sh4

open State

/-! ### Bits of lines -/

theorem shiftRight_and_one_iff (x : UInt32) (n : Fin 32) :
    (x >>> UInt32.ofNat n) &&& 1 = 1 ↔ x.toNat.testBit n = true := by
  have hn : (UInt32.ofNat n).toNat % 32 = n.val := by
    rw [UInt32.toNat_ofNat_of_lt' (by have := n.isLt; simp [UInt32.size]; omega)]
    exact Nat.mod_eq_of_lt n.isLt
  rw [← UInt32.toNat_inj, UInt32.toNat_and, UInt32.toNat_shiftRight, hn,
    Nat.testBit_eq_decide_div_mod_eq]
  simp [Nat.shiftRight_eq_div_pow, Nat.and_one_is_mod]

theorem testBit_one_shiftLeft (n k : Fin 32) :
    (1 <<< UInt32.ofNat n : UInt32).toNat.testBit k = decide (k = n) := by
  revert n k
  decide +kernel

theorem testBit_or_line (x : UInt32) (n k : Fin 32) :
    (x ||| 1 <<< UInt32.ofNat n).toNat.testBit k = (x.toNat.testBit k || decide (k = n)) := by
  rw [UInt32.toNat_or, Nat.testBit_or, testBit_one_shiftLeft]

theorem testBit_and_not_line (x : UInt32) (n k : Fin 32) :
    (x &&& ~~~(1 <<< UInt32.ofNat n)).toNat.testBit k = (x.toNat.testBit k && decide (k ≠ n)) := by
  have hnot : (~~~(1 <<< UInt32.ofNat n : UInt32)).toNat.testBit k = decide (k ≠ n) := by
    revert n k
    decide +kernel
  rw [UInt32.toNat_and, Nat.testBit_and, hnot]

/-! ### Lines -/

namespace State

/-- Whether the line waits for its delivery. -/
def isPending (s : State) (line : Fin 32) : Bool := (s.get .pending).toNat.testBit line

def priority (s : State) (line : Fin 32) : Nat := (s.rest.priorities.get line).toNat

/-- Whether the status register blocks all lines. -/
def isBlocked (s : State) : Bool := s.get .sr &&& srBl ≠ 0

/-- The priority up to which the status register holds lines back. -/
def maskLevel (s : State) : Nat := (s.get .sr).toNat / 16 % 16

end State

variable {s t u : State} {line : Fin 32}

theorem toNat_imask (s : State) : ((s.get .sr &&& srImask) >>> 4).toUInt8.toNat = s.maskLevel := by
  have hlow : (s.get .sr).toNat >>> 4 &&& 240 >>> 4 = s.maskLevel := by
    rw [Nat.shiftRight_eq_div_pow]
    exact Nat.and_two_pow_sub_one_eq_mod _ 4
  have hlt : s.maskLevel < 16 := Nat.mod_lt _ (by decide)
  rw [UInt32.toNat_toUInt8, UInt32.toNat_shiftRight, UInt32.toNat_and]
  change ((s.get .sr).toNat &&& 240) >>> 4 % 256 = s.maskLevel
  rw [Nat.shiftRight_and_distrib, hlow, Nat.mod_eq_of_lt (by omega)]

theorem isAccepted_iff (s : State) (line : Fin 32) :
    s.isAccepted line = true ↔ s.isPending line = true ∧ s.maskLevel < s.priority line := by
  unfold isAccepted isPending priority
  rw [Bool.and_eq_true, decide_eq_true_iff, decide_eq_true_iff, shiftRight_and_one_iff,
    UInt8.lt_iff_toNat_lt, toNat_imask]
  exact Iff.rfl

theorem moreUrgent_some (s : State) (b a : Fin 32) : s.moreUrgent (some b) a =
    some (if s.priority b < s.priority a then a else b) := by
  unfold moreUrgent priority
  dsimp only
  rw [apply_ite some]
  exact if_congr UInt8.lt_iff_toNat_lt rfl rfl

/-- The first line of highest priority in a list. -/
structure Foremost (s : State) (l : List (Fin 32)) (line : Fin 32) : Prop where
  mem : line ∈ l
  highest : ∀ k ∈ l, s.priority k ≤ s.priority line
  lowest : ∀ k ∈ l, s.priority k = s.priority line → line ≤ k

namespace Foremost

variable {l : List (Fin 32)} {a b r : Fin 32}

theorem singleton (s : State) (a : Fin 32) : Foremost s [a] a where
  mem := List.mem_singleton_self a
  highest := by simp
  lowest := by simp

/-- A line behind which a more urgent one stands. -/
theorem cons_first (h : Foremost s (a :: l) r) (hless : s.priority b < s.priority a) :
    Foremost s (b :: a :: l) r where
  mem := List.mem_cons_of_mem b h.mem
  highest := by
    have ha := h.highest a List.mem_cons_self
    exact List.forall_mem_cons.mpr ⟨by omega, h.highest⟩
  lowest := by
    have ha := h.highest a List.mem_cons_self
    exact List.forall_mem_cons.mpr ⟨fun heq => by omega, h.lowest⟩

/-- A line before which one that is as urgent stands. -/
theorem cons_second (h : Foremost s (b :: l) r) (hle : s.priority a ≤ s.priority b) (hba : b < a) :
    Foremost s (b :: a :: l) r where
  mem := by
    obtain hb | hl := List.mem_cons.mp h.mem
    · exact List.mem_cons.mpr (.inl hb)
    · exact List.mem_cons_of_mem b (List.mem_cons_of_mem a hl)
  highest := by
    obtain ⟨hb, hl⟩ := List.forall_mem_cons.mp h.highest
    exact List.forall_mem_cons.mpr ⟨hb, List.forall_mem_cons.mpr ⟨by omega, hl⟩⟩
  lowest := by
    obtain ⟨hb, -⟩ := List.forall_mem_cons.mp h.highest
    obtain ⟨hlowest, hl⟩ := List.forall_mem_cons.mp h.lowest
    refine List.forall_mem_cons.mpr ⟨hlowest, List.forall_mem_cons.mpr ⟨fun heq => ?_, hl⟩⟩
    exact Fin.le_of_lt (Fin.lt_of_le_of_lt (hlowest (by omega)) hba)

end Foremost

/-- The scan keeps the foremost of the lines seen so far, all of which come before the others. -/
theorem foldl_moreUrgent_some (s : State) (l : List (Fin 32)) (b : Fin 32)
    (h : (b :: l).Pairwise (· < ·)) :
    ∃ r, l.foldl s.moreUrgent (some b) = some r ∧ Foremost s (b :: l) r := by
  induction l generalizing b with
  | nil => exact ⟨b, rfl, .singleton s b⟩
  | cons a l ih =>
    obtain ⟨hb, hrest⟩ := List.pairwise_cons.mp h
    rw [List.foldl_cons, moreUrgent_some]
    split
    case isTrue hless =>
      obtain ⟨r, hr, hforemost⟩ := ih a hrest
      exact ⟨r, hr, hforemost.cons_first hless⟩
    case isFalse hle =>
      have hskip : (b :: l).Pairwise (· < ·) :=
        List.pairwise_cons.mpr ⟨fun k hk => hb k (List.mem_cons_of_mem a hk),
          (List.pairwise_cons.mp hrest).2⟩
      obtain ⟨r, hr, hforemost⟩ := ih b hskip
      exact ⟨r, hr, hforemost.cons_second (by omega) (hb a List.mem_cons_self)⟩

/-- The line that a check has to deliver: the status register lets it through, and no pending line
is more urgent. -/
structure Chosen (s : State) (line : Fin 32) : Prop where
  unblocked : s.isBlocked = false
  pending : s.isPending line = true
  above : s.maskLevel < s.priority line
  highest : ∀ k, s.isPending k = true → s.priority k ≤ s.priority line
  lowest : ∀ k, s.isPending k = true → s.priority k = s.priority line → line ≤ k

theorem Foremost.chosen (h : Foremost s ((List.finRange 32).filter s.isAccepted) line)
    (hopen : s.isBlocked = false) : Chosen s line := by
  obtain ⟨hpending, habove⟩ := (isAccepted_iff s line).mp (List.mem_filter.mp h.mem).2
  have hmem {k : Fin 32} (hk : s.isPending k = true) (habove : s.maskLevel < s.priority k) :
      k ∈ (List.finRange 32).filter s.isAccepted :=
    List.mem_filter.mpr ⟨List.mem_finRange k, (isAccepted_iff s k).mpr ⟨hk, habove⟩⟩
  refine ⟨hopen, hpending, habove, fun k hk => ?_, fun k hk heq => ?_⟩
  · by_cases hlevel : s.maskLevel < s.priority k
    · exact h.highest k (hmem hk hlevel)
    · omega
  · exact h.lowest k (hmem hk (by omega)) heq

/-- The most urgent line is found if there is one that the status register lets through. -/
theorem acceptedLine?_spec (s : State) :
    (∃ line, s.acceptedLine? = some line ∧ Chosen s line) ∨
      (s.acceptedLine? = none ∧
        ∀ line, s.isBlocked = false → s.isPending line = true → s.priority line ≤ s.maskLevel) := by
  by_cases hblocked : s.get .sr &&& srBl ≠ 0
  · refine .inr ⟨?_, fun line hopen => ?_⟩
    · rw [acceptedLine?, if_pos hblocked]
    · rw [isBlocked, decide_eq_false_iff_not] at hopen
      exact absurd hblocked hopen
  have hopen : s.isBlocked = false := decide_eq_false hblocked
  have hscan : s.acceptedLine? =
      ((List.finRange 32).filter s.isAccepted).foldl s.moreUrgent none := by
    rw [acceptedLine?, if_neg hblocked]
  cases hlines : (List.finRange 32).filter s.isAccepted with
  | nil =>
    rw [hlines] at hscan
    refine .inr ⟨hscan, fun line _ hpending => ?_⟩
    have hrefused := List.filter_eq_nil_iff.mp hlines line (List.mem_finRange line)
    rw [isAccepted_iff] at hrefused
    by_contra hlevel
    exact hrefused ⟨hpending, by omega⟩
  | cons b l =>
    have hsorted : (b :: l).Pairwise (· < ·) := hlines ▸ (List.pairwise_lt_finRange 32).filter _
    obtain ⟨r, hr, hforemost⟩ := foldl_moreUrgent_some s l b hsorted
    rw [hlines] at hscan
    rw [← hlines] at hforemost
    exact .inl ⟨r, hscan.trans hr, hforemost.chosen hopen⟩

/-! ### Checks -/

/-- The line is delivered: its bit is cleared and no other, interrupts are blocked, and the handler
is entered. -/
structure Delivered (line : Fin 32) (s t : State) : Prop where
  was_pending : s.isPending line = true
  pending_eq : ∀ k, t.isPending k = (s.isPending k && decide (k ≠ line))
  blocked : t.isBlocked = true
  sr_eq : t.get .sr = s.get .sr ||| srMd ||| srRb ||| srBl
  ssr_eq : t.get .ssr = s.get .sr
  spc_eq : t.get .spc = s.get .pc
  pc_eq : t.get .pc = s.get .vbr + vectorInterrupt
  intevt_eq : t.get .intevt = intevtBase + UInt32.ofNat line * 0x20
  taken_eq : t.rest.taken = s.rest.taken + 1
  ram_eq : t.rest.ram = s.rest.ram
  priorities_eq : t.rest.priorities = s.rest.priorities

theorem toNat_srBl : srBl.toNat = 2 ^ 28 := by decide

theorem isBlocked_exceptionSr (x : UInt32) : (x ||| srMd ||| srRb ||| srBl) &&& srBl ≠ 0 := by
  rw [and_ne_zero_iff toNat_srBl, UInt32.toNat_or, Nat.testBit_or, Bool.or_eq_true]
  exact .inr (by decide)

theorem get_noted_pending (hs : s.Sized) (line : Fin 32) : Context.get (noted s line) .pending =
    s.get .pending &&& ~~~(1 <<< UInt32.ofNat line) := by
  rw [noted, Context.get_set_ne _ (by decide), Context.get_set_same _ hs]

theorem get_noted_intevt (hs : s.Sized) (line : Fin 32) : Context.get (noted s line) .intevt =
    intevtBase + UInt32.ofNat line * 0x20 := by
  rw [noted, Context.get_set_same _ ((Context.size_set _ _ _).trans hs)]

theorem delivered_deliver (hs : s.Sized) (hpending : s.isPending line = true) :
    Delivered line s (s.deliver line) := by
  have hsize : (noted s line).size = 4 * Field.all.length := (size_noted s line).trans hs
  have hget (f : Field) : (s.deliver line).get f =
      Context.get (Context.enterException (noted s line) (s.get .pc) vectorInterrupt) f := by
    rw [deliver_eq, State.get]
  have hrest : (s.deliver line).rest = { s.rest with taken := s.rest.taken + 1 } := by
    rw [deliver_eq]
  have hsr : (s.deliver line).get .sr = s.get .sr ||| srMd ||| srRb ||| srBl := by
    rw [hget, Context.get_enterException_sr hsize, Context.exceptionSr, get_noted (by decide)]
  refine ⟨hpending, fun k => ?_, ?_, hsr, ?_, ?_, ?_, ?_, ?_, ?_, ?_⟩
  · rw [isPending, hget, Context.get_enterException_of_fixed hsize (by decide) (by decide) rfl,
      get_noted_pending hs, testBit_and_not_line, isPending]
  · rw [isBlocked, hsr]
    exact decide_eq_true (isBlocked_exceptionSr _)
  · rw [hget, Context.get_enterException_ssr hsize, get_noted (by decide)]
  · rw [hget, Context.get_enterException_spc hsize]
  · rw [hget, Context.get_enterException_pc hsize, get_noted (by decide)]
  · rw [hget, Context.get_enterException_of_fixed hsize (by decide) (by decide) rfl,
      get_noted_intevt hs]
  all_goals rw [hrest]

/-- Whether a line waits that the status register lets through. -/
def Awaits (s : State) : Prop :=
  s.isBlocked = false ∧ ∃ line, s.isPending line = true ∧ s.maskLevel < s.priority line

/-- Whether no more deliveries can be counted. -/
def CountedOut (s : State) : Prop := s.rest.taken.toNat + 1 = UInt32.size

/-- What a check does to a state. -/
structure RightCheck (s : State) : Prop where
  delivers_iff : (∃ line t, s.interruptCheck = .ok t ∧ Delivered line s t) ↔
    Awaits s ∧ ¬ CountedOut s
  chosen : ∀ line t, s.interruptCheck = .ok t → Delivered line s t → Chosen s line
  unchanged : ∀ t, s.interruptCheck = .ok t → (∀ line, ¬ Delivered line s t) → t = s
  error_iff : ∀ e, s.interruptCheck = .error e ↔ e = .overflow ∧ Awaits s ∧ CountedOut s

theorem Chosen.awaits (h : Chosen s line) : Awaits s := ⟨h.unblocked, line, h.pending, h.above⟩

theorem Chosen.unique {k : Fin 32} (h : Chosen s line) (h' : Chosen s k) : line = k := by
  have heq : s.priority line = s.priority k :=
    Nat.le_antisymm (h'.highest line h.pending) (h.highest k h'.pending)
  exact Fin.le_antisymm (h.lowest k h'.pending heq.symm) (h'.lowest line h.pending heq)

theorem Delivered.unique {k : Fin 32} (h : Delivered line s t) (h' : Delivered k s t) :
    line = k := by
  by_contra hne
  have hkept := h'.pending_eq line
  rw [h.pending_eq line, h.was_pending] at hkept
  simp [hne] at hkept

theorem not_delivered_self (line : Fin 32) : ¬ Delivered line s s := by
  intro h
  have hcleared := h.pending_eq line
  rw [h.was_pending] at hcleared
  simp at hcleared

/-- A check leaves the state alone, delivers the line that it has to, or faults. -/
theorem check_cases (hs : s.Sized) :
    (s.interruptCheck = .ok s ∧ ¬ Awaits s) ∨
    ∃ line, Chosen s line ∧
      ((∃ t, s.interruptCheck = .ok t ∧ ¬ CountedOut s ∧ Delivered line s t) ∨
        (s.interruptCheck = .error .overflow ∧ CountedOut s)) := by
  obtain ⟨line, haccepted, hchosen⟩ | ⟨hnone, hlow⟩ := acceptedLine?_spec s
  · obtain ⟨hnone, -⟩ | ⟨line', haccepted', houtcome⟩ := interruptCheck_cases s
    · rw [haccepted] at hnone
      cases hnone
    rw [haccepted] at haccepted'
    cases haccepted'
    refine .inr ⟨line, hchosen, houtcome.imp (fun ⟨hroom, hdone⟩ => ?_) fun ⟨hfull, hdone⟩ => ?_⟩
    · exact ⟨_, hdone, Nat.ne_of_lt hroom, delivered_deliver hs hchosen.pending⟩
    · exact ⟨hdone, hfull⟩
  · obtain ⟨-, hdone⟩ | ⟨line, haccepted, -⟩ := interruptCheck_cases s
    · refine .inl ⟨hdone, fun ⟨hopen, line, hpending, habove⟩ => ?_⟩
      have hle := hlow line hopen hpending
      omega
    · rw [hnone] at haccepted
      cases haccepted

theorem rightCheck (hs : s.Sized) : RightCheck s := by
  obtain ⟨hdone, hidle⟩ | ⟨line, hchosen, ⟨t, hdone, hroom, hline⟩ | ⟨hdone, hfull⟩⟩ :=
    check_cases hs
  · refine ⟨⟨?_, fun h => absurd h.1 hidle⟩, fun line t ht h => ?_, fun t ht _ => ?_, fun e => ?_⟩
    · rintro ⟨line, t, ht, h⟩
      cases hdone.symm.trans ht
      exact absurd h (not_delivered_self line)
    · cases hdone.symm.trans ht
      exact absurd h (not_delivered_self line)
    · cases hdone.symm.trans ht
      rfl
    · refine ⟨fun he => ?_, fun h => absurd h.2.1 hidle⟩
      cases hdone.symm.trans he
  · refine ⟨⟨fun _ => ⟨hchosen.awaits, hroom⟩, fun _ => ⟨line, t, hdone, hline⟩⟩,
      fun k t' ht hk => ?_, fun t' ht hnot => ?_, fun e => ?_⟩
    · cases hdone.symm.trans ht
      rwa [hk.unique hline]
    · cases hdone.symm.trans ht
      exact absurd hline (hnot line)
    · refine ⟨fun he => ?_, fun h => absurd h.2.2 hroom⟩
      cases hdone.symm.trans he
  · refine ⟨⟨?_, fun h => absurd hfull h.2⟩, fun k t ht => ?_, fun t ht => ?_, fun e => ?_⟩
    · rintro ⟨k, t, ht, -⟩
      cases hdone.symm.trans ht
    · cases hdone.symm.trans ht
    · cases hdone.symm.trans ht
    · constructor
      · intro he
        cases hdone.symm.trans he
        exact ⟨rfl, hchosen.awaits, hfull⟩
      · rintro ⟨rfl, -⟩
        exact hdone

/-! ### Runs -/

/-- What can happen to the interrupts. -/
inductive Event where
  | raise (line : Fin 32)
  | setPriority (line : Fin 32) (level : UInt8)
  | writeSr (v : UInt32)
  | writeT (on : Bool)
  | enter (spc vector : UInt32)
  | check

def serve : Event → State → Except Fault State
  | .raise line, s => s.raise (UInt32.ofNat line)
  | .setPriority line level, s => s.setPriority line level
  | .writeSr v, s => .ok (s.modify fun c => Context.setSr c v)
  | .writeT on, s => .ok (s.modify fun c => Context.setT c on)
  | .enter spc vector, s => .ok (s.modify fun c => Context.enterException c spc vector)
  | .check, s => s.interruptCheck

def serveAll (es : List Event) (s : State) : Except Fault State :=
  es.foldlM (fun s e => serve e s) s

/-- The lines that are no longer pending. -/
def cleared (s t : State) : List (Fin 32) :=
  (List.finRange 32).filter fun k => s.isPending k && !t.isPending k

/-- The lines that stop to be pending while events are served, in their order. -/
def clearedBy : List Event → State → List (Fin 32)
  | [], _ => []
  | e :: es, s =>
    match serve e s with
    | .ok t => cleared s t ++ clearedBy es t
    | .error _ => []

theorem raise_ok (hs : s.Sized) (line : Fin 32) : ∃ t, s.raise (UInt32.ofNat line) = .ok t ∧
    t.Sized ∧ t.rest = s.rest ∧ ∀ k, t.isPending k = (s.isPending k || decide (k = line)) := by
  have hlt : UInt32.ofNat line < 32 := by
    revert line
    decide
  refine ⟨_, if_pos hlt, hs.set _ _, by rw [State.set], fun k => ?_⟩
  rw [isPending, State.get_set_same hs, testBit_or_line, isPending]

theorem isPending_modify {g : Context → Context}
    (h : Context.get (g s.ctx) .pending = Context.get s.ctx .pending) (k : Fin 32) :
    (s.modify g).isPending k = s.isPending k := by
  rw [isPending, State.get, State.modify, h, isPending, State.get]

/-- One event: a check that delivers a line takes that line away, or it faults; otherwise every line
that was pending still is, and nothing is counted. -/
theorem serve_spec (hs : s.Sized) (e : Event) :
    (∃ t, serve e s = .ok t ∧ t.Sized ∧
      ((∃ line, e = .check ∧ Chosen s line ∧ Delivered line s t) ∨
        ((∀ k, s.isPending k = true → t.isPending k = true) ∧ t.rest.taken = s.rest.taken))) ∨
    (e = .check ∧ Awaits s ∧ CountedOut s ∧ serve e s = .error .overflow) := by
  cases e with
  | raise line =>
    obtain ⟨t, hraise, hsized, hrest, hpending⟩ := raise_ok hs line
    refine .inl ⟨t, hraise, hsized, .inr ⟨fun k hk => ?_, by rw [hrest]⟩⟩
    rw [hpending, hk, Bool.true_or]
  | setPriority line level =>
    refine .inl ⟨_, dif_pos line.isLt, hs, .inr ⟨fun k hk => ?_, rfl⟩⟩
    exact hk
  | writeSr v =>
    have hpending := Context.get_setSr_of_fixed hs (by decide : Field.pending ≠ .sr) rfl v
    refine .inl ⟨_, rfl, ((StatusChange.sr s v).kept hs).1, .inr ⟨fun k hk => ?_, rfl⟩⟩
    rw [isPending_modify]
    exacts [hk, hpending]
  | writeT on =>
    have hpending := Context.get_setT s.ctx (by decide : Field.pending ≠ .sr) on
    refine .inl ⟨_, rfl, ((StatusChange.truth s on).kept hs).1, .inr ⟨fun k hk => ?_, rfl⟩⟩
    rw [isPending_modify]
    exacts [hk, hpending]
  | enter spc vector =>
    have hpending := Context.get_enterException_of_fixed hs
      (by decide : Field.pending ∉ Field.entryWords) (by decide) rfl spc vector
    refine .inl ⟨_, rfl, ((StatusChange.exception s spc vector).kept hs).1,
      .inr ⟨fun k hk => ?_, rfl⟩⟩
    rw [isPending_modify]
    exacts [hk, hpending]
  | check =>
    obtain ⟨hdone, -⟩ | ⟨line, hchosen, ⟨t, hdone, -, hline⟩ | ⟨hdone, hfull⟩⟩ := check_cases hs
    · exact .inl ⟨s, hdone, hs, .inr ⟨fun _ hk => hk, rfl⟩⟩
    · exact .inl ⟨t, hdone, (kept_interruptCheck hs hdone).1, .inl ⟨line, rfl, hchosen, hline⟩⟩
    · exact .inr ⟨rfl, hchosen.awaits, hfull, hdone⟩

theorem filter_line (line : Fin 32) :
    (List.finRange 32).filter (fun k => decide (k = line)) = [line] := by
  revert line
  decide +kernel

theorem cleared_of_delivered (h : Delivered line s t) : cleared s t = [line] := by
  have hfilter : (fun k => s.isPending k && !t.isPending k) = fun k => decide (k = line) := by
    funext k
    rw [h.pending_eq k]
    by_cases hk : k = line
    · simp [hk, h.was_pending]
    · cases s.isPending k <;> simp [hk]
  rw [cleared, hfilter, filter_line]

theorem cleared_of_kept (h : ∀ k, s.isPending k = true → t.isPending k = true) :
    cleared s t = [] := by
  refine List.filter_eq_nil_iff.mpr fun k _ => ?_
  rw [Bool.and_eq_true, Bool.not_eq_true', not_and]
  intro hk
  rw [h k hk]
  decide

/-- What the events have done: `lines` are no longer pending. -/
structure Accounted (es : List Event) (s t : State) (lines : List (Fin 32)) : Prop where
  kept : ∀ k, s.isPending k = true → t.isPending k = true ∨ k ∈ lines
  delivered : ∀ k ∈ lines, ∃ before after u, es = before ++ .check :: after ∧
    serveAll before s = .ok u ∧ Chosen u k ∧ ∃ v, u.interruptCheck = .ok v ∧ Delivered k u v
  taken_eq : t.rest.taken = s.rest.taken + UInt32.ofNat lines.length

theorem Accounted.nil (s : State) : Accounted [] s s [] where
  kept _ hk := .inl hk
  delivered _ hk := absurd hk List.not_mem_nil
  taken_eq := (UInt32.add_zero _).symm

/-- An event that takes no line away. -/
theorem Accounted.cons_kept {e : Event} {es : List Event} {lines : List (Fin 32)}
    (h : Accounted es t u lines) (he : serve e s = .ok t)
    (hkept : ∀ k, s.isPending k = true → t.isPending k = true)
    (htaken : t.rest.taken = s.rest.taken) : Accounted (e :: es) s u lines where
  kept k hk := h.kept k (hkept k hk)
  delivered k hk := by
    obtain ⟨before, after, w, rfl, hserve, hw⟩ := h.delivered k hk
    refine ⟨e :: before, after, w, rfl, ?_, hw⟩
    rw [serveAll, List.foldlM_cons, he]
    exact hserve
  taken_eq := by rw [h.taken_eq, htaken]

/-- A check that delivers a line. -/
theorem Accounted.cons_delivered {es : List Event} {lines : List (Fin 32)}
    (h : Accounted es t u lines) (hcheck : s.interruptCheck = .ok t) (hchosen : Chosen s line)
    (hline : Delivered line s t) : Accounted (.check :: es) s u (line :: lines) where
  kept k hk := by
    by_cases heq : k = line
    · exact .inr (List.mem_cons.mpr (.inl heq))
    · have hstill : t.isPending k = true := by
        rw [hline.pending_eq k, hk, Bool.true_and]
        exact decide_eq_true heq
      exact (h.kept k hstill).imp_right (List.mem_cons_of_mem line)
  delivered k hk := by
    obtain rfl | hk := List.mem_cons.mp hk
    · exact ⟨[], es, s, rfl, rfl, hchosen, t, hcheck, hline⟩
    · obtain ⟨before, after, w, rfl, hserve, hw⟩ := h.delivered k hk
      refine ⟨.check :: before, after, w, rfl, ?_, hw⟩
      rw [serveAll, List.foldlM_cons]
      change (s.interruptCheck >>= _) = _
      rw [hcheck]
      exact hserve
  taken_eq := by
    rw [h.taken_eq, hline.taken_eq, List.length_cons, Nat.add_comm lines.length 1, UInt32.ofNat_add,
      ← UInt32.add_assoc]
    rfl

/-- Events end at a check that cannot count its delivery. -/
structure Overcounted (es : List Event) (s : State) : Prop where
  serveAll_eq : serveAll es s = .error .overflow
  check : ∃ before after u, es = before ++ .check :: after ∧ serveAll before s = .ok u ∧
    Awaits u ∧ CountedOut u

theorem Overcounted.cons {e : Event} {es : List Event} (h : Overcounted es t)
    (he : serve e s = .ok t) : Overcounted (e :: es) s where
  serveAll_eq := by
    rw [serveAll, List.foldlM_cons, he]
    exact h.serveAll_eq
  check := by
    obtain ⟨before, after, u, rfl, hserve, hu⟩ := h.check
    refine ⟨e :: before, after, u, rfl, ?_, hu⟩
    rw [serveAll, List.foldlM_cons, he]
    exact hserve

theorem serveAll_spec (hs : s.Sized) (es : List Event) :
    (∃ t, serveAll es s = .ok t ∧ t.Sized ∧ Accounted es s t (clearedBy es s)) ∨
      Overcounted es s := by
  induction es generalizing s with
  | nil => exact .inl ⟨s, rfl, hs, .nil s⟩
  | cons e es ih =>
    obtain ⟨t, hserve, ht, houtcome⟩ | ⟨rfl, hawaits, hfull, hserve⟩ := serve_spec hs e
    · obtain ⟨u, hall, hu, haccounted⟩ | hover := ih ht
      · have hrun : serveAll (e :: es) s = .ok u := by
          rw [serveAll, List.foldlM_cons, hserve]
          exact hall
        refine .inl ⟨u, hrun, hu, ?_⟩
        rw [clearedBy, hserve]
        dsimp only
        obtain ⟨line, rfl, hchosen, hline⟩ | ⟨hkept, htaken⟩ := houtcome
        · rw [cleared_of_delivered hline]
          exact haccounted.cons_delivered hserve hchosen hline
        · rw [cleared_of_kept hkept]
          exact haccounted.cons_kept hserve hkept htaken
      · exact .inr (hover.cons hserve)
    · refine .inr ⟨?_, [], es, s, rfl, rfl, hawaits, hfull⟩
      rw [serveAll, List.foldlM_cons, hserve]
      rfl

/-- Whatever has happened to the interrupts: a check delivers the most urgent line if the status
register lets one through, and does nothing otherwise; a line that is raised is pending; and every
line that was pending still is, unless a check has delivered it, which is counted. Only a check that
has to deliver a line when no more deliveries can be counted faults. -/
theorem interrupts_delivered (hs : s.Sized) (es : List Event) :
    (∃ t, serveAll es s = .ok t ∧ RightCheck t ∧
      (∀ line : Fin 32, ∃ u, t.raise (UInt32.ofNat line) = .ok u ∧
        ∀ k, u.isPending k = (t.isPending k || decide (k = line))) ∧
      Accounted es s t (clearedBy es s)) ∨
    Overcounted es s := by
  obtain ⟨t, hserve, ht, haccounted⟩ | hover := serveAll_spec hs es
  · refine .inl ⟨t, hserve, rightCheck ht, fun line => ?_, haccounted⟩
    obtain ⟨u, hraise, -, -, hpending⟩ := raise_ok ht line
    exact ⟨u, hraise, hpending⟩
  · exact .inr hover

/-- A line is raised while interrupts are blocked; then they are unblocked. -/
def raisedOnce : List Event := [.raise 3, .writeSr srRb, .check]

theorem interrupts_delivered_once : poweredOn.Sized ∧ clearedBy raisedOnce poweredOn = [3] ∧
    ∃ t, serveAll raisedOnce poweredOn = .ok t ∧ RightCheck t ∧ t.rest.taken = 1 := by
  have hcleared : clearedBy raisedOnce poweredOn = [3] := by decide +kernel
  have hruns : (serveAll raisedOnce poweredOn).isOk = true := by decide +kernel
  obtain ⟨t, hserve, hcheck, -, haccounted⟩ | hover :=
    interrupts_delivered sized_poweredOn raisedOnce
  · refine ⟨sized_poweredOn, hcleared, t, hserve, hcheck, ?_⟩
    rw [haccounted.taken_eq, hcleared]
    rfl
  · rw [hover.serveAll_eq] at hruns
    cases hruns

/-- A line is pending, interrupts are let through, and the count of deliveries is at its end. -/
def countedOut : State :=
  let s := (poweredOn.set .sr srMd).set .pending 1
  { s with rest := { s.rest with taken := 0xffffffff } }

/-- The line has to be delivered, and it is not. -/
theorem check_counted_out : countedOut.Sized ∧ countedOut.isBlocked = false ∧
    countedOut.isPending 0 = true ∧ countedOut.maskLevel < countedOut.priority 0 ∧
    countedOut.interruptCheck = .error .overflow := by
  have hs : countedOut.Sized := by
    unfold State.Sized
    decide +kernel
  have hbits : countedOut.isBlocked = false ∧ countedOut.isPending 0 = true ∧
      countedOut.maskLevel < countedOut.priority 0 := by
    decide +kernel
  have hawaits : Awaits countedOut := ⟨hbits.1, 0, hbits.2⟩
  have htaken : countedOut.rest.taken = 0xffffffff := rfl
  have hfull : CountedOut countedOut := by
    unfold CountedOut
    rw [htaken]
    rfl
  refine ⟨hs, hbits.1, hbits.2.1, hbits.2.2, ?_⟩
  exact ((rightCheck hs).error_iff .overflow).mpr ⟨rfl, hawaits, hfull⟩

end Recompiler.Sh4
