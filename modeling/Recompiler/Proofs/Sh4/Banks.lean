import Mathlib.Logic.Equiv.Basic
import Recompiler.Proofs.Sh4.State

/-!
The register banks. The context holds the active bank of the general registers and the other one,
and the status register says which of the two is active; the float registers are held in the same
way. What a write of a status register exchanges is known word by word, and the banks keep what they
hold.
-/
namespace Recompiler.Sh4

/-! ### Single bits -/

theorem and_ne_zero_iff {mask : UInt32} {k : Nat} (h : mask.toNat = 2 ^ k) (x : UInt32) :
    x &&& mask ≠ 0 ↔ x.toNat.testBit k = true := by
  rw [ne_eq, ← UInt32.toNat_inj, UInt32.toNat_and, h, Nat.and_two_pow]
  cases x.toNat.testBit k <;> simp

/-- A bit of an exclusive or is set if it differs. -/
theorem xor_and_ne_zero_iff {mask : UInt32} {k : Nat} (h : mask.toNat = 2 ^ k) (x y : UInt32) :
    (x ^^^ y) &&& mask ≠ 0 ↔ decide (x &&& mask ≠ 0) ≠ decide (y &&& mask ≠ 0) := by
  simp only [and_ne_zero_iff h, UInt32.toNat_xor, Nat.testBit_xor]
  cases x.toNat.testBit k <;> cases y.toNat.testBit k <;> decide

/-- Setting other bits leaves a bit alone. -/
theorem or_and_ne_zero_iff {mask : UInt32} {k : Nat} (h : mask.toNat = 2 ^ k) (x y : UInt32)
    (hy : y.toNat.testBit k = false) : (x ||| y) &&& mask ≠ 0 ↔ x &&& mask ≠ 0 := by
  rw [and_ne_zero_iff h, and_ne_zero_iff h, UInt32.toNat_or, Nat.testBit_or, hy, Bool.or_false]

theorem toNat_srRb : srRb.toNat = 2 ^ 29 := by decide

theorem toNat_fpscrFr : fpscrFr.toNat = 2 ^ 21 := by decide

/-! ### Places -/

namespace Field

/-- The place of a general register when the banks are exchanged. -/
def otherBank : Field → Field
  | r n => if h : n.val < 8 then ralt ⟨n, h⟩ else r n
  | ralt n => r (n.castAdd 8)
  | f => f

/-- The place of a float register when the banks are exchanged. -/
def otherFloatBank : Field → Field
  | fr n => xf n
  | xf n => fr n
  | f => f

/-- A general register of a bank, active or not. -/
def general (n : Fin 8) (active : Bool) : Field :=
  if active then r (n.castAdd 8) else ralt n

/-- A float register of a bank, active or not. -/
def float (n : Fin 16) (active : Bool) : Field := if active then fr n else xf n

/-- The place of a word before a register went from `old` to `new`, if a change of the bits in the
mask exchanges places. -/
def exchanged (mask : UInt32) (other : Field → Field) (old new : UInt32) (f : Field) : Field :=
  if (new ^^^ old) &&& mask ≠ 0 then other f else f

/-- The words that the entry to an exception writes besides the status register. -/
def entryWords : List Field := [pc, spc, ssr, sgr]

/-- The words that say which event led to an exception. -/
def eventWords : List Field := [tra, expevt, intevt, pending]

theorem notMem_entryWords {f : Field} :
    f ∉ entryWords ↔ f ≠ .pc ∧ f ≠ .spc ∧ f ≠ .ssr ∧ f ≠ .sgr := by
  simp [entryWords]

theorem otherBank_notMem_entryWords {f : Field} (h : f ∉ entryWords) :
    f.otherBank ∉ entryWords := by
  cases f with
  | r n | ralt n => revert n; decide
  | _ => exact h

theorem otherBank_otherBank (f : Field) : f.otherBank.otherBank = f := by
  cases f with
  | r n | ralt n => revert n; decide
  | _ => rfl

theorem otherBank_general (n : Fin 8) (active : Bool) :
    (general n active).otherBank = general n (!active) := by
  revert n active
  decide

theorem otherFloatBank_float (n : Fin 16) (active : Bool) :
    (float n active).otherFloatBank = float n (!active) := by
  cases active <;> rfl

theorem otherFloatBank_general (n : Fin 8) (active : Bool) :
    (general n active).otherFloatBank = general n active := by
  cases active <;> rfl

theorem otherBank_float (n : Fin 16) (active : Bool) :
    (float n active).otherBank = float n active := by
  cases active <;> rfl

theorem otherBank_upper {n : Fin 16} (h : 8 ≤ n.val) : (r n).otherBank = r n :=
  dif_neg (by omega)

theorem general_ne_sr (n : Fin 8) (active : Bool) : general n active ≠ .sr := by
  cases active <;> exact Field.noConfusion

theorem general_ne_fpscr (n : Fin 8) (active : Bool) : general n active ≠ .fpscr := by
  cases active <;> exact Field.noConfusion

theorem float_ne_sr (n : Fin 16) (active : Bool) : float n active ≠ .sr := by
  cases active <;> exact Field.noConfusion

theorem float_ne_fpscr (n : Fin 16) (active : Bool) : float n active ≠ .fpscr := by
  cases active <;> exact Field.noConfusion

theorem otherBank_ne_sr {f : Field} (h : f ≠ .sr) : f.otherBank ≠ .sr := by
  cases f with
  | r n => revert n; decide
  | ralt n => exact Field.noConfusion
  | _ => exact h

theorem otherFloatBank_ne_fpscr {f : Field} (h : f ≠ .fpscr) : f.otherFloatBank ≠ .fpscr := by
  cases f with
  | fr n | xf n => exact Field.noConfusion
  | _ => exact h

section
variable {mask : UInt32} {other : Field → Field} (old new : UInt32)

theorem exchanged_of_fixed {f : Field} (h : other f = f) : exchanged mask other old new f = f := by
  unfold exchanged
  split
  · exact h
  · rfl

theorem exchanged_ne {f f' : Field} (h : f ≠ f') (hother : other f ≠ f') :
    exchanged mask other old new f ≠ f' := by
  unfold exchanged
  split
  · exact hother
  · exact h

theorem exchanged_exchanged (h : ∀ f, other (other f) = f) (f : Field) :
    exchanged mask other old new (exchanged mask other new old f) = f := by
  unfold exchanged
  rw [UInt32.xor_comm old new]
  split
  · exact h f
  · rfl

theorem exchanged_notMem_entryWords {f : Field} (h : f ∉ entryWords) :
    f.exchanged mask otherBank old new ∉ entryWords := by
  unfold exchanged
  split
  · exact otherBank_notMem_entryWords h
  · exact h

/-- A register of a bank that is active if the bit in the mask is `b` is found again. -/
theorem exchanged_place {k : Nat} (hmask : mask.toNat = 2 ^ k) {place : Bool → Field}
    (h : ∀ active, other (place active) = place (!active)) (b : Bool) :
    exchanged mask other old new (place (decide (new &&& mask ≠ 0) == b)) =
      place (decide (old &&& mask ≠ 0) == b) := by
  unfold exchanged
  rw [if_congr (xor_and_ne_zero_iff hmask new old) rfl rfl, h]
  cases decide (new &&& mask ≠ 0) <;> cases decide (old &&& mask ≠ 0) <;> cases b <;> rfl

end

theorem foldr_swap_general (f : Field) : (List.finRange 8).foldr
    (fun n f => Equiv.swap (r (n.castLE (by decide))) (ralt n) f) f = f.otherBank := by
  cases f with
  | r n | ralt n | fr n | xf n => revert n; decide
  | _ => decide

theorem foldr_swap_float (f : Field) : (List.finRange 16).foldr
    (fun n f => Equiv.swap (fr n) (xf n) f) f = f.otherFloatBank := by
  cases f with
  | r n | ralt n | fr n | xf n => revert n; decide
  | _ => decide

end Field

namespace Context

variable {c c' c'' : Context}

/-! ### Exchanges -/

section
variable (hc : c.size = 4 * Field.all.length)
include hc

theorem get_swap (a b f : Field) : get (swap c a b) f = get c (Equiv.swap a b f) := by
  unfold swap
  have hsize : (set c a (get c b)).size = 4 * Field.all.length := by rw [size_set, hc]
  by_cases hb : f = b
  · subst hb
    rw [get_set_same _ hsize, Equiv.swap_apply_right]
  rw [get_set_ne _ hb]
  by_cases ha : f = a
  · subst ha
    rw [get_set_same _ hc, Equiv.swap_apply_left]
  · rw [get_set_ne _ ha, Equiv.swap_apply_of_ne_of_ne ha hb]

/-- After exchanges one after another, a word is found by undoing them from the last to the
first. -/
theorem get_foldl_swap {ι : Type} (a b : ι → Field) (l : List ι) (f : Field) :
    get (l.foldl (fun c i => swap c (a i) (b i)) c) f =
      get c (l.foldr (fun i f => Equiv.swap (a i) (b i) f) f) := by
  induction l generalizing c with
  | nil => rfl
  | cons i l ih =>
    have hsize : (swap c (a i) (b i)).size = 4 * Field.all.length := by rw [size_swap, hc]
    rw [List.foldl_cons, ih hsize, get_swap hc, List.foldr_cons]

theorem get_swapBanks (f : Field) : get (swapBanks c) f = get c f.otherBank := by
  rw [swapBanks, get_foldl_swap hc, Field.foldr_swap_general]

theorem get_swapFloatBanks (f : Field) : get (swapFloatBanks c) f = get c f.otherFloatBank := by
  rw [swapFloatBanks, get_foldl_swap hc, Field.foldr_swap_float]

/-! ### Status registers -/

omit hc in
theorem get_setT (c : Context) {f : Field} (h : f ≠ .sr) (on : Bool) :
    get (setT c on) f = get c f := by
  rw [setT, get_set_ne _ h]

/-- Reading behind a write of a status register that exchanges banks when a bit changes. -/
theorem get_updated {mask : UInt32} {other : Field → Field} {exchange : Context → Context}
    (hexchange : ∀ {c : Context}, c.size = 4 * Field.all.length →
      ∀ f, get (exchange c) f = get c (other f))
    {reg : Field} (hreg : other reg = reg) (hother : ∀ {f}, f ≠ reg → other f ≠ reg)
    (v : UInt32) (f : Field) :
    get (if (get (set c reg v) reg ^^^ get c reg) &&& mask ≠ 0 then exchange (set c reg v)
      else set c reg v) f =
        if f = reg then v else get c (f.exchanged mask other (get c reg) v) := by
  have hsize : (set c reg v).size = 4 * Field.all.length := by rw [size_set, hc]
  have hplace : get (if (get (set c reg v) reg ^^^ get c reg) &&& mask ≠ 0 then
      exchange (set c reg v) else set c reg v) f =
        get (set c reg v) (f.exchanged mask other (get c reg) v) := by
    unfold Field.exchanged
    rw [get_set_same _ hc]
    split
    · exact hexchange hsize f
    · rfl
  rw [hplace]
  split
  case isTrue h =>
    subst h
    rw [Field.exchanged_of_fixed _ _ hreg, get_set_same _ hc]
  case isFalse h => rw [get_set_ne _ (Field.exchanged_ne _ _ h (hother h))]

theorem get_setSr (v : UInt32) (f : Field) : get (setSr c v) f =
    if f = .sr then v else get c (f.exchanged srRb Field.otherBank (get c .sr) v) :=
  get_updated hc get_swapBanks rfl Field.otherBank_ne_sr v f

theorem get_setFpscr (v : UInt32) (f : Field) : get (setFpscr c v) f =
    if f = .fpscr then v
    else get c (f.exchanged fpscrFr Field.otherFloatBank (get c .fpscr) v) :=
  get_updated hc get_swapFloatBanks rfl Field.otherFloatBank_ne_fpscr v f

/-- A word that the general banks do not hold. -/
theorem get_setSr_of_fixed {f : Field} (hf : f ≠ .sr) (h : f.otherBank = f) (v : UInt32) :
    get (setSr c v) f = get c f := by
  rw [get_setSr hc, if_neg hf, Field.exchanged_of_fixed _ _ h]

/-- A word that the float banks do not hold. -/
theorem get_setFpscr_of_fixed {f : Field} (hf : f ≠ .fpscr) (h : f.otherFloatBank = f)
    (v : UInt32) :
    get (setFpscr c v) f = get c f := by
  rw [get_setFpscr hc, if_neg hf, Field.exchanged_of_fixed _ _ h]

/-! ### Exceptions -/

/-- The context with what an exception saves. -/
def recorded (c : Context) (spc : UInt32) : Context :=
  set (set (set c .spc spc) .ssr (get c .sr)) .sgr (get c (.r 15))

/-- The status that an exception sets. -/
def exceptionSr (c : Context) : UInt32 := get c .sr ||| srMd ||| srRb ||| srBl

omit hc in
theorem size_recorded (spc : UInt32) : (recorded c spc).size = c.size := by
  simp only [recorded, size_set]

omit hc in
theorem get_recorded {f : Field} (h : f ∉ Field.entryWords) (spc : UInt32) :
    get (recorded c spc) f = get c f := by
  obtain ⟨-, hspc, hssr, hsgr⟩ := Field.notMem_entryWords.mp h
  rw [recorded, get_set_ne _ hsgr, get_set_ne _ hssr, get_set_ne _ hspc]

omit hc in
theorem enterException_eq (spc vector : UInt32) : enterException c spc vector =
    set (setSr (recorded c spc) (exceptionSr c)) .pc
      (get (setSr (recorded c spc) (exceptionSr c)) .vbr + vector) := by
  have hsr : get (recorded c spc) .sr = get c .sr := get_recorded (by decide) spc
  have hrecorded : set (set (set c .spc spc) .ssr (get (set c .spc spc) .sr)) .sgr
      (get (set (set c .spc spc) .ssr (get (set c .spc spc) .sr)) (.r 15)) = recorded c spc := by
    rw [get_set_ne _ Field.noConfusion, get_set_ne _ Field.noConfusion, get_set_ne _ (by decide),
      recorded]
  unfold enterException
  dsimp only
  rw [hrecorded, hsr, exceptionSr]

/-- What an exception does not save or set is exchanged with the banks at most. -/
theorem get_enterException {f : Field} (h : f ∉ Field.entryWords) (hf : f ≠ .sr)
    (spc vector : UInt32) :
    get (enterException c spc vector) f =
      get c (f.exchanged srRb Field.otherBank (get c .sr) (exceptionSr c)) := by
  have hsize : (recorded c spc).size = 4 * Field.all.length := by rw [size_recorded, hc]
  have hsr : get (recorded c spc) .sr = get c .sr := get_recorded (by decide) spc
  rw [enterException_eq, get_set_ne _ (Field.notMem_entryWords.mp h).1, get_setSr hsize, if_neg hf,
    hsr, get_recorded (Field.exchanged_notMem_entryWords _ _ h)]

/-- A word that the general banks do not hold. -/
theorem get_enterException_of_fixed {f : Field} (h : f ∉ Field.entryWords) (hf : f ≠ .sr)
    (hfixed : f.otherBank = f) (spc vector : UInt32) :
    get (enterException c spc vector) f = get c f := by
  rw [get_enterException hc h hf, Field.exchanged_of_fixed _ _ hfixed]

theorem get_enterException_pc (spc vector : UInt32) :
    get (enterException c spc vector) .pc = get c .vbr + vector := by
  have hsize : (recorded c spc).size = 4 * Field.all.length := by rw [size_recorded, hc]
  rw [enterException_eq, get_set_same _ (by rw [size_setSr, hsize]),
    get_setSr_of_fixed hsize (by decide) rfl, get_recorded (by decide)]

theorem get_enterException_sr (spc vector : UInt32) :
    get (enterException c spc vector) .sr = exceptionSr c := by
  have hsize : (recorded c spc).size = 4 * Field.all.length := by rw [size_recorded, hc]
  rw [enterException_eq, get_set_ne _ (by decide), get_setSr hsize, if_pos rfl]

theorem get_enterException_ssr (spc vector : UInt32) :
    get (enterException c spc vector) .ssr = get c .sr := by
  have hsize : (recorded c spc).size = 4 * Field.all.length := by rw [size_recorded, hc]
  have hsize' : (set c .spc spc).size = 4 * Field.all.length := by rw [size_set, hc]
  rw [enterException_eq, get_set_ne _ (by decide),
    get_setSr_of_fixed hsize (by decide) rfl, recorded,
    get_set_ne _ (by decide), get_set_same _ hsize']

theorem get_enterException_spc (spc vector : UInt32) :
    get (enterException c spc vector) .spc = spc := by
  have hsize : (recorded c spc).size = 4 * Field.all.length := by rw [size_recorded, hc]
  rw [enterException_eq, get_set_ne _ (by decide),
    get_setSr_of_fixed hsize (by decide) rfl, recorded,
    get_set_ne _ (by decide), get_set_ne _ (by decide), get_set_same _ hc]

/-- Setting the status register back after an exception gives back every word that the exception
did not save something in. -/
theorem get_setSr_enterException {f : Field} (h : f ∉ Field.entryWords) (spc vector : UInt32) :
    get (setSr (enterException c spc vector) (get c .sr)) f = get c f := by
  have hsize : (enterException c spc vector).size = 4 * Field.all.length := by
    rw [size_enterException, hc]
  rw [get_setSr hsize]
  split
  case isTrue hf => rw [hf]
  case isFalse hf =>
    rw [get_enterException_sr hc, get_enterException hc (Field.exchanged_notMem_entryWords _ _ h)
      (Field.exchanged_ne _ _ hf (Field.otherBank_ne_sr hf)),
      Field.exchanged_exchanged _ _ Field.otherBank_otherBank]

end

/-! ### Banks -/

/-- Whether the second general bank is active. -/
def bankBit (c : Context) : Bool := get c .sr &&& srRb ≠ 0

/-- Whether the second float bank is active. -/
def floatBit (c : Context) : Bool := get c .fpscr &&& fpscrFr ≠ 0

/-- A register of a general bank, held where the status register says. -/
def bank (c : Context) (b : Bool) (n : Fin 8) : UInt32 := get c (.general n (bankBit c == b))

/-- A register of a float bank, held where the float status register says. -/
def floatBank (c : Context) (b : Bool) (n : Fin 16) : UInt32 := get c (.float n (floatBit c == b))

/-- The banks hold the same, and so do the registers that have no banks. -/
structure SameBanks (c c' : Context) : Prop where
  bank_eq : ∀ b n, bank c' b n = bank c b n
  floatBank_eq : ∀ b n, floatBank c' b n = floatBank c b n
  upper_eq : ∀ n : Fin 16, 8 ≤ n.val → get c' (.r n) = get c (.r n)

namespace SameBanks

theorem refl (c : Context) : SameBanks c c := ⟨fun _ _ => rfl, fun _ _ => rfl, fun _ _ => rfl⟩

theorem trans (h : SameBanks c c') (h' : SameBanks c' c'') : SameBanks c c'' where
  bank_eq b n := (h'.bank_eq b n).trans (h.bank_eq b n)
  floatBank_eq b n := (h'.floatBank_eq b n).trans (h.floatBank_eq b n)
  upper_eq n hn := (h'.upper_eq n hn).trans (h.upper_eq n hn)

/-- A change of other words that leaves the choice of the banks alone. -/
theorem of_registers (hbank : bankBit c' = bankBit c) (hfloat : floatBit c' = floatBit c)
    (hr : ∀ n, get c' (.r n) = get c (.r n)) (hralt : ∀ n, get c' (.ralt n) = get c (.ralt n))
    (hfr : ∀ n, get c' (.fr n) = get c (.fr n)) (hxf : ∀ n, get c' (.xf n) = get c (.xf n)) :
    SameBanks c c' where
  bank_eq b n := by
    unfold bank Field.general
    rw [hbank]
    split
    · exact hr _
    · exact hralt _
  floatBank_eq b n := by
    unfold floatBank Field.float
    rw [hfloat]
    split
    · exact hfr _
    · exact hxf _
  upper_eq n _ := hr n

/-- Writing a word that an exception writes. -/
theorem set {f : Field} (h : f ∈ Field.entryWords ++ Field.eventWords) (v : UInt32) :
    SameBanks c (set c f v) := by
  have hget {f' : Field} (h' : f' ∉ Field.entryWords ++ Field.eventWords) :
      get (Context.set c f v) f' = get c f' :=
    get_set_ne c (by rintro rfl; exact h' h) v
  refine of_registers ?_ ?_ (fun n => hget ?_) (fun n => hget ?_) (fun n => hget ?_)
    fun n => hget ?_
  · unfold bankBit
    rw [hget (by decide)]
  · unfold floatBit
    rw [hget (by decide)]
  all_goals simp [Field.entryWords, Field.eventWords]

section
variable (hc : c.size = 4 * Field.all.length)
include hc

theorem setT (on : Bool) : SameBanks c (setT c on) := by
  have hget {f : Field} (h : f ≠ .sr) := get_setT c h on
  refine of_registers ?_ ?_ (fun _ => hget Field.noConfusion) (fun _ => hget Field.noConfusion)
    (fun _ => hget Field.noConfusion) fun _ => hget Field.noConfusion
  · unfold bankBit Context.setT
    rw [get_set_same c hc, decide_eq_decide, or_and_ne_zero_iff toNat_srRb _ _
      (by cases on <;> decide),
      UInt32.and_assoc]
    rfl
  · unfold floatBit
    rw [hget (by decide)]

theorem setSr (v : UInt32) : SameBanks c (setSr c v) where
  bank_eq b n := by
    have hbit : bankBit (Context.setSr c v) = decide (v &&& srRb ≠ 0) := by
      rw [bankBit, get_setSr hc, if_pos rfl]
    rw [bank, hbit, get_setSr hc, if_neg (Field.general_ne_sr n _),
      Field.exchanged_place _ _ toNat_srRb (Field.otherBank_general n)]
    rfl
  floatBank_eq b n := by
    have hbit : floatBit (Context.setSr c v) = floatBit c := by
      rw [floatBit, get_setSr_of_fixed hc (by decide) rfl, floatBit]
    rw [floatBank, hbit, get_setSr_of_fixed hc (Field.float_ne_sr n _) (Field.otherBank_float n _),
      floatBank]
  upper_eq _ hn := get_setSr_of_fixed hc Field.noConfusion (Field.otherBank_upper hn) v

theorem setFpscr (v : UInt32) : SameBanks c (setFpscr c v) where
  bank_eq b n := by
    have hbit : bankBit (Context.setFpscr c v) = bankBit c := by
      rw [bankBit, get_setFpscr_of_fixed hc (by decide) rfl, bankBit]
    rw [bank, hbit, get_setFpscr_of_fixed hc (Field.general_ne_fpscr n _)
      (Field.otherFloatBank_general n _), bank]
  floatBank_eq b n := by
    have hbit : floatBit (Context.setFpscr c v) = decide (v &&& fpscrFr ≠ 0) := by
      rw [floatBit, get_setFpscr hc, if_pos rfl]
    rw [floatBank, hbit, get_setFpscr hc, if_neg (Field.float_ne_fpscr n _),
      Field.exchanged_place _ _ toNat_fpscrFr (Field.otherFloatBank_float n)]
    rfl
  upper_eq _ _ := get_setFpscr_of_fixed hc Field.noConfusion rfl v

theorem enterException (spc vector : UInt32) : SameBanks c (enterException c spc vector) := by
  have hsize : (recorded c spc).size = 4 * Field.all.length := by rw [size_recorded, hc]
  have hrecorded : SameBanks c (recorded c spc) :=
    .trans (.trans (.set (by decide) spc) (.set (by decide) (get c .sr)))
      (.set (by decide) (get c (.r 15)))
  rw [enterException_eq]
  exact .trans (.trans hrecorded (.setSr hsize _)) (.set (by decide) _)

end
end SameBanks
end Context
end Recompiler.Sh4
