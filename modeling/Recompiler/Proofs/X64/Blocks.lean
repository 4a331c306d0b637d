import Recompiler.Proofs.IR.WellFormed
import Recompiler.Proofs.X64.Emission

/-!
Blocks of machine code in their buffer. A block is written behind all others and is not written to
again, so the blocks that are live lie side by side. An assembly that is refused leaves no trace:
what it wrote lies behind the write position again, and it never wrote before that.
-/
namespace Recompiler

open IR

/-! ### Places of code -/

section
variable {α : Type} (a : Array (Option α))

theorem join_setIfInBounds {n : Nat} (h : n < a.size) (x : Option α) (k : Nat) :
    ((a.setIfInBounds n x)[k]?).join = if k = n then x else (a[k]?).join := by
  rw [Array.getElem?_setIfInBounds]
  by_cases hk : k = n
  · rw [if_pos hk.symm, if_pos h, if_pos hk]
    rfl
  · rw [if_neg (Ne.symm hk), if_neg hk]

theorem join_setIfInBounds_none (n k : Nat) :
    ((a.setIfInBounds n none)[k]?).join = if k = n then none else (a[k]?).join := by
  by_cases h : n < a.size
  · exact join_setIfInBounds a h none k
  · rw [Array.setIfInBounds_eq_of_size_le (Nat.le_of_not_lt h)]
    by_cases hk : k = n
    · rw [if_pos hk, Array.getElem?_eq_none (by omega)]
      rfl
    · rw [if_neg hk]

theorem join_push (x : Option α) (k : Nat) :
    ((a.push x)[k]?).join = if k = a.size then x else (a[k]?).join := by
  rw [Array.getElem?_push]
  split
  · rfl
  · rfl

theorem join_size : (a[a.size]?).join = none := by
  rw [Array.getElem?_eq_none (Nat.le_refl _)]
  rfl

end

namespace X64.Backend

variable {b b' : Backend}

/-- What assembly does to the buffer and the table. Without a frame for the fragment it does
nothing. A refusal winds back a buffer in which all older bytes are left; otherwise the linked code
of the fragment is one more block. -/
theorem assemble_cases (b : Backend) (addr : UInt32) (f : Fragment) :
    (∃ e, b.assemble addr f = (b, .error (.fault e))) ∨
    ∃ buffer, CodeBuffer.Keeps b.buffer buffer ∧
      ((∃ r, b.assemble addr f = ({ b with buffer := buffer.rewound b.used }, .error r)) ∨
      (buffer.overflowed = false ∧
        b.assemble addr f =
          ({ b with buffer, blocks := b.blocks.push (some ⟨addr, b.used, buffer.offset - b.used⟩) },
            .ok b.blocks.size) ∧
        ∃ code, b.instructions f = .ok code ∧
          CodeBuffer.Appends b.buffer buffer (code.flatMap Instruction.pieces).flatten)) := by
  unfold assemble
  cases hc : Lowering.ofFragment b.offsets f with
  | error e => exact .inl ⟨e, rfl⟩
  | ok c =>
    have hkeeps := Emission.keeps_generate b.buffer c.parts
    have happends := @Emission.appends_generate b.buffer c.parts
    dsimp only
    generalize Emission.generate { buffer := b.buffer } c.parts = outcome at hkeeps happends ⊢
    obtain ⟨e, r⟩ := outcome
    refine .inr ⟨e.buffer, hkeeps, ?_⟩
    cases r with
    | error r => exact .inl ⟨r, rfl⟩
    | ok u =>
      dsimp only
      split
      case isTrue => exact .inl ⟨_, rfl⟩
      case isFalse hover =>
        have hfits : e.buffer.overflowed = false := Bool.not_eq_true _ ▸ hover
        obtain ⟨as, code, has, hcode, happended⟩ := happends rfl hfits
        exact .inr ⟨hfits, rfl, code, instructions_eq hc has hcode, happended⟩

/-! ### Requests -/

/-- A request to the backend. -/
inductive Request where
  | assemble (guestAddr : UInt32) (f : Fragment)
  | free (handle : Nat)
  | reset

/-- Whether a request leaves the blocks where they are. -/
def Request.keepsBlocks : Request → Bool
  | reset => false
  | _ => true

/-- The backend after a request, whether it succeeds or is refused. Only a fault gives none. -/
def Request.serve (b : Backend) : Request → Except Fault Backend
  | assemble addr f =>
    match b.assemble addr f with
    | (_, .error (.fault e)) => .error e
    | (b, _) => .ok b
  | free handle => .ok (b.free handle)
  | reset => .ok b.reset

theorem serve_assemble {addr : UInt32} {f : Fragment}
    (h : (Request.assemble addr f).serve b = .ok b') : (b.assemble addr f).1 = b' := by
  unfold Request.serve at h
  simp only at h
  split at h
  case h_1 => cases h
  case h_2 b₁ r heq =>
    cases h
    rw [heq]

/-! ### Places -/

/-- The live blocks lie side by side before the write position, and nothing is marked. -/
structure Laid (b : Backend) : Prop where
  below : ∀ handle s, b.stored? handle = some s → s.offset + s.size ≤ b.used
  disjoint : ∀ handle handle' s s', b.stored? handle = some s → b.stored? handle' = some s' →
    handle ≠ handle' → s.offset + s.size ≤ s'.offset ∨ s'.offset + s'.size ≤ s.offset
  unmarked : b.buffer.overflowed = false

theorem laid_empty (h : ∀ handle, b.stored? handle = none) (hmark : b.buffer.overflowed = false) :
    Laid b where
  below handle s hs := by
    rw [h] at hs
    cases hs
  disjoint handle handle' s s' hs := by
    rw [h] at hs
    cases hs
  unmarked := hmark

theorem stored?_free (b : Backend) (handle n : Nat) :
    (b.free handle).stored? n = if n = handle then none else b.stored? n :=
  join_setIfInBounds_none b.blocks handle n

theorem stored?_push {x : Option Stored} {buffer : CodeBuffer} (n : Nat) :
    ({ b with buffer, blocks := b.blocks.push x } : Backend).stored? n =
      if n = b.blocks.size then x else b.stored? n :=
  join_push b.blocks x n

theorem Laid.free (h : Laid b) (handle : Nat) : Laid (b.free handle) := by
  have hstored : ∀ n s, (b.free handle).stored? n = some s → b.stored? n = some s := by
    intro n s hs
    rw [stored?_free] at hs
    split at hs
    · cases hs
    · exact hs
  exact ⟨fun n s hs => h.below n s (hstored n s hs), fun n n' s s' hs hs' =>
    h.disjoint n n' s s' (hstored n s hs) (hstored n' s' hs'), h.unmarked⟩

theorem Laid.assemble (h : Laid b) (addr : UInt32) (f : Fragment) :
    Laid (b.assemble addr f).1 := by
  obtain ⟨e, heq⟩ | ⟨buffer, hkeeps, ⟨r, heq⟩ | ⟨hfits, heq, -⟩⟩ := b.assemble_cases addr f
  · rw [heq]
    exact h
  · rw [heq]
    exact ⟨h.below, h.disjoint, rfl⟩
  · rw [heq]
    have hle : b.used ≤ buffer.offset := hkeeps.offset_le
    refine ⟨fun n s hs => ?_, fun n n' s s' hs hs' hne => ?_, hfits⟩
    · rw [stored?_push] at hs
      split at hs
      · cases hs
        exact Nat.le_of_eq (Nat.add_sub_cancel' hle)
      · exact Nat.le_trans (h.below n s hs) hle
    · -- The new block begins where all others end.
      rw [stored?_push] at hs hs'
      split at hs
      case isTrue hn =>
        cases hs
        rw [if_neg fun hn' => hne (hn.trans hn'.symm)] at hs'
        exact .inr (h.below n' s' hs')
      case isFalse hn =>
        split at hs'
        · cases hs'
          exact .inl (h.below n s hs)
        · exact h.disjoint n n' s s' hs hs' hne

theorem Laid.serve (h : Laid b) {r : Request} (hr : r.serve b = .ok b') : Laid b' := by
  cases r with
  | assemble addr f =>
    rw [← serve_assemble hr]
    exact h.assemble addr f
  | free handle =>
    cases hr
    exact h.free handle
  | reset =>
    cases hr
    exact laid_empty (fun _ => rfl) rfl

theorem Laid.serveAll (h : Laid b) {rs : List Request} (hrs : rs.foldlM Request.serve b = .ok b') :
    Laid b' := by
  induction rs generalizing b with
  | nil =>
    cases hrs
    exact h
  | cons r rs ih =>
    rw [List.foldlM_cons] at hrs
    obtain ⟨b₁, hr, hrs⟩ := Interp.bind_eq_ok hrs
    exact ih (h.serve hr) hrs

/-! ### Bytes -/

/-- A block stays behind its handle until it is freed, and its bytes stay in any case. -/
structure Lasts (handle : Nat) (s : Stored) (b b' : Backend) : Prop where
  known : handle < b'.blocks.size
  below : s.offset + s.size ≤ b'.used
  stored : b'.stored? handle = some s ∨ b'.stored? handle = none
  bytes : b'.buffer.view s.offset (s.offset + s.size) = b.buffer.view s.offset (s.offset + s.size)

variable {handle : Nat} {s : Stored} {b₀ : Backend}

theorem Lasts.free (h : Lasts handle s b₀ b) (n : Nat) : Lasts handle s b₀ (b.free n) := by
  refine ⟨?_, h.below, ?_, h.bytes⟩
  · unfold Backend.free
    rw [Array.size_setIfInBounds]
    exact h.known
  · rw [stored?_free]
    split
    · exact .inr rfl
    · exact h.stored

theorem Lasts.assemble (h : Lasts handle s b₀ b) (addr : UInt32) (f : Fragment) :
    Lasts handle s b₀ (b.assemble addr f).1 := by
  obtain ⟨e, heq⟩ | ⟨buffer, hkeeps, ⟨r, heq⟩ | ⟨-, heq, -⟩⟩ := b.assemble_cases addr f
  · rw [heq]
    exact h
  · rw [heq]
    exact ⟨h.known, h.below, h.stored, (hkeeps.view_eq h.below).trans h.bytes⟩
  · rw [heq]
    refine ⟨?_, Nat.le_trans h.below hkeeps.offset_le, ?_, (hkeeps.view_eq h.below).trans h.bytes⟩
    · rw [Array.size_push]
      exact Nat.lt_succ_of_lt h.known
    · rw [stored?_push, if_neg (Nat.ne_of_lt h.known)]
      exact h.stored

theorem Lasts.serve (h : Lasts handle s b₀ b) {r : Request} (hkeep : r.keepsBlocks)
    (hr : r.serve b = .ok b') : Lasts handle s b₀ b' := by
  cases r with
  | assemble addr f =>
    rw [← serve_assemble hr]
    exact h.assemble addr f
  | free n =>
    cases hr
    exact h.free n
  | reset => cases hkeep

theorem Lasts.serveAll (h : Lasts handle s b₀ b) {rs : List Request}
    (hkeep : ∀ r ∈ rs, r.keepsBlocks) (hrs : rs.foldlM Request.serve b = .ok b') :
    Lasts handle s b₀ b' := by
  induction rs generalizing b with
  | nil =>
    cases hrs
    exact h
  | cons r rs ih =>
    rw [List.foldlM_cons] at hrs
    obtain ⟨b₁, hr, hrs⟩ := Interp.bind_eq_ok hrs
    have hfirst := h.serve (hkeep r List.mem_cons_self) hr
    exact ih hfirst (fun r hr => hkeep r (List.mem_cons_of_mem _ hr)) hrs

theorem Laid.lasts (h : Laid b) (hs : b.stored? handle = some s) : Lasts handle s b b where
  known := by
    by_contra hle
    unfold stored? at hs
    rw [Array.getElem?_eq_none (Nat.le_of_not_lt hle)] at hs
    cases hs
  below := h.below handle s hs
  stored := .inl hs
  bytes := rfl

/-- After any requests to a new backend of any capacity, the live blocks lie side by side before the
write position. Whatever is assembled or freed from there on, the bytes of a live block stay as they
are, and the block stays behind its handle until it is freed. An assembly that ends with an error
leaves the write position, the mark, the table and all bytes before the write position alone. -/
theorem blocks_undisturbed (offsets : Offsets) (size : Nat) (rs : List Request)
    (hrs : rs.foldlM Request.serve (ofCapacity offsets size) = .ok b) :
    (∀ handle s, b.stored? handle = some s → s.offset + s.size ≤ b.used ∧
      ∀ handle' s', b.stored? handle' = some s' → handle ≠ handle' →
        s.offset + s.size ≤ s'.offset ∨ s'.offset + s'.size ≤ s.offset) ∧
    (∀ (later : List Request) b', (∀ r ∈ later, r.keepsBlocks) →
      later.foldlM Request.serve b = .ok b' →
      ∀ handle s, b.stored? handle = some s →
        (b'.stored? handle = some s ∨ b'.stored? handle = none) ∧
        b'.buffer.view s.offset (s.offset + s.size) = b.buffer.view s.offset (s.offset + s.size)) ∧
    ∀ addr f b' e, b.assemble addr f = (b', .error (.error e)) →
      b'.used = b.used ∧ b'.buffer.overflowed = b.buffer.overflowed ∧ b'.blocks = b.blocks ∧
      ∀ n < b.used, b'.buffer.bytes.getD n 0 = b.buffer.bytes.getD n 0 := by
  have hlaid : Laid b := (laid_empty (fun _ => rfl) rfl).serveAll hrs
  refine ⟨fun handle s hs => ⟨hlaid.below handle s hs, fun handle' s' hs' =>
    hlaid.disjoint handle handle' s s' hs hs'⟩, ?_, ?_⟩
  · intro later b' hkeep hlater handle s hs
    have hlasts := (hlaid.lasts hs).serveAll hkeep hlater
    exact ⟨hlasts.stored, hlasts.bytes⟩
  · intro addr f b' e he
    obtain ⟨e', heq⟩ | ⟨buffer, hkeeps, ⟨r, heq⟩ | ⟨-, heq, -⟩⟩ := b.assemble_cases addr f
    · rw [heq] at he
      cases he
    · rw [heq] at he
      cases he
      exact ⟨rfl, hlaid.unmarked.symm, rfl, hkeeps.before⟩
    · rw [heq] at he
      cases he

/-- A jump to the second block, which leaves. -/
def hop : Fragment where
  values := #[{ ty := .blk, origin := .constant (.blk ⟨1⟩) },
    { ty := .i32, origin := .constant (.i32 0x100) }]
  instrs := #[{ op := .branch, args := slots (some ⟨0⟩), block := ⟨0⟩ },
    { op := .branch, args := slots (some ⟨1⟩), block := ⟨1⟩ }]
  blocks := #[{ head := some ⟨0⟩, tail := some ⟨0⟩ }, { head := some ⟨1⟩, tail := some ⟨1⟩ }]
  order := [⟨0⟩, ⟨1⟩]

/-- Two blocks are assembled, the first one is freed and a third one assembled. -/
def hops : List Request := [.assemble 0 hop, .assemble 4 hop, .free 0, .assemble 8 hop]

theorem blocks_undisturbed_hops : ∃ b s s',
    hops.foldlM Request.serve (ofCapacity ⟨0, 4, 8, 12⟩ 4096) = .ok b ∧ b.stored? 1 = some s ∧
    b.stored? 2 = some s' ∧ s.size = 62 ∧ s'.offset + s'.size ≤ b.used ∧
    (s.offset + s.size ≤ s'.offset ∨ s'.offset + s'.size ≤ s.offset) ∧
    ∀ b', [Request.free 1, .assemble 12 hop].foldlM Request.serve b = .ok b' →
      b'.buffer.view s.offset (s.offset + s.size) = b.buffer.view s.offset (s.offset + s.size) := by
  have hrun : (hops.foldlM Request.serve (ofCapacity ⟨0, 4, 8, 12⟩ 4096)).toOption.map
      (fun b => ((b.stored? 1).map Stored.size, (b.stored? 2).isSome)) = some (some 62, true) := by
    decide +kernel
  obtain ⟨b, hb, h⟩ := Interp.eq_ok_of_toOption hrun
  obtain ⟨hplaces, hlater, -⟩ := blocks_undisturbed ⟨0, 4, 8, 12⟩ 4096 hops hb
  simp only [Prod.mk.injEq] at h
  obtain ⟨s, hs, hsize⟩ := Option.map_eq_some_iff.mp h.1
  obtain ⟨s', hs'⟩ := Option.isSome_iff_exists.mp h.2
  refine ⟨b, s, s', hb, hs, hs', hsize, (hplaces 2 s' hs').1, ?_, fun b' hb' => ?_⟩
  · exact (hplaces 1 s hs).2 2 s' hs' (by decide)
  · exact (hlater _ b' (by simp [Request.keepsBlocks]) hb' 1 s hs).2

end X64.Backend
end Recompiler
