import Recompiler.Backend
import Recompiler.Proofs.Interp.Lowering
import Recompiler.Proofs.X64.Blocks

/-!
What runs behind a handle. A backend is seen through one function from handles to images, and each
of its operations changes that function at one handle, or everywhere in a reset. Machine code shares
a buffer, so there it has to be shown that code which is written later leaves the older code alone.
-/
namespace Recompiler

open IR

/-- Code goes to a place that is free. -/
theorem Interp.Backend.store_spec (b : Interp.Backend) (code : Interp.Code) :
    ∃ b' n, b.store code = (b', n) ∧ b.stored? n = none ∧
      ∀ k, b'.stored? k = if k = n then some ⟨code, b.nextAddr⟩ else b.stored? k := by
  unfold Interp.Backend.store
  simp only
  cases hfree : b.blocks.findIdx? (·.isNone) with
  | some n =>
    obtain ⟨hlt, hnone, -⟩ := Array.findIdx?_eq_some_iff_getElem.mp hfree
    refine ⟨_, n, rfl, ?_, join_setIfInBounds b.blocks hlt _⟩
    unfold Interp.Backend.stored?
    rw [Array.getElem?_eq_getElem hlt, Option.isNone_iff_eq_none.mp hnone]
    rfl
  | none => exact ⟨_, _, rfl, join_size b.blocks, join_push b.blocks _⟩

/-! ### Images -/

/-- Code that can be run: the guest address that it was made for, and what runs. -/
inductive Image where
  | ops (code : Interp.Code)
  | bytes (guestAddr : UInt32) (bytes : List UInt8)

def Image.guestAddr : Image → UInt32
  | ops code => code.guestAddr
  | bytes addr _ => addr

namespace Backend

variable {b b' : Backend}

/-- The image behind a handle; there is one if the handle is live. -/
def image? (b : Backend) (handle : Nat) : Option Image :=
  match b with
  | interp b => (b.stored? handle).map fun s => .ops s.code
  | x64 b => (b.stored? handle).map fun s =>
    .bytes s.guestAddr (b.buffer.view s.offset (s.offset + s.size))

/-- The image of a fragment. -/
def imageOf (b : Backend) (addr : UInt32) (f : Fragment) : Assembling Image :=
  match b with
  | interp _ => Image.ops <$> Interp.Code.ofFragment addr f
  | x64 b => (fun code => Image.bytes addr (code.flatMap X64.Instruction.pieces).flatten) <$>
    b.instructions f

/-- Machine code lies before the write position of its buffer. -/
def Packed : Backend → Prop
  | interp _ => True
  | x64 b => ∀ handle s, b.stored? handle = some s → s.offset + s.size ≤ b.buffer.offset

theorem guestAddr_imageOf {addr : UInt32} {f : Fragment} {i : Image}
    (h : b.imageOf addr f = .ok i) : i.guestAddr = addr := by
  cases b with
  | interp b =>
    change Image.ops <$> Interp.Code.ofFragment addr f = _ at h
    rw [← bind_pure_comp] at h
    obtain ⟨code, hcode, h⟩ := Interp.bind_eq_ok h
    obtain ⟨ops, -, hcode⟩ := Interp.bind_eq_ok hcode
    cases h
    cases hcode
    rfl
  | x64 b =>
    change (fun code => Image.bytes addr _) <$> b.instructions f = _ at h
    rw [← bind_pure_comp] at h
    obtain ⟨code, -, h⟩ := Interp.bind_eq_ok h
    cases h
    rfl

/-! ### Operations -/

theorem image?_free (b : Backend) (handle n : Nat) :
    (b.free handle).image? n = if n = handle then none else b.image? n := by
  cases b with
  | interp b =>
    change ((b.free handle).stored? n).map _ = _
    unfold Interp.Backend.stored? Interp.Backend.free
    rw [join_setIfInBounds_none]
    split <;> rfl
  | x64 b =>
    change ((b.free handle).stored? n).map _ = _
    unfold X64.Backend.stored? X64.Backend.free
    rw [join_setIfInBounds_none]
    split <;> rfl

theorem imageOf_free (b : Backend) (handle : Nat) : (b.free handle).imageOf = b.imageOf := by
  cases b <;> rfl

theorem Packed.free (h : b.Packed) (handle : Nat) : (b.free handle).Packed := by
  cases b with
  | interp b => trivial
  | x64 b =>
    intro n s hs
    refine h n s ?_
    unfold X64.Backend.free X64.Backend.stored? at hs
    rw [join_setIfInBounds_none] at hs
    split at hs
    · cases hs
    · exact hs

theorem image?_reset (b : Backend) (n : Nat) : b.reset.image? n = none := by
  cases b <;> rfl

theorem imageOf_reset (b : Backend) : b.reset.imageOf = b.imageOf := by
  cases b <;> rfl

theorem packed_reset (b : Backend) : b.reset.Packed := by
  cases b with
  | interp b => trivial
  | x64 b => exact fun n s hs => by cases hs

/-- Without code there is nothing to overwrite. -/
theorem packed_of_free (h : ∀ handle, b.image? handle = none) : b.Packed := by
  cases b with
  | interp b => trivial
  | x64 b =>
    intro n s hs
    have hnone : (b.stored? n).map _ = none := h n
    rw [hs] at hnone
    cases hnone

/-- The second backend has the image `i` behind `handle`, which was free in the first one. -/
structure Stores (b b' : Backend) (handle : Nat) (i : Image) : Prop where
  free : b.image? handle = none
  image?_eq : ∀ n, b'.image? n = if n = handle then some i else b.image? n

/-- What assembly does: it stores the image of the fragment, or leaves all code as it is. -/
structure Assembles (b : Backend) (addr : UInt32) (f : Fragment) (b' : Backend)
    (r : Assembling Nat) : Prop where
  packed : b'.Packed
  imageOf_eq : b'.imageOf = b.imageOf
  stores : ∀ handle, r = .ok handle → ∃ i, b.imageOf addr f = .ok i ∧ Stores b b' handle i
  keeps : ∀ e, r = .error e → b'.image? = b.image?

theorem assembles_interp (b : Interp.Backend) (addr : UInt32) (f : Fragment) :
    Assembles (interp b) addr f (interp (b.assemble addr f).1) (b.assemble addr f).2 := by
  unfold Interp.Backend.assemble
  cases hcode : Interp.Code.ofFragment addr f with
  | error e =>
    refine ⟨trivial, rfl, fun _ h => ?_, fun _ _ => rfl⟩
    cases h
  | ok code =>
    obtain ⟨b', place, hstore, hfree, hstored⟩ := b.store_spec code
    simp only [hstore]
    refine ⟨trivial, rfl, fun handle h => ?_, fun _ h => ?_⟩
    · cases h
      refine ⟨.ops code, ?_, ?_, fun n => ?_⟩
      · simp only [imageOf, hcode]
        rfl
      · simp only [image?, hfree]
        rfl
      · change (b'.stored? n).map _ = _
        rw [hstored]
        split <;> rfl
    · cases h

theorem assembles_x64 {b : X64.Backend} (h : (x64 b).Packed) (addr : UInt32) (f : Fragment) :
    Assembles (x64 b) addr f (x64 (b.assemble addr f).1) (b.assemble addr f).2 := by
  obtain ⟨e, heq⟩ | ⟨buffer, hkeeps, hcases⟩ := b.assemble_cases addr f
  · rw [heq]
    exact ⟨h, rfl, nofun, fun _ _ => rfl⟩
  have hview : ∀ n s, b.stored? n = some s → Image.bytes s.guestAddr
      (buffer.view s.offset (s.offset + s.size)) = .bytes s.guestAddr
        (b.buffer.view s.offset (s.offset + s.size)) := fun n s hs =>
    congrArg _ (hkeeps.view_eq (h n s hs))
  obtain ⟨r, heq⟩ | ⟨-, heq, code, hcode, happended⟩ := hcases
  · rw [heq]
    refine ⟨h, rfl, fun _ h => ?_, fun _ _ => ?_⟩
    · cases h
    · funext n
      exact Option.map_congr (hview n)
  · rw [heq]
    have hplace : b.used + (buffer.offset - b.used) = buffer.offset :=
      Nat.add_sub_cancel' hkeeps.offset_le
    refine ⟨fun n s hs => ?_, rfl, fun handle h => ?_, fun _ h => ?_⟩
    · rw [X64.Backend.stored?_push] at hs
      split at hs
      · cases hs
        exact Nat.le_of_eq hplace
      · exact Nat.le_trans (h n s hs) hkeeps.offset_le
    · cases h
      refine ⟨.bytes addr (code.flatMap X64.Instruction.pieces).flatten, ?_, ?_, fun n => ?_⟩
      · simp only [imageOf, hcode]
        rfl
      · change (b.stored? b.blocks.size).map _ = none
        rw [show b.stored? b.blocks.size = none from join_size b.blocks]
        rfl
      · dsimp only [image?]
        rw [X64.Backend.stored?_push]
        split
        · simp only [Option.map_some, hplace]
          exact congrArg (fun bytes => some (Image.bytes addr bytes)) happended.written
        · exact Option.map_congr (hview n)
    · cases h

theorem assembles {b : Backend} (h : b.Packed) (addr : UInt32) (f : Fragment) :
    Assembles b addr f (b.assemble addr f).1 (b.assemble addr f).2 := by
  cases b with
  | interp b => exact assembles_interp b addr f
  | x64 b => exact assembles_x64 h addr f

end Backend
end Recompiler
