import Recompiler.Proofs.Bytes
import Recompiler.X64.CodeBuffer

/-!
Writing to the code buffer. A write puts bytes behind the write position or, once the mark is set,
nothing at all; a word that is replaced lies before the write position.
-/
namespace Recompiler.X64.CodeBuffer

variable {b b' b'' : CodeBuffer}

/-- What lies before the write position of the first buffer is the same in the second one. -/
structure Keeps (b b' : CodeBuffer) : Prop where
  offset_le : b.offset ≤ b'.offset
  before : ∀ n < b.offset, b'.bytes.getD n 0 = b.bytes.getD n 0

/-- The second buffer is the first one with bytes appended. -/
structure Appends (b b' : CodeBuffer) (bytes : List UInt8) : Prop extends Keeps b b' where
  offset_eq : b'.offset = b.offset + bytes.length
  written : b'.view b.offset b'.offset = bytes

theorem Keeps.refl (b : CodeBuffer) : Keeps b b := ⟨Nat.le_refl _, fun _ _ => rfl⟩

theorem Keeps.trans (h : Keeps b b') (h' : Keeps b' b'') : Keeps b b'' where
  offset_le := Nat.le_trans h.offset_le h'.offset_le
  before n hn := (h'.before n (Nat.lt_of_lt_of_le hn h.offset_le)).trans (h.before n hn)

theorem view_congr {start stop : Nat}
    (h : ∀ n, start ≤ n → n < stop → b'.bytes.getD n 0 = b.bytes.getD n 0) :
    b'.view start stop = b.view start stop := by
  refine List.map_congr_left fun n hn => h _ (Nat.le_add_right ..) ?_
  have := List.mem_range.mp hn
  omega

theorem Keeps.view_eq (h : Keeps b b') {start stop : Nat} (hstop : stop ≤ b.offset) :
    b'.view start stop = b.view start stop :=
  view_congr fun n _ hn => h.before n (Nat.lt_of_lt_of_le hn hstop)

theorem view_append {start mid stop : Nat} (h : start ≤ mid) (h' : mid ≤ stop) :
    b.view start stop = b.view start mid ++ b.view mid stop := by
  unfold view
  rw [show stop - start = (mid - start) + (stop - mid) by omega, List.range_add, List.map_append,
    List.map_map]
  refine congrArg _ (List.map_congr_left fun n _ => ?_)
  change b.bytes.getD (start + (mid - start + n)) 0 = _
  rw [show start + (mid - start + n) = mid + n by omega]

theorem Appends.refl (b : CodeBuffer) : Appends b b [] :=
  ⟨.refl b, rfl, by simp [view]⟩

theorem Appends.trans {bs bs' : List UInt8} (h : Appends b b' bs) (h' : Appends b' b'' bs') :
    Appends b b'' (bs ++ bs') := by
  refine ⟨h.toKeeps.trans h'.toKeeps, ?_, ?_⟩
  · rw [h'.offset_eq, h.offset_eq, List.length_append]
    omega
  · rw [view_append h.offset_le h'.offset_le, h'.view_eq (Nat.le_refl _), h.written, h'.written]

theorem getD_place (b : CodeBuffer) (pos : Nat) (piece : List UInt8) (n : Nat) :
    (b.place pos piece).bytes.getD n 0 =
      if pos ≤ n ∧ n < pos + piece.length then piece.getD (n - pos) 0 else b.bytes.getD n 0 := by
  have hgrown : (b.bytes ++ Array.replicate (pos + piece.length - b.bytes.size) 0).getD n 0 =
      b.bytes.getD n 0 := by
    rw [Array.getD_eq_getD_getElem?, Array.getD_eq_getD_getElem?, Array.getElem?_append]
    split
    case isTrue => rfl
    case isFalse hn =>
      rw [Array.getElem?_replicate, Array.getElem?_eq_none (Nat.le_of_not_lt hn)]
      split <;> rfl
  unfold place
  rw [Bytes.getD_place, hgrown]
  refine if_congr ?_ rfl rfl
  rw [Array.size_append, Array.size_replicate]
  omega

theorem view_place (b : CodeBuffer) (pos : Nat) (piece : List UInt8) :
    (b.place pos piece).view pos (pos + piece.length) = piece := by
  unfold view
  refine List.ext_getElem (by simp) fun n hn hn' => ?_
  rw [List.getElem_map, List.getElem_range, getD_place, if_pos (by omega),
    show pos + n - pos = n by omega, List.getD_eq_getElem _ _ hn']

theorem appends_place (b : CodeBuffer) (piece : List UInt8) :
    Appends b { b.place b.offset piece with offset := b.offset + piece.length } piece := by
  refine ⟨⟨Nat.le_add_right _ _, fun n hn => ?_⟩, rfl, ?_⟩
  · change (b.place b.offset piece).bytes.getD n 0 = _
    rw [getD_place, if_neg (by omega)]
  · exact view_place b b.offset piece

/-- Whatever is written, older bytes stay; and if all of it fits, it is appended. -/
theorem foldl_write (pieces : Pieces) (b : CodeBuffer) : Keeps b (pieces.foldl write b) ∧
    ((pieces.foldl write b).overflowed = false → Appends b (pieces.foldl write b) pieces.flatten) ∧
    (b.overflowed = true → (pieces.foldl write b).overflowed = true) := by
  induction pieces generalizing b with
  | nil => exact ⟨.refl b, fun _ => .refl b, id⟩
  | cons piece pieces ih =>
    obtain ⟨hkeeps, happends, hover⟩ := ih (b.write piece)
    rw [List.foldl_cons, List.flatten_cons]
    unfold write at hkeeps happends hover ⊢
    split at hkeeps
    case isTrue hfull =>
      rw [if_pos hfull] at happends hover ⊢
      have hmark := hover rfl
      refine ⟨⟨hkeeps.offset_le, hkeeps.before⟩, ?_, fun _ => hmark⟩
      intro h
      exact absurd (hmark.symm.trans h) (by decide)
    case isFalse hfits =>
      rw [if_neg hfits] at happends hover ⊢
      have hplace := appends_place b piece
      refine ⟨hplace.toKeeps.trans hkeeps, fun h => hplace.trans (happends h), ?_⟩
      intro h
      simp [h] at hfits

/-- Pieces that fit are all taken. -/
theorem overflowed_writeAll {pieces : Pieces} (hopen : b.overflowed = false)
    (hroom : b.offset + pieces.flatten.length ≤ b.capacity) :
    (b.writeAll pieces).overflowed = false := by
  induction pieces generalizing b with
  | nil => exact hopen
  | cons piece pieces ih =>
    rw [List.flatten_cons, List.length_append] at hroom
    have hwrite : b.write piece =
        { b.place b.offset piece with offset := b.offset + piece.length } := by
      unfold write
      rw [if_neg]
      simp only [hopen, Bool.false_or, decide_eq_true_eq]
      omega
    change ((b.write piece).writeAll pieces).overflowed = false
    rw [hwrite]
    refine ih hopen ?_
    change b.offset + piece.length + _ ≤ b.capacity
    omega

/-- Pieces that fit are appended. -/
theorem appends_writeAll {pieces : Pieces} (hopen : b.overflowed = false)
    (hroom : b.offset + pieces.flatten.length ≤ b.capacity) :
    Appends b (b.writeAll pieces) pieces.flatten :=
  (foldl_write pieces b).2.1 (overflowed_writeAll hopen hroom)

/-! ### Replacing a word -/

theorem offset_place (b : CodeBuffer) (pos : Nat) (piece : List UInt8) :
    (b.place pos piece).offset = b.offset := rfl

theorem overflowed_place (b : CodeBuffer) (pos : Nat) (piece : List UInt8) :
    (b.place pos piece).overflowed = b.overflowed := rfl

@[simp] theorem offset_overwrite (b : CodeBuffer) (pos : Nat) (v : UInt32) :
    (b.overwrite pos v).offset = b.offset := by
  unfold overwrite
  by_cases h : pos + 4 > b.offset
  · rw [if_pos h]
  · rw [if_neg h, offset_place]

@[simp] theorem overflowed_overwrite (b : CodeBuffer) (pos : Nat) (v : UInt32) :
    (b.overwrite pos v).overflowed = b.overflowed := by
  unfold overwrite
  by_cases h : pos + 4 > b.offset
  · rw [if_pos h]
  · rw [if_neg h, overflowed_place]

theorem length_word (v : UInt32) : (Bytes.ofWord 4 v.toUInt64).length = 4 :=
  Bytes.length_ofWord 4 _

theorem getD_overwrite (b : CodeBuffer) (pos : Nat) (v : UInt32) {n : Nat}
    (hn : n < pos ∨ pos + 4 ≤ n) : (b.overwrite pos v).bytes.getD n 0 = b.bytes.getD n 0 := by
  unfold overwrite
  split
  · rfl
  · rw [getD_place, length_word, if_neg (by omega)]

/-- A word behind the start may be replaced. -/
theorem Keeps.overwrite (h : Keeps b b') {pos : Nat} (hpos : b.offset ≤ pos) (v : UInt32) :
    Keeps b (b'.overwrite pos v) where
  offset_le := by
    rw [offset_overwrite]
    exact h.offset_le
  before n hn := (getD_overwrite b' pos v (.inl (by omega))).trans (h.before n hn)

theorem length_view (b : CodeBuffer) (start stop : Nat) :
    (b.view start stop).length = stop - start := by
  unfold view
  rw [List.length_map, List.length_range]

theorem view_overwrite (b : CodeBuffer) {pos : Nat} (v : UInt32) (h : pos + 4 ≤ b.offset) :
    (b.overwrite pos v).view pos (pos + 4) = Bytes.ofWord 4 v.toUInt64 := by
  have hplace := b.view_place pos (Bytes.ofWord 4 v.toUInt64)
  rw [length_word] at hplace
  unfold overwrite
  rw [if_neg (by omega), hplace]

/-- The bytes after a word among them was replaced. -/
theorem view_overwrite_mid (b : CodeBuffer) {start pos : Nat} (v : UInt32) {x y z : List UInt8}
    (hview : b.view start b.offset = x ++ y ++ z) (hpos : pos = start + x.length)
    (hy : y.length = 4) (hstart : start ≤ b.offset) :
    (b.overwrite pos v).view start b.offset = x ++ Bytes.ofWord 4 v.toUInt64 ++ z := by
  have hlen := congrArg List.length hview
  rw [length_view, List.length_append, List.length_append, hy] at hlen
  have hend : pos + 4 ≤ b.offset := by omega
  have split (c : CodeBuffer) : c.view start b.offset =
      c.view start pos ++ c.view pos (pos + 4) ++ c.view (pos + 4) b.offset := by
    rw [c.view_append (show start ≤ pos + 4 by omega) hend,
      c.view_append (show start ≤ pos by omega) (Nat.le_add_right pos 4)]
  have hsplit := (split b).symm.trans hview
  obtain ⟨hxy, hz⟩ := List.append_inj hsplit (by simp only [List.length_append, length_view]; omega)
  obtain ⟨hx, -⟩ := List.append_inj hxy (by rw [length_view]; omega)
  rw [split, view_overwrite b v hend, view_congr fun n _ hn => getD_overwrite b pos v (.inl hn),
    view_congr fun n hn _ => getD_overwrite b pos v (.inr hn), hx, hz]

end Recompiler.X64.CodeBuffer
