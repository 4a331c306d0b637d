import Recompiler.Proofs.Bytes
import Recompiler.Ram

/-!
Laws of guest memory. Addresses wrap at the size, so bytes at addresses that differ by less than the
size lie in different places, and an aligned access lies in one piece.
-/
namespace Recompiler.Ram

variable {r : Ram} {addr x : UInt32} {bs : List UInt8} {n : Nat}

/-- The size is a power of two that addresses can reach, and the mask belongs to it. -/
structure Formed (r : Ram) : Prop where
  size_eq : ∃ k ≤ 32, r.size = 2 ^ k
  mask_eq : r.mask.toNat = r.size - 1

theorem formed_ofSize (h : ofSize n = .ok r) : r.Formed := by
  unfold ofSize at h
  split at h
  case isTrue hsize =>
    obtain ⟨hpower, hle⟩ := Bool.and_eq_true_iff.mp hsize
    obtain ⟨hpos, hlog⟩ := Bool.and_eq_true_iff.mp hpower
    have hpos := of_decide_eq_true hpos
    have hle : n ≤ 2 ^ 32 := of_decide_eq_true hle
    have hlog : 2 ^ n.log2 = n := by
      rw [← Nat.one_shiftLeft]
      exact of_decide_eq_true hlog
    cases h
    refine ⟨⟨n.log2, ?_, ?_⟩, ?_⟩
    · rw [← hlog] at hle
      exact (Nat.pow_le_pow_iff_right (by decide)).mp hle
    · rw [hlog]
      exact Array.size_replicate
    · change (UInt32.ofNat (n - 1)).toNat = (Array.replicate n 0).size - 1
      rw [UInt32.toNat_ofNat_of_lt' (by change n - 1 < 2 ^ 32; omega), Array.size_replicate]
  case isFalse => cases h

/-! ### Places -/

namespace Formed

variable (h : r.Formed)
include h

theorem size_pos : 0 < r.size := by
  obtain ⟨⟨k, -, hk⟩, -⟩ := h
  rw [hk]
  exact Nat.two_pow_pos k

theorem size_dvd : r.size ∣ 2 ^ 32 := by
  obtain ⟨⟨k, hle, hk⟩, -⟩ := h
  rw [hk]
  exact Nat.pow_dvd_pow 2 hle

theorem index_eq (addr : UInt32) : r.index addr = addr.toNat % r.size := by
  obtain ⟨⟨k, -, hk⟩, hmask⟩ := h
  rw [index, UInt32.toNat_and, hmask, hk, Nat.and_two_pow_sub_one_eq_mod]

theorem index_lt (addr : UInt32) : r.index addr < r.size := by
  rw [h.index_eq]
  exact Nat.mod_lt _ h.size_pos

theorem index_add (addr : UInt32) (k : Nat) :
    r.index (addr + UInt32.ofNat k) = (r.index addr + k) % r.size := by
  rw [h.index_eq, h.index_eq, UInt32.toNat_add, UInt32.toNat_ofNat',
    Nat.mod_mod_of_dvd _ h.size_dvd,
    Nat.add_mod, Nat.mod_mod_of_dvd _ h.size_dvd, ← Nat.add_mod, Nat.mod_add_mod]

/-- Addresses less than the size apart have different places. -/
theorem index_add_ne {j k : Nat} (hne : j ≠ k) (hj : j < r.size) (hk : k < r.size) (addr : UInt32) :
    r.index (addr + UInt32.ofNat j) ≠ r.index (addr + UInt32.ofNat k) := by
  rw [h.index_add, h.index_add]
  intro heq
  have hmod : j % r.size = k % r.size := Nat.ModEq.add_left_cancel' (r.index addr) heq
  rw [Nat.mod_eq_of_lt hj, Nat.mod_eq_of_lt hk] at hmod
  exact hne hmod

end Formed

/-! ### Bytes -/

@[simp] theorem size_load (r : Ram) (addr : UInt32) (bs : List UInt8) :
  (r.load addr bs).size = r.size := by
  induction bs generalizing r addr with
  | nil => rfl
  | cons b bs ih =>
    rw [load, ih]
    exact Array.size_setIfInBounds

@[simp] theorem mask_load (r : Ram) (addr : UInt32) (bs : List UInt8) :
  (r.load addr bs).mask = r.mask := by
  induction bs generalizing r addr with
  | nil => rfl
  | cons b bs ih => rw [load, ih]

@[simp] theorem index_load (r : Ram) (addr x : UInt32) (bs : List UInt8) :
    (r.load addr bs).index x = r.index x := by
  rw [index, mask_load, index]

theorem Formed.load (h : r.Formed) (addr : UInt32) (bs : List UInt8) : (r.load addr bs).Formed where
  size_eq := by
    rw [size_load]
    exact h.size_eq
  mask_eq := by
    rw [size_load, mask_load]
    exact h.mask_eq

theorem Formed.write (h : r.Formed) (addr : UInt32) (n : Nat) (v : UInt64) :
    (r.write addr n v).Formed :=
  h.load addr _

theorem Formed.writeHost (h : r.Formed) (addr : UInt64) (w : Width) (v : UInt64) :
    (r.writeHost addr w v).Formed where
  size_eq := by
    have hsize : (r.writeHost addr w v).size = r.size := Bytes.size_write r.data _ _ _
    rw [hsize]
    exact h.size_eq
  mask_eq := by
    have hsize : (r.writeHost addr w v).size = r.size := Bytes.size_write r.data _ _ _
    rw [hsize]
    exact h.mask_eq

theorem ofNat_succ (addr : UInt32) (k : Nat) :
    addr + UInt32.ofNat (k + 1) = addr + 1 + UInt32.ofNat k := by
  rw [UInt32.ofNat_add, UInt32.add_comm (UInt32.ofNat k), ← UInt32.add_assoc]
  rfl

/-- Writing changes the places of the bytes that are written only. -/
theorem getD_load_of_outside {i : Nat}
    (hout : ∀ k < bs.length, r.index (addr + UInt32.ofNat k) ≠ i) :
    (r.load addr bs).data.getD i 0 = r.data.getD i 0 := by
  induction bs generalizing r addr with
  | nil => rfl
  | cons b bs ih =>
    have hfirst : r.index addr ≠ i := by
      have h := hout 0 (by simp)
      rwa [show addr + UInt32.ofNat 0 = addr from UInt32.add_zero addr] at h
    rw [load, ih]
    · simp [Array.getElem?_setIfInBounds_ne hfirst]
    · intro k hk
      have h := hout (k + 1) (by simpa using hk)
      rwa [ofNat_succ] at h

theorem byte_load_of_outside (hout : ∀ k < bs.length, r.index (addr + UInt32.ofNat k) ≠ r.index x) :
    (r.load addr bs).byte x = r.byte x := by
  rw [byte, index_load, getD_load_of_outside hout, byte]

/-- What is written can be read, if it is no more than the size. -/
theorem Formed.byte_load (h : r.Formed) (addr : UInt32) (hlen : bs.length ≤ r.size) {k : Nat}
    (hk : k < bs.length) : (r.load addr bs).byte (addr + UInt32.ofNat k) = bs.getD k 0 := by
  induction bs generalizing r addr k with
  | nil => simp at hk
  | cons b bs ih =>
    have hset : ({ r with data := r.data.setIfInBounds (r.index addr) b } : Ram) =
      r.load addr [b] := rfl
    have hone : (r.load addr [b]).Formed := h.load addr [b]
    rw [Ram.load, hset]
    cases k with
    | zero =>
      have hplace : r.index addr < r.data.size := h.index_lt addr
      rw [show addr + UInt32.ofNat 0 = addr from UInt32.add_zero addr, byte_load_of_outside]
      · rw [byte, index_load, ← hset]
        simp [hplace]
      · intro k hk
        rw [index_load, index_load, ← ofNat_succ]
        have hlen : bs.length + 1 ≤ r.size := by simpa using hlen
        have hne := h.index_add_ne (Nat.succ_ne_zero k) (by omega) h.size_pos addr
        rwa [show addr + UInt32.ofNat 0 = addr from UInt32.add_zero addr] at hne
    | succ k =>
      have hlen' : bs.length ≤ (r.load addr [b]).size := by
        rw [size_load]
        exact Nat.le_of_succ_le hlen
      rw [ofNat_succ, ih hone (addr + 1) hlen' (by simpa using hk), List.getD_cons_succ]

/-! ### Numbers -/

theorem read_congr {r' : Ram}
    (h : ∀ k < n, r'.byte (addr + UInt32.ofNat k) = r.byte (addr + UInt32.ofNat k)) :
    r'.read addr n = r.read addr n := by
  rw [read, read]
  congr 1
  exact List.map_congr_left fun k hk => h k (List.mem_range.mp hk)

theorem toNat_read_lt (r : Ram) (addr : UInt32) (hn : n ≤ 8) : (r.read addr n).toNat < 256 ^ n := by
  rw [read, Bytes.toNat_toWord (by simpa using hn)]
  simpa using Bytes.value_lt ((List.range n).map fun i => r.byte (addr + UInt32.ofNat i))

theorem load_append (r : Ram) (addr : UInt32) (bs cs : List UInt8) :
    r.load addr (bs ++ cs) = (r.load addr bs).load (addr + UInt32.ofNat bs.length) cs := by
  induction bs generalizing r addr with
  | nil => exact congrArg (r.load · cs) (UInt32.add_zero addr).symm
  | cons b bs ih => rw [List.cons_append, load, load, ih, List.length_cons, ofNat_succ]

/-- Bytes are read as the number that they make up, if all that is written is no more than the
size. -/
theorem Formed.read_load (h : r.Formed) (addr : UInt32) (bs cs ds : List UInt8)
    (hlen : (bs ++ (cs ++ ds)).length ≤ r.size) :
    (r.load addr (bs ++ (cs ++ ds))).read (addr + UInt32.ofNat bs.length) cs.length =
      Bytes.toWord cs := by
  rw [read]
  congr 1
  apply List.ext_getElem
  · simp
  · intro k h₁ h₂
    have hk : bs.length + k < (bs ++ (cs ++ ds)).length := by
      simp only [List.length_append]
      omega
    rw [List.getElem_map, List.getElem_range, UInt32.add_assoc, ← UInt32.ofNat_add,
      h.byte_load addr hlen hk, List.getD_eq_getElem?_getD,
      List.getElem?_append_right (Nat.le_add_right _ _), Nat.add_sub_cancel_left,
      List.getElem?_append_left h₂, List.getElem?_eq_getElem h₂, Option.getD_some]

/-- A number is read as it was written, as far as it was written. -/
theorem Formed.toNat_read_write (h : r.Formed) (addr : UInt32) (hn : n ≤ 8) (hsize : n ≤ r.size)
    (v : UInt64) : ((r.write addr n v).read addr n).toNat = v.toNat % 256 ^ n := by
  have hread := h.read_load addr [] (Bytes.ofWord n v) [] (by simpa using hsize)
  rw [Bytes.length_ofWord, List.nil_append, List.append_nil,
    show addr + UInt32.ofNat ([] : List UInt8).length = addr from UInt32.add_zero addr] at hread
  rw [Ram.write, hread, Bytes.toNat_toWord_ofWord hn]

/-- A write leaves alone what has no byte in common with it. -/
theorem read_write_of_disjoint {size : Nat} (v : UInt64)
    (h : ∀ j < size, ∀ k < n, r.index (addr + UInt32.ofNat j) ≠ r.index (x + UInt32.ofNat k)) :
    (r.write addr size v).read x n = r.read x n :=
  read_congr fun k hk => byte_load_of_outside fun j hj => h j (by simpa using hj) k hk

/-! ### Words one after another -/

theorem length_flatMap_ofWord (n : Nat) (ws : List UInt64) :
    (ws.flatMap (Bytes.ofWord n)).length = n * ws.length := by
  induction ws with
  | nil => rfl
  | cons w ws ih =>
    rw [List.flatMap_cons, List.length_append, ih, Bytes.length_ofWord,
      List.length_cons, Nat.mul_succ,
      Nat.add_comm]

theorem loadWords_eq (r : Ram) (addr : UInt32) (n : Nat) (ws : List UInt64) :
    r.loadWords addr n ws = r.load addr (ws.flatMap (Bytes.ofWord n)) := by
  induction ws generalizing r addr with
  | nil => rfl
  | cons w ws ih => rw [loadWords, ih, List.flatMap_cons, load_append, Bytes.length_ofWord, write]

@[simp] theorem size_loadWords (r : Ram) (addr : UInt32) (n : Nat) (ws : List UInt64) :
    (r.loadWords addr n ws).size = r.size := by
  rw [loadWords_eq, size_load]

@[simp] theorem mask_loadWords (r : Ram) (addr : UInt32) (n : Nat) (ws : List UInt64) :
    (r.loadWords addr n ws).mask = r.mask := by
  rw [loadWords_eq, mask_load]

/-- Each word is read as it was written, if all of them are no more than the size. -/
theorem Formed.toNat_read_loadWords (h : r.Formed) (addr : UInt32) (hn : n ≤ 8) (ws : List UInt64)
    (w : UInt64) (ws' : List UInt64) (hlen : n * (ws ++ w :: ws').length ≤ r.size) :
    ((r.loadWords addr n (ws ++ w :: ws')).read (addr + UInt32.ofNat (n * ws.length)) n).toNat =
      w.toNat % 256 ^ n := by
  have hread := h.read_load addr (ws.flatMap (Bytes.ofWord n)) (Bytes.ofWord n w)
    (ws'.flatMap (Bytes.ofWord n))
  rw [Bytes.length_ofWord, length_flatMap_ofWord, ← List.flatMap_cons, ← List.flatMap_append,
    length_flatMap_ofWord, ← loadWords_eq] at hread
  rw [hread hlen, Bytes.toNat_toWord_ofWord hn]

theorem getD_loadWords_of_outside {ws : List UInt64} {i : Nat}
    (hout : ∀ k < n * ws.length, r.index (addr + UInt32.ofNat k) ≠ i) :
    (r.loadWords addr n ws).data.getD i 0 = r.data.getD i 0 := by
  rw [loadWords_eq, getD_load_of_outside]
  rwa [length_flatMap_ofWord]

/-! ### Accesses in one piece -/

/-- The bytes from an address on lie one after another. -/
def InOnePiece (r : Ram) (addr : UInt32) (n : Nat) : Prop :=
  ∀ k < n, r.index (addr + UInt32.ofNat k) = r.index addr + k

theorem InOnePiece.read_eq (h : r.InOnePiece addr n) :
    r.read addr n = Bytes.read r.data (r.index addr) n := by
  rw [read, Bytes.read]
  congr 1
  refine List.map_congr_left fun k hk => ?_
  rw [byte, h k (List.mem_range.mp hk)]

theorem InOnePiece.load_eq (h : r.InOnePiece addr bs.length) :
    r.load addr bs = { r with data := Bytes.place r.data (r.index addr) bs } := by
  induction bs generalizing r addr with
  | nil => rfl
  | cons b bs ih =>
    have hnext : r.index (addr + 1) = r.index addr + 1 ∨ bs = [] := by
      cases bs with
      | nil => exact .inr rfl
      | cons c bs => exact .inl (h 1 (by simp))
    rw [load, Bytes.place]
    obtain hnext | rfl := hnext
    · rw [ih]
      · congr 2
      · intro k hk
        have hk' := h (k + 1) (by simpa using hk)
        rw [ofNat_succ] at hk'
        change r.index (addr + 1 + UInt32.ofNat k) = r.index (addr + 1) + k
        omega
    · rfl

/-- An access at a multiple of its size lies in one piece inside the memory. -/
theorem Formed.inOnePiece (h : r.Formed) (hn : n ∣ r.size) (haddr : n ∣ addr.toNat) :
    r.InOnePiece addr n ∧ r.index addr + n ≤ r.size := by
  have hpos := h.size_pos
  have hn0 : 0 < n := Nat.pos_of_dvd_of_pos hn hpos
  have hindex : n ∣ r.index addr := by
    rw [h.index_eq]
    exact (Nat.dvd_mod_iff hn).mpr haddr
  have hend : r.index addr + n ≤ r.size := by
    obtain ⟨p, hp⟩ := hindex
    obtain ⟨q, hq⟩ := hn
    have hlt := h.index_lt addr
    rw [hp, hq] at hlt ⊢
    rw [← Nat.mul_succ]
    exact Nat.mul_le_mul_left n (Nat.lt_of_mul_lt_mul_left hlt)
  refine ⟨fun k hk => ?_, hend⟩
  rw [h.index_add, Nat.mod_eq_of_lt (by omega)]

end Recompiler.Ram
