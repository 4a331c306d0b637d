import Mathlib
import Recompiler.Bytes

/-! Laws of reading and writing numbers in byte sequences. -/
namespace Recompiler.Bytes

/-- The number that a list of bytes spells, lowest byte first. -/
def value : List UInt8 → Nat
  | [] => 0
  | b :: bs => b.toNat + 256 * value bs

theorem value_lt (l : List UInt8) : value l < 256 ^ l.length := by
  induction l with
  | nil => decide
  | cons b bs ih =>
    have hb : b.toNat < 256 := b.toNat_lt
    rw [value, List.length_cons, Nat.pow_succ]
    omega

theorem toNat_toWord {l : List UInt8} (h : l.length ≤ 8) : (toWord l).toNat = value l := by
  induction l with
  | nil => rfl
  | cons b bs ih =>
    have hbs : bs.length ≤ 7 := Nat.le_of_succ_le_succ h
    have hb : b.toNat < 2 ^ 8 := b.toNat_lt
    have hlt : value bs < 256 ^ 7 :=
      Nat.lt_of_lt_of_le (value_lt bs) (Nat.pow_le_pow_right (by decide) hbs)
    have hfit : value bs * 2 ^ 8 < 2 ^ 64 := by omega
    rw [toWord, value, UInt64.toNat_or, UInt64.toNat_shiftLeft, ih (by omega)]
    change b.toNat ||| value bs <<< 8 % 2 ^ 64 = _
    rw [Nat.shiftLeft_eq, Nat.mod_eq_of_lt hfit, Nat.or_comm, Nat.mul_comm,
      ← Nat.two_pow_add_eq_or_of_lt hb, Nat.add_comm]

@[simp] theorem length_ofWord (n : Nat) (v : UInt64) : (ofWord n v).length = n := by
  induction n generalizing v with
  | zero => rfl
  | succ n ih => rw [ofWord, List.length_cons, ih]

theorem toNat_low (v : UInt64) : v.toUInt8.toNat = v.toNat % 256 := UInt64.toNat_toUInt8 v

theorem toNat_high (v : UInt64) : (v >>> 8).toNat = v.toNat / 256 := by
  rw [UInt64.toNat_shiftRight]
  exact Nat.shiftRight_eq_div_pow v.toNat 8

/-- The low bytes of a word depend only on the low part of the word. -/
theorem ofWord_congr {n : Nat} {v v' : UInt64} (h : v.toNat % 256 ^ n = v'.toNat % 256 ^ n) :
    ofWord n v = ofWord n v' := by
  induction n generalizing v v' with
  | zero => rfl
  | succ n ih =>
    rw [Nat.pow_succ', Nat.mod_mul, Nat.mod_mul] at h
    have hv := Nat.mod_lt v.toNat (show 0 < 256 by decide)
    have hv' := Nat.mod_lt v'.toNat (show 0 < 256 by decide)
    have hlow : v.toUInt8 = v'.toUInt8 := by
      apply UInt8.toNat_inj.mp
      rw [toNat_low, toNat_low]
      omega
    rw [ofWord, ofWord, hlow, ih]
    rw [toNat_high, toNat_high]
    omega

theorem value_ofWord (n : Nat) (v : UInt64) : value (ofWord n v) = v.toNat % 256 ^ n := by
  induction n generalizing v with
  | zero => rw [ofWord, value, Nat.pow_zero, Nat.mod_one]
  | succ n ih =>
    rw [ofWord, value, ih, toNat_low, toNat_high, Nat.pow_succ', Nat.mod_mul]

/-- The bytes of a word spell the word, as far as they reach. -/
theorem toNat_toWord_ofWord {n : Nat} (h : n ≤ 8) (v : UInt64) :
    (toWord (ofWord n v)).toNat = v.toNat % 256 ^ n := by
  rw [toNat_toWord (by simpa using h), value_ofWord]

/-! ### Places -/

@[simp] theorem size_place (a : Array UInt8) (offset : Nat) (l : List UInt8) :
    (place a offset l).size = a.size := by
  induction l generalizing a offset with
  | nil => rfl
  | cons b bs ih => rw [place, ih, Array.size_setIfInBounds]

@[simp] theorem size_write (a : Array UInt8) (offset size : Nat) (v : UInt64) :
    (write a offset size v).size = a.size := size_place a offset _

theorem getD_place (a : Array UInt8) (offset : Nat) (l : List UInt8) (i : Nat) :
    (place a offset l).getD i 0 =
      if offset ≤ i ∧ i < offset + l.length ∧ i < a.size then l.getD (i - offset) 0
      else a.getD i 0 := by
  induction l generalizing a offset with
  | nil =>
    rw [place, if_neg]
    simp only [List.length_nil]
    omega
  | cons b bs ih =>
    rw [place, ih, Array.size_setIfInBounds]
    by_cases hi : i = offset
    · subst hi
      rw [if_neg (by omega), Array.getD_eq_getD_getElem?, Array.getElem?_setIfInBounds_self]
      by_cases hlt : i < a.size
      · simp [hlt]
      · simp [hlt]
    · have hne : (a.setIfInBounds offset b).getD i 0 = a.getD i 0 := by
        rw [Array.getD_eq_getD_getElem?, Array.getElem?_setIfInBounds_ne (Ne.symm hi),
          ← Array.getD_eq_getD_getElem?]
      rw [hne]
      by_cases h : offset + 1 ≤ i ∧ i < offset + 1 + bs.length ∧ i < a.size
      · have hsub : i - offset = i - (offset + 1) + 1 := by omega
        rw [if_pos h, if_pos (by simp only [List.length_cons]; omega), hsub, List.getD_cons_succ]
      · rw [if_neg h, if_neg (by simp only [List.length_cons]; omega)]

theorem getD_write (a : Array UInt8) (offset size : Nat) (v : UInt64) (i : Nat) :
    (write a offset size v).getD i 0 = if offset ≤ i ∧ i < offset + size ∧ i < a.size then
      (ofWord size v).getD (i - offset) 0 else a.getD i 0 := by
  rw [write, getD_place, length_ofWord]

/-- A byte outside the written ones stays. -/
theorem getD_write_of_outside (a : Array UInt8) {offset size i : Nat} (v : UInt64)
    (h : i < offset ∨ offset + size ≤ i) : (write a offset size v).getD i 0 = a.getD i 0 := by
  rw [getD_write, if_neg]
  omega

/-- A read depends on its own bytes only. -/
theorem read_congr {a a' : Array UInt8} {offset size : Nat}
    (h : ∀ i, offset ≤ i → i < offset + size → a'.getD i 0 = a.getD i 0) :
    read a' offset size = read a offset size := by
  rw [read, read]
  congr 1
  apply List.map_congr_left
  intro i hi
  have hlt := List.mem_range.mp hi
  exact h (offset + i) (by omega) (by omega)

/-- A read of what was written gives it back, as far as it was written. -/
theorem toNat_read_write {a : Array UInt8} {offset size : Nat} (hsize : size ≤ 8)
    (h : offset + size ≤ a.size) (v : UInt64) :
    (read (write a offset size v) offset size).toNat = v.toNat % 256 ^ size := by
  rw [← toNat_toWord_ofWord hsize, read, write]
  congr 2
  apply List.ext_getElem
  · simp
  · intro i h₁ h₂
    have hi : i < size := by simpa using h₁
    rw [List.getElem_map, List.getElem_range, getD_place, length_ofWord, if_pos (by omega),
      Nat.add_sub_cancel_left, List.getD_eq_getElem?_getD, List.getElem?_eq_getElem h₂,
      Option.getD_some]

theorem read_write_of_disjoint (a : Array UInt8) {offset size start n : Nat} (v : UInt64)
    (h : start + n ≤ offset ∨ offset + size ≤ start) :
    read (write a offset size v) start n = read a start n :=
  read_congr fun i h₁ h₂ => getD_write_of_outside a v (by omega)

theorem toNat_read_lt {a : Array UInt8} {offset size : Nat} (h : size ≤ 8) :
    (read a offset size).toNat < 256 ^ size := by
  rw [read, toNat_toWord (by simpa using h)]
  simpa using value_lt ((List.range size).map fun i => a.getD (offset + i) 0)

/-! ### Writing twice and writing back -/

/-- The bytes of the word that a list spells are the list. -/
theorem ofWord_toWord {l : List UInt8} (h : l.length ≤ 8) : ofWord l.length (toWord l) = l := by
  induction l with
  | nil => rfl
  | cons b bs ih =>
    have hbs : bs.length ≤ 8 := Nat.le_of_succ_le h
    have hb : b.toNat < 256 := b.toNat_lt
    have hword : (toWord (b :: bs)).toNat = b.toNat + 256 * value bs := toNat_toWord h
    have hlow : (toWord (b :: bs)).toUInt8 = b := by
      apply UInt8.toNat_inj.mp
      rw [toNat_low, hword]
      omega
    have hhigh : toWord (b :: bs) >>> 8 = toWord bs := by
      apply UInt64.toNat_inj.mp
      rw [toNat_high, hword, toNat_toWord hbs]
      omega
    rw [List.length_cons, ofWord, hlow, hhigh, ih hbs]

/-- Sequences of one length with the same bytes are the same. -/
theorem ext_getD {a a' : Array UInt8} (hsize : a'.size = a.size)
    (h : ∀ i < a.size, a'.getD i 0 = a.getD i 0) : a' = a := by
  apply Array.ext hsize
  intro i h₁ h₂
  have hi := h i h₂
  rwa [Array.getD_eq_getD_getElem?, Array.getD_eq_getD_getElem?, Array.getElem?_eq_getElem h₁,
    Array.getElem?_eq_getElem h₂] at hi

theorem write_comm (a : Array UInt8) {offset size start n : Nat} (v w : UInt64)
    (h : start + n ≤ offset ∨ offset + size ≤ start) :
    write (write a offset size v) start n w = write (write a start n w) offset size v := by
  apply ext_getD
  · simp
  intro i _
  rw [getD_write, getD_write, getD_write, getD_write, size_write, size_write]
  by_cases h₁ : offset ≤ i ∧ i < offset + size ∧ i < a.size
  · rw [if_pos h₁, if_pos h₁, if_neg (by omega)]
  · rw [if_neg h₁, if_neg h₁]

/-- Only the last of two writes to one place is seen. -/
theorem write_write (a : Array UInt8) (offset size : Nat) (v w : UInt64) :
    write (write a offset size v) offset size w = write a offset size w := by
  apply ext_getD
  · simp
  intro i _
  rw [getD_write, getD_write, getD_write, size_write]
  by_cases h : offset ≤ i ∧ i < offset + size ∧ i < a.size
  · rw [if_pos h, if_pos h]
  · rw [if_neg h, if_neg h, if_neg h]

/-- Writing what is there changes nothing. -/
theorem write_read (a : Array UInt8) (offset : Nat) {size : Nat} (h : size ≤ 8) :
    write a offset size (read a offset size) = a := by
  apply ext_getD
  · simp
  intro i _
  have hbytes : ofWord size (read a offset size) =
      (List.range size).map fun i => a.getD (offset + i) 0 := by
    have hlen : ((List.range size).map fun i => a.getD (offset + i) 0).length = size := by simp
    have hword := ofWord_toWord (l := (List.range size).map fun i => a.getD (offset + i) 0)
      (by rw [hlen]; exact h)
    rwa [hlen] at hword
  rw [getD_write, hbytes]
  by_cases hi : offset ≤ i ∧ i < offset + size ∧ i < a.size
  · have hlt : i - offset < size := by omega
    have hsum : offset + (i - offset) = i := by omega
    rw [if_pos hi, List.getD_eq_getElem?_getD, List.getElem?_map, List.getElem?_range hlt]
    simp [hsum]
  · rw [if_neg hi]

end Recompiler.Bytes
