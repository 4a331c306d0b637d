import Recompiler.Guest
import Recompiler.Proofs.Bytes

/-! Words of a context, numbered from its start. -/
namespace Recompiler.Context

variable (c : Context)

@[simp] theorem size_set32 (offset : Int) (v : UInt32) : (c.set32 offset v).size = c.size := by
  unfold set32 set
  split
  · rfl
  · exact Bytes.size_write c _ _ _

theorem get32_word (n : Nat) : c.get32 (4 * n : Nat) = (Bytes.read c (4 * n) 4).toUInt32 := by
  unfold get32 get
  rw [if_neg (by omega)]
  rfl

theorem set32_word (n : Nat) (v : UInt32) :
    c.set32 (4 * n : Nat) v = Bytes.write c (4 * n) 4 v.toUInt64 := by
  unfold set32 set
  rw [if_neg (by omega)]
  rfl

theorem get32_set32_same {n : Nat} (h : 4 * n + 4 ≤ c.size) (v : UInt32) :
    (c.set32 (4 * n : Nat) v).get32 (4 * n : Nat) = v := by
  rw [set32_word, get32_word]
  apply UInt32.toNat_inj.mp
  have hv : v.toNat < 2 ^ 32 := v.toNat_lt
  rw [UInt64.toNat_toUInt32, Bytes.toNat_read_write (by decide) h, UInt32.toNat_toUInt64]
  omega

theorem get32_set32_ne {n k : Nat} (h : k ≠ n) (v : UInt32) :
    (c.set32 (4 * n : Nat) v).get32 (4 * k : Nat) = c.get32 (4 * k : Nat) := by
  rw [set32_word, get32_word, get32_word, Bytes.read_write_of_disjoint c _ (by omega)]

theorem set32_comm {n k : Nat} (h : k ≠ n) (v w : UInt32) :
    (c.set32 (4 * n : Nat) v).set32 (4 * k : Nat) w =
      (c.set32 (4 * k : Nat) w).set32 (4 * n : Nat) v := by
  simp only [set32_word]
  exact Bytes.write_comm c _ _ (by omega)

theorem set32_set32 (n : Nat) (v w : UInt32) :
    (c.set32 (4 * n : Nat) v).set32 (4 * n : Nat) w = c.set32 (4 * n : Nat) w := by
  simp only [set32_word]
  exact Bytes.write_write c _ _ _ _

theorem set32_get32 (n : Nat) : c.set32 (4 * n : Nat) (c.get32 (4 * n : Nat)) = c := by
  have hword : (c.get32 (4 * n : Nat)).toUInt64 = Bytes.read c (4 * n) 4 := by
    rw [get32_word]
    apply UInt64.toNat_inj.mp
    have hlt : (Bytes.read c (4 * n) 4).toNat < 256 ^ 4 := Bytes.toNat_read_lt (by decide)
    rw [UInt32.toNat_toUInt64, UInt64.toNat_toUInt32]
    exact Nat.mod_eq_of_lt hlt
  rw [set32_word, hword, Bytes.write_read c _ (by decide)]

/-! ### Fields of any width -/

theorem bytes_of_width {n : Nat} {w : Width} (h : width? n = some w) : w.bytes = n := by
  unfold width? at h
  split at h <;> cases h <;> rfl

theorem width_le (w : Width) : w.bytes ≤ 8 := by cases w <;> decide

@[simp] theorem size_set (d : Int) (w : Width) (v : UInt64) : (c.set d w v).size = c.size := by
  unfold set
  split
  · rfl
  · exact Bytes.size_write c _ _ _

theorem toNat_get_lt (d : Int) (w : Width) : (c.get d w).toNat < 256 ^ w.bytes := by
  unfold get
  split
  · exact Nat.pow_pos (by decide)
  · exact Bytes.toNat_read_lt (width_le w)

variable {c}

/-- A read depends on its own bytes only. -/
theorem get_congr {c' : Context} {d : Int} {w : Width}
    (h : ∀ x : Nat, d ≤ x → x < d + w.bytes → c'.getD x 0 = c.getD x 0) :
    c'.get d w = c.get d w := by
  unfold get
  split
  · rfl
  · exact Bytes.read_congr fun x h₁ h₂ => h x (by omega) (by omega)

theorem getD_set_of_outside {d : Int} {w : Width} {x : Nat} (v : UInt64)
    (h : (x : Int) < d ∨ d + w.bytes ≤ x) : (c.set d w v).getD x 0 = c.getD x 0 := by
  unfold set
  split
  · rfl
  · exact Bytes.getD_write_of_outside c v (by omega)

/-- What is written does not depend on what was there. -/
theorem getD_set_of_inside {c' : Context} {d : Int} {w : Width} {x : Nat} (v : UInt64) (hd : 0 ≤ d)
    (h : d ≤ x) (h' : x < d + w.bytes) (hsize : c'.size = c.size) :
    (c'.set d w v).getD x 0 = (c.set d w v).getD x 0 := by
  unfold set
  rw [if_neg (by omega), if_neg (by omega), Bytes.getD_write, Bytes.getD_write, hsize]
  by_cases hx : x < c.size
  · rw [if_pos (by omega), if_pos (by omega)]
  · have hout {a : Context} (ha : a.size = c.size) : a.getD x 0 = 0 := by
      rw [Array.getD_eq_getD_getElem?, Array.getElem?_eq_none (by omega)]
      rfl
    rw [if_neg (by omega), if_neg (by omega), hout rfl, hout hsize]

theorem get_set_of_disjoint {d e : Int} {w u : Width} (v : UInt64)
    (h : e + u.bytes ≤ d ∨ d + w.bytes ≤ e) : (c.set d w v).get e u = c.get e u :=
  get_congr fun _ h₁ h₂ => getD_set_of_outside v (by omega)

/-- A value that fits is read as it was written. -/
theorem get_set_same {d : Int} {w : Width} {v : UInt64} (hd : 0 ≤ d)
    (h : d + w.bytes ≤ c.size) (hv : v.toNat < 256 ^ w.bytes) : (c.set d w v).get d w = v := by
  unfold set get
  rw [if_neg (by omega), if_neg (by omega)]
  apply UInt64.toNat_inj.mp
  rw [Bytes.toNat_read_write (width_le w) (by omega), Nat.mod_eq_of_lt hv]

end Recompiler.Context
