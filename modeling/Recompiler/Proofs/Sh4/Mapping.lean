import Recompiler.Proofs.Ram
import Recompiler.Proofs.Sh4.Lifting

/-!
Guest memory through a mapping. An access through a mapping is the access of the guest at the
address aligned down to its size. It stays inside the memory, and at an aligned address it is the
same access.
-/
namespace Recompiler.Sh4

open IR Meaning State
open Interp (fit)

/-! ### Places in the mapping -/

/-- The address aligned down to the size of an access. -/
def alignedDown (x : UInt32) (w : Width) : UInt32 := x &&& ~~~(UInt32.ofNat w.bytes - 1)

/-- Clearing the low bits of a word rounds it down. -/
theorem toNat_and_not_low (x : UInt32) {j : Nat} (hj : j < 32) :
    (x &&& ~~~(UInt32.ofNat (2 ^ j) - 1)).toNat = x.toNat / 2 ^ j * 2 ^ j := by
  have hlow : (UInt32.ofNat (2 ^ j) - 1).toNat = 2 ^ j - 1 := by
    have hlt : 2 ^ j < 2 ^ 32 := Nat.pow_lt_pow_right (by decide) hj
    have hpos : 0 < 2 ^ j := Nat.two_pow_pos j
    rw [UInt32.toNat_sub_of_le, UInt32.toNat_ofNat_of_lt' hlt]
    · rfl
    · rw [UInt32.le_iff_toNat_le, UInt32.toNat_ofNat_of_lt' hlt]
      exact hpos
  have hnot : (~~~(UInt32.ofNat (2 ^ j) - 1)).toNat = 2 ^ 32 - (2 ^ j - 1 + 1) := by
    rw [UInt32.toNat_not, hlow]
    change 2 ^ 32 - 1 - (2 ^ j - 1) = _
    omega
  have hmask : 2 ^ j - 1 < 2 ^ 32 := by
    have hlt : 2 ^ j < 2 ^ 32 := Nat.pow_lt_pow_right (by decide) hj
    omega
  apply Nat.eq_of_testBit_eq
  intro i
  rw [UInt32.toNat_and, hnot, Nat.testBit_and, Nat.testBit_two_pow_sub_succ hmask,
    Nat.testBit_two_pow_sub_one, Nat.testBit_mul_two_pow, Nat.testBit_div_two_pow]
  by_cases hi : j ≤ i
  · by_cases h32 : i < 32
    · simp [hi, h32, Nat.not_lt.mpr hi]
    · have hx : x.toNat.testBit i = false :=
        Nat.testBit_lt_two_pow
          (Nat.lt_of_lt_of_le x.toNat_lt (Nat.pow_le_pow_right (by decide) (by omega)))
      simp [hi, hx]
  · simp [hi, Nat.lt_of_not_le hi]

theorem toNat_alignedDown (x : UInt32) (w : Width) :
    (alignedDown x w).toNat = x.toNat / w.bytes * w.bytes := by
  cases w
  · exact toNat_and_not_low x (j := 0) (by decide)
  · exact toNat_and_not_low x (j := 1) (by decide)
  · exact toNat_and_not_low x (j := 2) (by decide)
  · exact toNat_and_not_low x (j := 3) (by decide)

theorem alignedDown_of_dvd {x : UInt32} {w : Width} (h : w.bytes ∣ x.toNat) :
    alignedDown x w = x := by
  apply UInt32.toNat_inj.mp
  rw [toNat_alignedDown, Nat.div_mul_cancel h]

variable {r : Ram} {x : UInt32} {w : Width}

/-- An access of at most the size of the memory divides it. -/
theorem dvd_size (hr : r.Formed) (h : w.bytes ≤ r.size) : w.bytes ∣ r.size := by
  obtain ⟨⟨k, -, hk⟩, -⟩ := hr
  have hpow : ∃ j, w.bytes = 2 ^ j := by
    cases w
    · exact ⟨0, rfl⟩
    · exact ⟨1, rfl⟩
    · exact ⟨2, rfl⟩
    · exact ⟨3, rfl⟩
  obtain ⟨j, hj⟩ := hpow
  rw [hk, hj] at h ⊢
  exact Nat.pow_dvd_pow 2 ((Nat.pow_le_pow_iff_right (by decide)).mp h)

/-- The aligned access lies in one piece inside the memory. -/
theorem inOnePiece_alignedDown (hr : r.Formed) (h : w.bytes ≤ r.size) (x : UInt32) :
    r.InOnePiece (alignedDown x w) w.bytes ∧ r.index (alignedDown x w) + w.bytes ≤ r.size :=
  hr.inOnePiece (dvd_size hr h) ⟨x.toNat / w.bytes, by rw [toNat_alignedDown, Nat.mul_comm]⟩

theorem hostPlace_eq (r : Ram) (w : Width) (x : UInt32) :
    hostPlace r.fastMem w x = Ram.hostBase + UInt64.ofNat (r.index (alignedDown x w)) := by
  have hmask : x &&& (r.mask &&& ~~~(UInt32.ofNat w.bytes - 1)) = alignedDown x w &&& r.mask := by
    rw [alignedDown, UInt32.and_assoc, UInt32.and_comm r.mask]
  change Ram.hostBase + (x &&& (r.mask &&& ~~~(UInt32.ofNat w.bytes - 1))).toUInt64 = _
  rw [hmask, Ram.index]
  congr 1
  apply UInt64.toNat_inj.mp
  have hlt : (alignedDown x w &&& r.mask).toNat < 2 ^ 32 := UInt32.toNat_lt _
  rw [UInt32.toNat_toUInt64, UInt64.toNat_ofNat_of_lt' (by change _ < 2 ^ 64; omega)]

theorem hostPlace_sub (r : Ram) (w : Width) (x : UInt32) :
    (hostPlace r.fastMem w x - Ram.hostBase).toNat = r.index (alignedDown x w) := by
  have hlt : r.index (alignedDown x w) < 2 ^ 32 := UInt32.toNat_lt _
  rw [hostPlace_eq, UInt64.add_comm, UInt64.add_sub_cancel, UInt64.toNat_ofNat_of_lt'
    (by change _ < 2 ^ 64; omega)]

/-! ### Accesses -/

theorem readHost_hostPlace (r : Ram) (w : Width) (x : UInt32) :
    r.readHost (hostPlace r.fastMem w x) w =
      Bytes.read r.data (r.index (alignedDown x w)) w.bytes := by
  rw [Ram.readHost, hostPlace_sub]

theorem writeHost_hostPlace (r : Ram) (w : Width) (x : UInt32) (v : UInt64) :
    r.writeHost (hostPlace r.fastMem w x) w v =
      { r with data := Bytes.write r.data (r.index (alignedDown x w)) w.bytes v } := by
  rw [Ram.writeHost, hostPlace_sub]

/-- A write in one piece writes to the storage. -/
theorem write_alignedDown (hr : r.Formed) (h : w.bytes ≤ r.size) (x : UInt32) (v : UInt64) :
    r.write (alignedDown x w) w.bytes v =
      { r with data := Bytes.write r.data (r.index (alignedDown x w)) w.bytes v } := by
  rw [Ram.write, Ram.InOnePiece.load_eq, Bytes.write]
  rw [Bytes.length_ofWord]
  exact (inOnePiece_alignedDown hr h x).1

/-- The bits of a word that a write does not transfer make no difference. -/
theorem ofWord_mask (w : Width) (v : UInt64) :
    Bytes.ofWord w.bytes (v &&& w.mask) = Bytes.ofWord w.bytes v := by
  apply Bytes.ofWord_congr
  have hand : (v &&& w.mask).toNat = v.toNat % 256 ^ w.bytes := by
    rw [UInt64.toNat_and]
    cases w
    · exact Nat.and_two_pow_sub_one_eq_mod v.toNat 8
    · exact Nat.and_two_pow_sub_one_eq_mod v.toNat 16
    · exact Nat.and_two_pow_sub_one_eq_mod v.toNat 32
    · exact Nat.and_two_pow_sub_one_eq_mod v.toNat 64
  rw [hand, Nat.mod_mod]

/-- A number that was read fits the type it was read as. -/
theorem fit_read {ty : Ty} (hty : ty = .i8 ∨ ty = .i16 ∨ ty = .i32) (r : Ram) (x : UInt32) :
    fit ty (r.read x ty.bytes) = r.read x ty.bytes := by
  have hlt : (r.read x ty.bytes).toNat < 256 ^ ty.bytes :=
    r.toNat_read_lt x (by obtain rfl | rfl | rfl := hty <;> decide)
  apply UInt64.toNat_inj.mp
  obtain rfl | rfl | rfl := hty
  all_goals refine (UInt64.toNat_and _ _).trans ?_
  · exact (Nat.and_two_pow_sub_one_eq_mod _ 8).trans (Nat.mod_eq_of_lt hlt)
  · exact (Nat.and_two_pow_sub_one_eq_mod _ 16).trans (Nat.mod_eq_of_lt hlt)
  · exact (Nat.and_two_pow_sub_one_eq_mod _ 32).trans (Nat.mod_eq_of_lt hlt)

/-- The state with another memory. -/
def State.withRam (s : State) (r : Ram) : State := { s with rest := { s.rest with ram := r } }

variable {s : State}

/-- What code reads through the mapping is what the guest reads at the aligned address. -/
theorem readVia_mapping (hr : s.rest.ram.Formed) (h : w.bytes ≤ s.rest.ram.size) (x : UInt32) :
    readVia (some s.rest.ram.fastMem) w x s = s.read w (alignedDown x w) := by
  rw [readVia, readHost_hostPlace, State.read, (inOnePiece_alignedDown hr h x).1.read_eq]

theorem writeVia_mapping (hr : s.rest.ram.Formed) (h : w.bytes ≤ s.rest.ram.size) (x : UInt32)
    (v : UInt64) : writeVia (some s.rest.ram.fastMem) w x v s = s.write w (alignedDown x w) v := by
  rw [writeVia, writeHost_hostPlace, State.write, write_alignedDown hr h]

/-! ### Code -/

variable {f : Fragment} {cells : Cells} {m : Interp.Memory Board} {ty : Ty} {v : ValueId}

/-- The mapping of the memory of a guest. -/
abbrev mapping (m : Interp.Memory Board) : FastMem := m.world.rest.ram.fastMem

theorem emits_hostAddress_mapping (ty : Ty) (hty : ty.isInt = true) (ha : Holds32 f cells v x) :
    Emits guest offsets (Recompiler.Lift.hostAddress (mapping m) v ty) f cells m fun a f' s' m' =>
      m' = m ∧ Holds f' s' a .i64 (Ram.hostBase +
        UInt64.ofNat (m.world.rest.ram.index (alignedDown x (.ofTy ty)))) := by
  rw [← hostPlace_eq, hostPlace, bytes_ofTy hty]
  exact emits_hostAddress _ ty ha

/-- Code that reads where the guest reads `y` loads the number there. -/
theorem emits_loadMem_at {mem : Option FastMem} {y : UInt32}
    (hty : ty = .i8 ∨ ty = .i16 ∨ ty = .i32)
    (hread : readVia mem (.ofTy ty) x m.world = State.read m.world (.ofTy ty) y)
    (ha : Holds32 f cells v x) :
    Emits guest offsets (Recompiler.Lift.loadMem mem v ty) f cells m fun a f' s' m' =>
      m' = m ∧ Holds f' s' a ty (m.world.rest.ram.read y ty.bytes) := by
  have hint : ty.isInt = true := by
    obtain rfl | rfl | rfl := hty <;> rfl
  have hload : Emits guest offsets (Recompiler.Lift.loadMem mem v ty) f cells m _ :=
    emits_loadMem mem hint ha
  rwa [hread, State.read, bytes_ofTy hint, fit_read hty] at hload

/-- Code that writes where the guest writes `y` stores the number there. -/
theorem emits_storeMem_at {mem : Option FastMem} {y : UInt32} {b : ValueId} {u : UInt64}
    (hty : ty.isInt = true)
    (hwrite : ∀ u, writeVia mem (.ofTy ty) x u m.world = State.write m.world (.ofTy ty) y u)
    (ha : Holds32 f cells v x) (hb : Holds f cells b ty u) :
    Emits guest offsets (Recompiler.Lift.storeMem mem v b) f cells m fun _ _ _ m' =>
      m' = withWorld m (State.withRam m.world (m.world.rest.ram.write y ty.bytes u)) := by
  have hstore : Emits guest offsets (Recompiler.Lift.storeMem mem v b) f cells m _ :=
    emits_storeMem mem hty ha hb
  rwa [hwrite, State.write, Ram.write, ofWord_mask, bytes_ofTy hty] at hstore

/-- Code that accesses guest memory through the mapping accesses bytes of the memory only, and at an
aligned address it reads and writes what the guest does. -/
theorem mapped_access (hram : m.world.rest.ram.Formed) (hty : ty = .i8 ∨ ty = .i16 ∨ ty = .i32)
    (hsize : ty.bytes ≤ m.world.rest.ram.size) (ha : Holds32 f cells v x) :
    ∃ n, n + ty.bytes ≤ m.world.rest.ram.size ∧
      (Emits guest offsets (Recompiler.Lift.hostAddress (mapping m) v ty) f cells m
        fun a f' s' m' => m' = m ∧ Holds f' s' a .i64 (Ram.hostBase + UInt64.ofNat n)) ∧
      (Emits guest offsets (Recompiler.Lift.loadMem (some (mapping m)) v ty) f cells m
        fun a f' s' m' => m' = m ∧ Holds f' s' a ty (Bytes.read m.world.rest.ram.data n ty.bytes)) ∧
      (∀ b u, Holds f cells b ty u →
        Emits guest offsets (Recompiler.Lift.storeMem (some (mapping m)) v b) f cells m
          fun _ _ _ m' => m' = withWorld m (State.withRam m.world { m.world.rest.ram with
            data := Bytes.write m.world.rest.ram.data n ty.bytes u })) ∧
      (ty.bytes ∣ x.toNat → ∀ mem, mem = none ∨ mem = some (mapping m) →
        (Emits guest offsets (Recompiler.Lift.loadMem mem v ty) f cells m fun a f' s' m' =>
          m' = m ∧ Holds f' s' a ty (m.world.rest.ram.read x ty.bytes)) ∧
        ∀ b u, Holds f cells b ty u →
          Emits guest offsets (Recompiler.Lift.storeMem mem v b) f cells m fun _ _ _ m' =>
            m' = withWorld m (State.withRam m.world (m.world.rest.ram.write x ty.bytes u))) := by
  have hint : ty.isInt = true := by
    obtain rfl | rfl | rfl := hty <;> rfl
  have hbytes : (Width.ofTy ty).bytes = ty.bytes := bytes_ofTy hint
  have hfits : (Width.ofTy ty).bytes ≤ m.world.rest.ram.size := by rwa [hbytes]
  have hread := readVia_mapping hram hfits x
  have hwrite := writeVia_mapping hram hfits x
  obtain ⟨hpiece, hend⟩ := inOnePiece_alignedDown hram hfits x
  rw [hbytes] at hpiece hend
  refine ⟨m.world.rest.ram.index (alignedDown x (.ofTy ty)), hend,
    emits_hostAddress_mapping ty hint ha, ?_, fun b u hb => ?_, fun haligned mem hmem => ?_⟩
  · rw [← hpiece.read_eq]
    exact emits_loadMem_at hty hread ha
  · have hplace := write_alignedDown hram hfits x u
    rw [hbytes] at hplace
    rw [← hplace]
    exact emits_storeMem_at hint hwrite ha hb
  · have hsame : alignedDown x (.ofTy ty) = x := alignedDown_of_dvd (by rwa [hbytes])
    rw [hsame] at hread hwrite
    obtain rfl | rfl := hmem
    · exact ⟨emits_loadMem_at hty rfl ha, fun b u => emits_storeMem_at hint (fun _ => rfl) ha⟩
    · exact ⟨emits_loadMem_at hty hread ha, fun b u => emits_storeMem_at hint hwrite ha⟩

/-- Sixteen bytes of memory, numbered. -/
def sixteenBytes : State where
  ctx := Array.replicate (4 * Field.all.length) 0
  rest := { ram := { data := #[0, 1, 2, 3, 4, 5, 6, 7, 8, 9, 10, 11, 12, 13, 14, 15], mask := 15 } }

/-- A fragment with the address 0x104 and a number as constants. -/
def addressed : Fragment := ((opened.addConstant (.i32 0x104)).1.addConstant (.i32 0xa0b0c0d)).1

theorem mapped_access_wrapped : sixteenBytes.rest.ram.Formed ∧
    Ty.i32.bytes ≤ sixteenBytes.rest.ram.size ∧
    Holds32 addressed (fun _ => 0) ⟨0⟩ 0x104 ∧ Ty.i32.bytes ∣ (0x104 : UInt32).toNat ∧
    (∃ a f' l cells' m',
      Recompiler.Lift.loadMem (some sixteenBytes.rest.ram.fastMem) ⟨0⟩ .i32 addressed =
        .ok (a, f') ∧
      Runs f' guest offsets l (fun _ => 0) ⟨#[], sixteenBytes⟩ cells' m' ∧
      Holds f' cells' a .i32 0x07060504) ∧
    ∃ f' l cells' m',
      Recompiler.Lift.storeMem (some sixteenBytes.rest.ram.fastMem) ⟨0⟩ ⟨1⟩ addressed =
        .ok ((), f') ∧
      Runs f' guest offsets l (fun _ => 0) ⟨#[], sixteenBytes⟩ cells' m' ∧
      m'.world.rest.ram.data = #[0, 1, 2, 3, 13, 12, 11, 10, 8, 9, 10, 11, 12, 13, 14, 15] := by
  have hram : sixteenBytes.rest.ram.Formed := ⟨⟨4, by decide, rfl⟩, rfl⟩
  have hsize : Ty.i32.bytes ≤ sixteenBytes.rest.ram.size := by decide
  have haddr : Holds32 addressed (fun _ => 0) ⟨0⟩ 0x104 := by
    refine ⟨by decide, rfl, fun c hc => ?_, rfl⟩
    cases hc
    rfl
  have hnumber : Holds addressed (fun _ => 0) ⟨1⟩ .i32 0xa0b0c0d := by
    refine ⟨by decide, rfl, fun c hc => ?_, rfl⟩
    cases hc
    rfl
  have haligned : Ty.i32.bytes ∣ (0x104 : UInt32).toNat := by decide
  have hopen := open_addConstant (open_addConstant open_opened (.i32 0x104)) (.i32 0xa0b0c0d)
  obtain ⟨n, -, -, -, -, hagree⟩ :=
    mapped_access (m := ⟨#[], sixteenBytes⟩) hram (.inr (.inr rfl)) hsize haddr
  obtain ⟨hload, hstore⟩ := hagree haligned _ (.inr rfl)
  refine ⟨hram, hsize, haddr, haligned, ?_, ?_⟩
  · obtain ⟨a, f', l, cells', m', hact, -, hrun, -, -, hv⟩ := hload ⟨0⟩ [] [] hopen
    exact ⟨a, f', l, cells', m', hact, hrun, hv⟩
  · obtain ⟨⟨⟩, f', l, cells', m', hact, -, hrun, -, hwritten⟩ :=
      hstore ⟨1⟩ _ hnumber ⟨0⟩ [] [] hopen
    refine ⟨f', l, cells', m', hact, hrun, ?_⟩
    rw [hwritten]
    decide

end Recompiler.Sh4
