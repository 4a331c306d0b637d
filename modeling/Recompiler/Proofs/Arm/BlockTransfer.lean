import Recompiler.Proofs.Arm.Flow
import Recompiler.Proofs.Ram

/-!
Block transfers. A store puts the registers of its list into consecutive words, and a load takes
them from there. In the modes that belong together both go over the same words, and what the store
adds to the base the load takes off again, so the load undoes the store.
-/
namespace Recompiler.Arm

open State

variable {s : State}

/-! ### Stores -/

/-- The registers go into consecutive words, and nothing else changes. -/
theorem storeRegs_eq (pc : UInt32) (regs : List (Fin 16)) (first : UInt32) (s : State) :
    storeRegs pc regs first s = { s with
      rest := ⟨s.rest.ram.loadWords first 4 (regs.map fun n => (operand s n pc).toUInt64)⟩ } := by
  induction regs generalizing first s with
  | nil => rfl
  | cons n regs ih =>
    rw [storeRegs, ih, List.map_cons, Ram.loadWords]
    simp only [State.write32, State.write]
    rfl

theorem ramSize_storeRegs (pc : UInt32) (regs : List (Fin 16)) (first : UInt32) (s : State) :
    (storeRegs pc regs first s).rest.ram.size = s.rest.ram.size := by
  rw [storeRegs_eq]
  exact Ram.size_loadWords _ _ _ _

theorem ramMask_storeRegs (pc : UInt32) (regs : List (Fin 16)) (first : UInt32) (s : State) :
    (storeRegs pc regs first s).rest.ram.mask = s.rest.ram.mask := by
  rw [storeRegs_eq]
  exact Ram.mask_loadWords _ _ _ _

/-- A store changes the words of its transfer only. -/
theorem getD_storeRegs_of_outside {regs : List (Fin 16)} {first : UInt32} {i : Nat}
    (hout : ∀ k < 4 * regs.length, s.rest.ram.index (first + UInt32.ofNat k) ≠ i) (pc : UInt32) :
    (storeRegs pc regs first s).rest.ram.data.getD i 0 = s.rest.ram.data.getD i 0 := by
  rw [storeRegs_eq]
  exact Ram.getD_loadWords_of_outside (by rwa [List.length_map])

/-- A register is read where the store put it. -/
theorem read32_storeRegs (hram : s.rest.ram.Formed) (pc first : UInt32) {regs regs' : List (Fin 16)}
    {n : Fin 16} (hn : n ≠ 15) (hlen : 4 * (regs ++ n :: regs').length ≤ s.rest.ram.size) :
    (storeRegs pc (regs ++ n :: regs') first s).read32 (first + UInt32.ofNat (4 * regs.length)) =
      s.get (.r n) := by
  have hword : operand s n pc = s.get (.r n) := by rw [operand, if_neg hn]
  have hread := hram.toNat_read_loadWords first (show 4 ≤ 8 by decide)
    (regs.map fun n => (operand s n pc).toUInt64) (operand s n pc).toUInt64
    (regs'.map fun n => (operand s n pc).toUInt64) (by simpa using hlen)
  rw [List.length_map, hword, UInt32.toNat_toUInt64] at hread
  apply UInt32.toNat_inj.mp
  rw [storeRegs_eq, State.read32, State.read, UInt64.toNat_toUInt32, List.map_append, List.map_cons,
    hword]
  have hlt := (s.get (.r n)).toNat_lt
  refine (congrArg (· % 2 ^ 32) hread).trans ?_
  omega

/-! ### Loads -/

theorem read32_set (s : State) (f : Field) (v addr : UInt32) :
    (s.set f v).read32 addr = s.read32 addr := by
  rw [State.read32, State.read, State.rest_set, State.read32, State.read]

theorem add_four_mul_succ (first : UInt32) (k : Nat) :
    first + UInt32.ofNat (4 * (k + 1)) = first + 4 + UInt32.ofNat (4 * k) := by
  rw [Nat.mul_succ, UInt32.ofNat_add, UInt32.add_comm (UInt32.ofNat (4 * k)), ← UInt32.add_assoc]
  rfl

theorem rest_loadRegs (regs : List (Fin 16)) (first : UInt32) (s : State) :
    (loadRegs regs first s).rest = s.rest := by
  induction regs generalizing first s with
  | nil => rfl
  | cons n regs ih => rw [loadRegs, ih, State.rest_set]

theorem get_loadRegs_of_notMem {regs : List (Fin 16)} {f : Field} (hf : ∀ n ∈ regs, f ≠ .r n)
    (first : UInt32) (s : State) : (loadRegs regs first s).get f = s.get f := by
  induction regs generalizing first s with
  | nil => rfl
  | cons n regs ih =>
    obtain ⟨hn, hregs⟩ := List.forall_mem_cons.mp hf
    rw [loadRegs, ih hregs, State.get_set_ne _ hn]

/-- A register of the list gets the word at its place. -/
theorem get_loadRegs (hs : s.Sized) {regs regs' : List (Fin 16)} {n : Fin 16}
    (hnodup : (regs ++ n :: regs').Nodup) (first : UInt32) :
    (loadRegs (regs ++ n :: regs') first s).get (.r n) =
      s.read32 (first + UInt32.ofNat (4 * regs.length)) := by
  induction regs generalizing first s with
  | nil =>
    have hn : ∀ k ∈ regs', Field.r n ≠ .r k := by
      rintro k hk heq
      cases heq
      exact (List.nodup_cons.mp hnodup).1 hk
    rw [List.nil_append, loadRegs, get_loadRegs_of_notMem hn, State.get_set_same hs]
    exact congrArg s.read32 (UInt32.add_zero first).symm
  | cons k regs ih =>
    rw [List.cons_append, loadRegs, ih (hs.set _ _) (List.nodup_cons.mp hnodup).2, read32_set,
      List.length_cons, add_four_mul_succ]

/-- Registers that were stored and then changed are loaded again. -/
theorem get_loadRegs_storeRegs {t : State} (hram : s.rest.ram.Formed) (ht : t.Sized)
    {regs : List (Fin 16)} (hpc : 15 ∉ regs) (hnodup : regs.Nodup)
    (hlen : 4 * regs.length ≤ s.rest.ram.size) {pc first : UInt32}
    (hrest : t.rest = (storeRegs pc regs first s).rest) {n : Fin 16} (hn : n ∈ regs) :
    (loadRegs regs first t).get (.r n) = s.get (.r n) := by
  obtain ⟨before, after, rfl⟩ := List.append_of_mem hn
  have hne : n ≠ 15 := by
    rintro rfl
    exact hpc hn
  rw [get_loadRegs ht hnodup, ← read32_storeRegs hram pc first hne hlen, State.read32,
    State.read, hrest]
  rfl

/-! ### Modes -/

/-- The lowest address of a block transfer. -/
def lowest (before up : Bool) (base size : UInt32) : UInt32 :=
  match before, up with
  | false, true => base
  | true, true => base + 4
  | false, false => base - size + 4
  | true, false => base - size

/-- The base behind a block transfer. -/
def moved (up : Bool) (base size : UInt32) : UInt32 := if up then base + size else base - size

/-- The opposite mode goes over the same words from the other end. -/
theorem lowest_opposite (before up : Bool) (base size : UInt32) :
    lowest (!before) (!up) (moved up base size) size = lowest before up base size := by
  cases before <;> cases up <;> simp [lowest, moved]

theorem moved_opposite (up : Bool) (base size : UInt32) :
    moved (!up) (moved up base size) size = base := by
  cases up <;> simp [moved]

/-- The bytes that a block transfer moves. -/
def transferSize (raw : UInt32) : UInt32 := UInt32.ofNat ((registerList raw).length * 4)

theorem performBlock_store {raw : UInt32} (hload : bit raw 20 = false) (hback : bit raw 21 = true)
    (addr : UInt32) (s : State) : performBlock addr raw s =
      (storeRegs (addr + 12) (registerList raw)
        (lowest (bit raw 24) (bit raw 23) (s.get (.r (field raw 16))) (transferSize raw)) s).set
          (.r (field raw 16))
          (moved (bit raw 23) (s.get (.r (field raw 16))) (transferSize raw)) := by
  unfold performBlock
  dsimp only
  rw [hload, hback]
  rfl

theorem performBlock_load {raw : UInt32} (hload : bit raw 20 = true) (hback : bit raw 21 = true)
    (hpc : bit raw 15 = false) (addr : UInt32) (s : State) : performBlock addr raw s =
      loadRegs (registerList raw)
        (lowest (bit raw 24) (bit raw 23) (s.get (.r (field raw 16))) (transferSize raw))
        (s.set (.r (field raw 16))
          (moved (bit raw 23) (s.get (.r (field raw 16))) (transferSize raw))) := by
  unfold performBlock
  dsimp only
  rw [hload, hback, hpc, Bool.and_false]
  rfl

/-! ### Decoding -/

theorem decodeData_ne (raw : UInt32) : decodeData raw ≠ .stm ∧ decodeData raw ≠ .ldm := by
  unfold decodeData
  dsimp only
  have hdata : ∀ number : Fin 16, Op.data[number] ≠ .stm ∧ Op.data[number] ≠ .ldm := by decide
  split
  · decide
  · split
    · decide
    · exact hdata _

/-- A block transfer is a load or a store by its bit. -/
theorem bit_of_decode {raw : UInt32} :
    (decode raw = .stm → bit raw 20 = false) ∧ (decode raw = .ldm → bit raw 20 = true) := by
  obtain ⟨hstm, hldm⟩ := decodeData_ne raw
  unfold decode
  dsimp only
  -- what comes before the blocks of encodings is no block transfer
  iterate 4
    split
    · exact ⟨nofun, nofun⟩
  split
  case h_1 | h_2 => exact ⟨fun h => absurd h hstm, fun h => absurd h hldm⟩
  case h_3 => cases bit raw 20 <;> exact ⟨nofun, nofun⟩
  case h_4 =>
    split
    · exact ⟨nofun, nofun⟩
    · cases bit raw 20 <;> exact ⟨nofun, nofun⟩
  case h_5 => cases bit raw 20 <;> decide
  case h_6 | h_8 => exact ⟨nofun, nofun⟩
  case h_7 => split <;> exact ⟨nofun, nofun⟩

theorem mem_registerList {raw : UInt32} {n : Fin 16} :
    n ∈ registerList raw ↔ bit raw (UInt32.ofNat n) = true := by
  rw [registerList, List.mem_filter]
  exact and_iff_right (List.mem_finRange n)

theorem nodup_registerList (raw : UInt32) : (registerList raw).Nodup :=
  (List.nodup_finRange 16).filter _

theorem length_registerList_le (raw : UInt32) : (registerList raw).length ≤ 16 :=
  (List.length_filter_le _ _).trans_eq List.length_finRange

/-! ### A store and a load -/

/-- A store and a load of the same registers through the same base, in modes that belong together,
both with write-back. The base and the pc are not in the list. -/
structure Opposite (store load : UInt32) (n : Fin 16) : Prop where
  stores : decode store = .stm
  loads : decode load = .ldm
  base_store : field store 16 = n
  base_load : field load 16 = n
  base_ne : n ≠ 15
  regs_eq : registerList load = registerList store
  base_notMem : n ∉ registerList store
  pc_notMem : 15 ∉ registerList store
  back_store : bit store 21 = true
  back_load : bit load 21 = true
  up_eq : bit load 23 = !bit store 23
  before_eq : bit load 24 = !bit store 24

/-- What a store does when its condition holds. -/
theorem interpret_store {store : UInt32} {n : Fin 16} (hop : decode store = .stm)
    (hbase : field store 16 = n) (hn : n ≠ 15) (hback : bit store 21 = true)
    (hcond : condPassed (s.get .cpsr) (store >>> 28) = true) (addr : UInt32) :
    interpret addr store s =
      (storeRegs (addr + 12) (registerList store)
        (lowest (bit store 24) (bit store 23) (s.get (.r n)) (transferSize store))
        (s.set pc (addr + 4))).set (.r n)
          (moved (bit store 23) (s.get (.r n)) (transferSize store)) := by
  have hpc : Field.r n ≠ pc := fun h => hn (Field.r.inj h)
  unfold interpret
  dsimp only
  rw [State.get_set_ne _ (by decide), if_pos hcond, hop]
  change performBlock _ _ _ = _
  rw [performBlock_store (bit_of_decode.1 hop) hback, hbase, State.get_set_ne _ hpc]

/-- What a load does when its condition holds. -/
theorem interpret_load {load : UInt32} {n : Fin 16} (hop : decode load = .ldm)
    (hbase : field load 16 = n) (hn : n ≠ 15) (hback : bit load 21 = true)
    (hlist : 15 ∉ registerList load)
    (hcond : condPassed (s.get .cpsr) (load >>> 28) = true) (addr : UInt32) :
    interpret addr load s =
      loadRegs (registerList load)
        (lowest (bit load 24) (bit load 23) (s.get (.r n)) (transferSize load))
        ((s.set pc (addr + 4)).set (.r n)
          (moved (bit load 23) (s.get (.r n)) (transferSize load))) := by
  have hpc : Field.r n ≠ pc := fun h => hn (Field.r.inj h)
  have hbit : bit load 15 = false := by
    rw [mem_registerList] at hlist
    exact Bool.eq_false_iff.mpr hlist
  unfold interpret
  dsimp only
  rw [State.get_set_ne _ (by decide), if_pos hcond, hop]
  change performBlock _ _ _ = _
  rw [performBlock_load (bit_of_decode.2 hop) hback hbit, hbase, State.get_set_ne _ hpc]

/-- The load finds the words and the base that the store began with. -/
theorem Opposite.loaded {store load : UInt32} {n : Fin 16} (h : Opposite store load n)
    (hcond : condPassed (s.get .cpsr) (load >>> 28) = true) (addr base : UInt32)
    (hbase : s.get (.r n) = moved (bit store 23) base (transferSize store)) :
    interpret addr load s = loadRegs (registerList store)
      (lowest (bit store 24) (bit store 23) base (transferSize store))
      ((s.set pc (addr + 4)).set (.r n) base) := by
  have hlist : 15 ∉ registerList load := by
    rw [h.regs_eq]
    exact h.pc_notMem
  have hbytes : transferSize load = transferSize store := by
    rw [transferSize, h.regs_eq, transferSize]
  rw [interpret_load h.loads h.base_load h.base_ne h.back_load hlist hcond, hbase,
    h.up_eq, h.before_eq,
    hbytes, h.regs_eq, lowest_opposite, moved_opposite]

/-- The store changes the base, the pc and the words of its transfer only, and the load takes
everything back but the pc, whatever has become of the listed registers meanwhile. -/
theorem block_restored {store load : UInt32} {n : Fin 16} (h : Opposite store load n) (hs : s.Sized)
    (hram : s.rest.ram.Formed) (hsize : 64 ≤ s.rest.ram.size)
    (hstore : condPassed (s.get .cpsr) (store >>> 28) = true)
    (hload : condPassed (s.get .cpsr) (load >>> 28) = true) (addr addr' : UInt32) :
    let first := lowest (bit store 24) (bit store 23) (s.get (.r n)) (transferSize store)
    let t := interpret addr store s
    (∀ f, f ≠ .r n → f ≠ pc → t.get f = s.get f) ∧
    (t.rest.ram.size = s.rest.ram.size ∧ t.rest.ram.mask = s.rest.ram.mask) ∧
    (∀ i, (∀ k < 4 * (registerList store).length, s.rest.ram.index (first + UInt32.ofNat k) ≠ i) →
      t.rest.ram.data.getD i 0 = s.rest.ram.data.getD i 0) ∧
    ∀ u : State, u.Sized → u.rest = t.rest →
      (∀ f, (∀ k ∈ registerList store, f ≠ .r k) → u.get f = t.get f) →
      (interpret addr' load u).rest = t.rest ∧ ∀ f, f ≠ pc →
      (interpret addr' load u).get f = s.get f := by
  intro first t
  have ht : t = _ := interpret_store h.stores h.base_store h.base_ne h.back_store hstore addr
  have hsized : (s.set pc (addr + 4)).Sized := hs.set _ _
  have hrest : t.rest =
      (storeRegs (addr + 12) (registerList store) first (s.set pc (addr + 4))).rest := by
    rw [ht, State.rest_set]
  have hget : ∀ f, f ≠ .r n → f ≠ pc → t.get f = s.get f := by
    intro f hf hpc
    rw [ht, State.get_set_ne _ hf, get_storeRegs, State.get_set_ne _ hpc]
  have hbase : t.get (.r n) = moved (bit store 23) (s.get (.r n)) (transferSize store) := by
    rw [ht, State.get_set_same ((size_storeRegs _ _ _ _).trans hsized)]
  refine ⟨hget, ⟨?_, ?_⟩, fun i hi => ?_, fun u hu hurest huget => ?_⟩
  · rw [hrest, ramSize_storeRegs, State.rest_set]
  · rw [hrest, ramMask_storeRegs, State.rest_set]
  · rw [hrest, getD_storeRegs_of_outside (by rwa [State.rest_set]), State.rest_set]
  have hun : u.get (.r n) = t.get (.r n) := huget _ fun k hk hkn => by
    cases hkn
    exact h.base_notMem hk
  have hcond : condPassed (u.get .cpsr) (load >>> 28) = true := by
    rwa [huget _ fun _ _ => Field.noConfusion, hget _ Field.noConfusion Field.noConfusion]
  rw [h.loaded hcond addr' (s.get (.r n)) (hun.trans hbase)]
  have husized : ((u.set pc (addr' + 4)).set (.r n) (s.get (.r n))).Sized := (hu.set _ _).set _ _
  have hkept : ((u.set pc (addr' + 4)).set (.r n) (s.get (.r n))).rest = t.rest := by
    rw [State.rest_set, State.rest_set, hurest]
  refine ⟨by rw [rest_loadRegs, hkept], fun f hf => ?_⟩
  by_cases hlisted : ∃ k ∈ registerList store, f = .r k
  · obtain ⟨k, hk, rfl⟩ := hlisted
    have hlen := length_registerList_le store
    rw [get_loadRegs_storeRegs (by rwa [State.rest_set]) husized h.pc_notMem
      (nodup_registerList store)
      (by rw [State.rest_set]; omega) (hkept.trans hrest) hk, State.get_set_ne _ hf]
  have hother : ∀ k ∈ registerList store, f ≠ .r k := fun k hk heq => hlisted ⟨k, hk, heq⟩
  rw [get_loadRegs_of_notMem hother]
  by_cases hn : f = .r n
  · rw [hn, State.get_set_same (hu.set _ _)]
  · rw [State.get_set_ne _ hn, State.get_set_ne _ hf, huget f hother, hget f hn hf]

/-- A core with 64 bytes of memory, all of it zero. -/
def blank : State where
  ctx := Array.replicate (4 * Field.all.length) 0
  rest := ⟨{ data := Array.replicate 64 0, mask := 63 }⟩

/-- Two registers are pushed below address 0 and popped again. -/
theorem block_restored_popped : Opposite 0xe9200006 0xe8b00006 0 ∧ blank.Sized ∧
    blank.rest.ram.Formed ∧ 64 ≤ blank.rest.ram.size ∧
    condPassed (blank.get .cpsr) ((0xe9200006 : UInt32) >>> 28) = true ∧
    condPassed (blank.get .cpsr) ((0xe8b00006 : UInt32) >>> 28) = true ∧
    ∀ f, f ≠ pc →
      (interpret 4 0xe8b00006 ((interpret 0 0xe9200006 blank).set (.r 1) 7)).get f =
        blank.get f := by
  have hopposite : Opposite 0xe9200006 0xe8b00006 0 := by
    constructor <;> decide
  have hs : blank.Sized := Array.size_replicate
  have hram : blank.rest.ram.Formed := ⟨⟨6, by decide, Array.size_replicate⟩, rfl⟩
  have hsize : 64 ≤ blank.rest.ram.size := by decide
  have hstore : condPassed (blank.get .cpsr) ((0xe9200006 : UInt32) >>> 28) = true := rfl
  have hload : condPassed (blank.get .cpsr) ((0xe8b00006 : UInt32) >>> 28) = true := rfl
  refine ⟨hopposite, hs, hram, hsize, hstore, hload, ?_⟩
  obtain ⟨-, -, -, hback⟩ := block_restored hopposite hs hram hsize hstore hload 0 4
  have hlisted : (1 : Fin 16) ∈ registerList 0xe9200006 := by decide
  exact (hback _ ((hs.interpret _ _).set _ _) (State.rest_set _ _ _) fun f hf =>
    State.get_set_ne _ (hf 1 hlisted) _).2

end Recompiler.Arm
