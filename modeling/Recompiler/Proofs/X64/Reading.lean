import Recompiler.Proofs.Bytes
import Recompiler.X64.Decode

/-!
Readers of the decoder on the pieces that the encoder writes. Every piece is taken by its own
reader, whatever follows it, so the pieces of an instruction can be checked one by one.
-/
namespace Recompiler.X64

namespace Decode

variable {α β : Type} {p : Reader α} {q : α → Reader β} {a : α} {b : β} {bs bs' : List UInt8}

/-- The reader takes these bytes, whatever follows them. -/
def Reads (p : Reader α) (bytes : List UInt8) (a : α) : Prop :=
  ∀ rest, p (bytes ++ rest) = some (a, rest)

theorem reads_pure (a : α) : Reads (pure a) [] a := fun _ => rfl

theorem Reads.bind (hp : Reads p bs a) (hq : Reads (q a) bs' b) :
    Reads (p >>= q) (bs ++ bs') b := by
  intro rest
  change (p (bs ++ bs' ++ rest) >>= fun x => q x.1 x.2) = _
  rw [List.append_assoc, hp]
  exact hq rest

/-- A reader whose result is only reshaped. -/
theorem Reads.map (hp : Reads p bs a) (f : α → β) : Reads (p >>= fun x => pure (f x)) bs (f a) := by
  have h := hp.bind (q := fun x => pure (f x)) (reads_pure (f a))
  rwa [List.append_nil] at h

theorem reads_byte (c : UInt8) : Reads byte [c] c := fun _ => rfl

/-! ### Numbers -/

theorem reads_word (n : Nat) (v : UInt64) :
    Reads (word n) (Bytes.ofWord n v) (Bytes.toWord (Bytes.ofWord n v)) := by
  intro rest
  have hlen : (Bytes.ofWord n v).length = n := Bytes.length_ofWord n v
  unfold word
  rw [if_pos (by rw [List.length_append, hlen]; exact Nat.le_add_right ..),
    List.take_left' hlen, List.drop_left' hlen]

theorem reads_word_eight (v : UInt64) : Reads (word 8) (Bytes.ofWord 8 v) v := by
  have hv : Bytes.toWord (Bytes.ofWord 8 v) = v := by
    apply UInt64.toNat_inj.mp
    rw [Bytes.toNat_toWord_ofWord (Nat.le_refl 8)]
    exact Nat.mod_eq_of_lt v.toNat_lt
  have h := reads_word 8 v
  rwa [hv] at h

theorem reads_word_four {v : UInt64} (h : v.toNat < 2 ^ 32) :
    Reads (word 4) (Bytes.ofWord 4 v) v := by
  have hv : Bytes.toWord (Bytes.ofWord 4 v) = v := by
    apply UInt64.toNat_inj.mp
    rw [Bytes.toNat_toWord_ofWord (by decide)]
    exact Nat.mod_eq_of_lt h
  have h := reads_word 4 v
  rwa [hv] at h

theorem reads_int32 (n : Int32) : Reads int32 (imm32 n) n := by
  have hlt : n.toUInt32.toUInt64.toNat < 2 ^ 32 := by
    rw [UInt32.toNat_toUInt64]
    exact n.toUInt32.toNat_lt
  have h := (reads_word_four hlt).map fun v => v.toUInt32.toInt32
  rwa [UInt32.toUInt32_toUInt64, Int32.toInt32_toUInt32] at h

theorem isByte_iff (n : Int32) : isByte n = true ↔ -128 ≤ n.toInt ∧ n.toInt ≤ 127 := by
  unfold isByte
  rw [Bool.and_eq_true, decide_eq_true_iff, decide_eq_true_iff, Int32.le_iff_toInt_le,
    Int32.le_iff_toInt_le]
  rfl

theorem toInt32_low {n : Int32} (h : isByte n = true) :
    n.toUInt32.toUInt8.toInt8.toInt32 = n := by
  have hrange := (isByte_iff n).mp h
  have hlt := n.toBitVec.isLt
  apply Int32.toInt_inj.mp
  rw [Int8.toInt_toInt32]
  change (n.toBitVec.setWidth 8).toInt = n.toBitVec.toInt
  change -128 ≤ n.toBitVec.toInt ∧ n.toBitVec.toInt ≤ 127 at hrange
  rw [BitVec.toInt_eq_toNat_bmod] at hrange
  rw [BitVec.toInt_setWidth, BitVec.toInt_eq_toNat_bmod]
  simp only [Int.bmod] at hrange ⊢
  omega

theorem reads_int8 {n : Int32} (h : isByte n = true) : Reads int8 [n.toUInt32.toUInt8] n := by
  have hread := (reads_byte n.toUInt32.toUInt8).map fun c => c.toInt8.toInt32
  rwa [toInt32_low h] at hread

/-! ### Before the operands -/

/-- What the decoder knows of an instruction when it comes to the opcode. -/
def marksOf (h : Head) (r rm : Fin 16) : Marks :=
  { data16 := h.data16, scalar := h.scalar, rex := h.rex? r rm }

/-- A byte that is neither a mandatory byte nor a REX byte. -/
def isOpcode (c : UInt8) : Bool := c ≠ 0x66 && c ≠ 0xf2 && c ≠ 0xf3 && c &&& 0xf0 ≠ 0x40

variable {h : Head} {r rm : Fin 16}

/-- The REX byte, by what it depends on. -/
def rexByte (wide r rm byte : Bool) : Option UInt8 :=
  if wide || r || rm || byte then
    some (0x40 ||| (if wide then 8 else 0) ||| (if r then 4 else 0) ||| (if rm then 1 else 0))
  else none

theorem rex?_eq (h : Head) (r rm : Fin 16) : h.rex? r rm =
    rexByte h.wide (needsRex r) (needsRex rm)
      ((h.byteReg && r.val ≥ 4) || (h.byteRm && rm.val ≥ 4)) := by
  unfold Head.rex? Head.rexBits
  generalize ((h.byteReg && decide (r.val ≥ 4)) || (h.byteRm && decide (rm.val ≥ 4))) = byte
  generalize h.wide = wide, needsRex r = x, needsRex rm = y
  revert wide x y byte
  decide

/-- The bits of the REX byte are those that were asked for. -/
theorem bits_of_rex {m : Marks} {wide x y byte : Bool} (hm : m.rex = rexByte wide x y byte) :
    m.wide = wide ∧ m.r = x ∧ m.x = false ∧ m.b = y := by
  unfold Marks.wide Marks.r Marks.x Marks.b Marks.bit
  rw [hm]
  clear hm
  revert wide x y byte
  decide

/-- A REX byte is no mandatory byte, and it is told by its upper half. -/
theorem rex?_eq_some {x : UInt8} (hx : h.rex? r rm = some x) :
    x &&& 0xf0 = 0x40 ∧ x ≠ 0x66 ∧ x ≠ 0xf2 ∧ x ≠ 0xf3 := by
  rw [rex?_eq] at hx
  generalize ((h.byteReg && decide (r.val ≥ 4)) || (h.byteRm && decide (rm.val ≥ 4))) = byte at hx
  generalize h.wide = wide, needsRex r = y, needsRex rm = z at hx
  cases wide <;> cases y <;> cases z <;> cases byte <;> cases hx <;> decide

theorem bind_eq {s s' : List UInt8} (h : p s = some (a, s')) : (p >>= q) s = q a s' := by
  change (p s >>= fun x => q x.1 x.2) = _
  rw [h]
  rfl

theorem accept_self (c : UInt8) (rest : List UInt8) : accept c (c :: rest) = some (true, rest) :=
  if_pos rfl

theorem accept_other {c c' : UInt8} (hne : c' ≠ c) (rest : List UInt8) :
    accept c (c' :: rest) = some (false, c' :: rest) := if_neg hne

theorem marks_bytes {c : UInt8} (hc : isOpcode c = true) (rest : List UInt8) :
    marks (h.marks ++ ((h.rex? r rm).toList ++ c :: rest)) = some (marksOf h r rm, c :: rest) := by
  simp only [isOpcode, Bool.and_eq_true, decide_eq_true_eq] at hc
  obtain ⟨⟨⟨h66, hf2⟩, hf3⟩, hrex⟩ := hc
  -- What follows the mandatory bytes is none of them.
  have htail : ∀ d, d = 0x66 ∨ d = 0xf2 ∨ d = 0xf3 →
      accept d ((h.rex? r rm).toList ++ c :: rest) =
        some (false, (h.rex? r rm).toList ++ c :: rest) := by
    cases hx : h.rex? r rm with
    | none => rintro d (rfl | rfl | rfl) <;> exact accept_other ‹_› _
    | some x =>
      obtain ⟨-, hx66, hxf2, hxf3⟩ := rex?_eq_some hx
      rintro d (rfl | rfl | rfl) <;> exact accept_other ‹_› _
  have hread : rex ((h.rex? r rm).toList ++ c :: rest) = some (h.rex? r rm, c :: rest) := by
    cases hx : h.rex? r rm with
    | none => exact if_neg hrex
    | some x => exact if_pos (rex?_eq_some hx).1
  obtain ⟨data16, scalar, wide, byteReg, byteRm, second, opcode⟩ := h
  unfold marks Head.marks marksOf
  generalize Head.rex? _ r rm = x at htail hread ⊢
  cases data16 with
  | false =>
    match scalar with
    | none =>
      refine (bind_eq (htail 0x66 (by decide))).trans ?_
      refine (bind_eq (htail 0xf3 (by decide))).trans ?_
      refine (bind_eq (htail 0xf2 (by decide))).trans ?_
      exact bind_eq hread
    | some false =>
      refine (bind_eq (accept_other (by decide) _)).trans ?_
      refine (bind_eq (accept_self 0xf3 _)).trans ?_
      refine (bind_eq (p := pure false) rfl).trans ?_
      exact bind_eq hread
    | some true =>
      refine (bind_eq (accept_other (by decide) _)).trans ?_
      refine (bind_eq (accept_other (by decide) _)).trans ?_
      refine (bind_eq (accept_self 0xf2 _)).trans ?_
      exact bind_eq hread
  | true =>
    refine (bind_eq (accept_self 0x66 _)).trans ?_
    match scalar with
    | none =>
      refine (bind_eq (htail 0xf3 (by decide))).trans ?_
      refine (bind_eq (htail 0xf2 (by decide))).trans ?_
      exact bind_eq hread
    | some false =>
      refine (bind_eq (accept_self 0xf3 _)).trans ?_
      refine (bind_eq (p := pure false) rfl).trans ?_
      exact bind_eq hread
    | some true =>
      refine (bind_eq (accept_other (by decide) _)).trans ?_
      refine (bind_eq (accept_self 0xf2 _)).trans ?_
      exact bind_eq hread

/-! ### Operands -/

/-- The number fits the three bits of a field. -/
def isField (n : UInt8) : Bool := n < 8

theorem exists_field {n : UInt8} (hn : isField n = true) : ∃ k : Fin 8, n = UInt8.ofNat k := by
  refine ⟨⟨n.toNat, UInt8.lt_iff_toNat_lt.mp (of_decide_eq_true hn)⟩, ?_⟩
  exact UInt8.ofNat_toNat.symm

/-- The byte is one of the four modes of a ModR/M byte. -/
def isMode (mode : UInt8) : Bool := mode = 0 || mode = 0x40 || mode = 0x80 || mode = 0xc0

/-- The fields of a ModR/M byte. -/
theorem fields_modRm {mode field low : UInt8} (hmode : isMode mode = true)
    (hfield : isField field = true) (hlow : isField low = true) :
    (mode ||| (field <<< 3) ||| low) >>> 6 = mode >>> 6 ∧
      ((mode ||| (field <<< 3) ||| low) >>> 3) &&& 7 = field ∧
      (mode ||| (field <<< 3) ||| low) &&& 7 = low := by
  obtain ⟨k, rfl⟩ := exists_field hfield
  obtain ⟨l, rfl⟩ := exists_field hlow
  clear hfield hlow
  simp only [isMode, Bool.or_eq_true, decide_eq_true_eq] at hmode
  revert k l
  rcases hmode with ((rfl | rfl) | rfl) | rfl <;> decide

theorem isField_low3 (r : Fin 16) : isField (low3 r) = true := by
  revert r
  decide

theorem extended_low3 (r : Fin 16) : extended (needsRex r) (low3 r) = r := by
  revert r
  decide

/-- What the operand bytes of two registers say. -/
theorem reads_modRm_direct {m : Marks} {ext : UInt8} (hext : isField ext = true)
    (hb : m.b = needsRex rm) :
    Reads (modRm m) [(0xc0 : UInt8) ||| (ext <<< 3) ||| low3 rm]
      ⟨ext, extended m.r ext, .reg rm⟩ := by
  intro rest
  obtain ⟨hmode, hfield, hlow⟩ :=
    fields_modRm (by decide : isMode 0xc0 = true) hext (isField_low3 rm)
  unfold modRm
  refine (bind_eq (reads_byte _ rest)).trans ?_
  simp only [hmode, hfield, hlow, hb, extended_low3]
  rfl

theorem reads_base {m : Marks} {mode : UInt8} {base : Gpr} (hb : m.b = needsRex base)
    (hx : m.x = false) (hmode : low3 base = 5 → mode ≠ 0) :
    Reads (Decode.base m mode (low3 base)) (if low3 base = 4 then [0x24] else []) base := by
  unfold Decode.base
  by_cases h4 : low3 base = 4
  · -- The index byte has no index and repeats the low bits of the base.
    have hbase : extended m.b 0x24 = base := by
      rw [hb, ← extended_low3 base, h4]
      cases needsRex base <;> rfl
    rw [if_pos h4, if_pos h4]
    intro rest
    refine (bind_eq (reads_byte 0x24 rest)).trans ?_
    simp only [hx, hbase]
    rfl
  · have hne : ¬(low3 base = 5 && mode = 0) = true := by
      simpa using hmode
    rw [if_neg h4, if_neg h4, if_neg hne, hb, extended_low3]
    exact reads_pure base

/-- The displacement that a mode of a memory operand calls for. -/
inductive Displaces (base : Gpr) (offset : Int32) : UInt8 → List UInt8 → Prop
  | none (h : offset = 0) (hbase : low3 base ≠ 5) : Displaces base offset 0x00 []
  | byte (h : isByte offset = true) : Displaces base offset 0x40 [offset.toUInt32.toUInt8]
  | word : Displaces base offset 0x80 (imm32 offset)

theorem flatten_memory (ext : UInt8) (base : Gpr) (offset : Int32) :
    ∃ mode disp, Displaces base offset mode disp ∧ (memory ext base offset).flatten =
      [mode ||| (ext <<< 3) ||| low3 base] ++ ((if low3 base = 4 then [0x24] else []) ++ disp) := by
  unfold memory
  by_cases h0 : offset = 0 ∧ low3 base ≠ 5
  · refine ⟨0x00, [], .none h0.1 h0.2, ?_⟩
    rw [if_pos (by simpa using h0)]
    split <;> rfl
  · rw [if_neg (by simpa using h0)]
    by_cases h1 : isByte offset = true
    · refine ⟨0x40, _, .byte h1, ?_⟩
      rw [if_pos h1]
      split <;> rfl
    · refine ⟨0x80, _, .word, ?_⟩
      rw [if_neg h1]
      split <;> exact congrArg _ (congrArg _ (List.append_nil _))

theorem reads_modRm_memory {m : Marks} {ext : UInt8} {base : Gpr} (offset : Int32)
    (hext : isField ext = true) (hb : m.b = needsRex base) (hx : m.x = false) :
    Reads (modRm m) (memory ext base offset).flatten ⟨ext, extended m.r ext, .mem base offset⟩ := by
  obtain ⟨mode, disp, hdisp, hflat⟩ := flatten_memory ext base offset
  rw [hflat]
  have hmode : isMode mode = true := by cases hdisp <;> rfl
  obtain ⟨hm, hf, hl⟩ := fields_modRm hmode hext (isField_low3 base)
  unfold modRm
  refine (reads_byte _).bind ?_
  simp only [hm, hf, hl]
  cases hdisp with
  | none h hbase =>
    subst h
    exact (reads_base hb hx fun h => absurd h hbase).bind ((reads_pure 0).map _)
  | byte h => exact (reads_base hb hx fun _ => by decide).bind ((reads_int8 h).map _)
  | word => exact (reads_base hb hx fun _ => by decide).bind ((reads_int32 offset).map _)

/-! ### Dispatch -/

/-- The marks with which an encoding reaches its opcode. -/
structure Marked (h : Head) (r rm : Fin 16) (m : Marks) : Prop where
  data16 : m.data16 = h.data16
  scalar : m.scalar = h.scalar
  rex : m.rex = h.rex? r rm
  wide : m.wide = h.wide
  r : m.r = needsRex r
  x : m.x = false
  b : m.b = needsRex rm

theorem marked_marksOf (h : Head) (r rm : Fin 16) : Marked h r rm (marksOf h r rm) := by
  obtain ⟨hwide, hr, hx, hb⟩ := bits_of_rex (m := marksOf h r rm) (rex?_eq h r rm)
  exact ⟨rfl, rfl, rfl, hwide, hr, hx, hb⟩

theorem Reads.pass (hp : Reads p bs a) (hq : Reads (q a) [] b) : Reads (p >>= q) bs b := by
  have h := hp.bind hq
  rwa [List.append_nil] at h

variable {i : Instruction} {tail : List UInt8}

/-- An opcode of the first map, without mandatory bytes. -/
theorem reads_first (c : UInt8) (hsecond : h.second = false) (hdata : h.data16 = false)
    (hscalar : h.scalar = none) (hop : h.opcode = c) (hc : isOpcode c = true) (hmap : c ≠ 0x0f)
    (ht : ∀ m, Marked h r rm m → Reads (first m c) tail i) :
    Reads instruction (h.bytes r rm ++ tail) i := by
  intro rest
  have hplain : (marksOf h r rm).plain = true := by
    unfold Marks.plain marksOf
    rw [hdata, hscalar]
    rfl
  unfold Head.bytes
  rw [hsecond, hop]
  simp only [Bool.false_eq_true, if_false, List.append_assoc]
  refine (bind_eq (marks_bytes hc _)).trans ?_
  refine (bind_eq (reads_byte c _)).trans ?_
  rw [if_neg hmap, if_pos hplain]
  exact ht _ (marked_marksOf h r rm) rest

/-- The opcode of the 16-bit store. -/
theorem reads_data16 (c : UInt8) (hsecond : h.second = false) (hdata : h.data16 = true)
    (hop : h.opcode = c)
    (hc : isOpcode c = true) (hmap : c ≠ 0x0f)
    (ht : ∀ m, Marked h r rm m → Reads (data16 m c) tail i) :
    Reads instruction (h.bytes r rm ++ tail) i := by
  intro rest
  have hplain : ¬(marksOf h r rm).plain = true := by
    unfold Marks.plain marksOf
    rw [hdata]
    exact Bool.false_ne_true
  unfold Head.bytes
  rw [hsecond, hop]
  simp only [Bool.false_eq_true, if_false, List.append_assoc]
  refine (bind_eq (marks_bytes hc _)).trans ?_
  refine (bind_eq (reads_byte c _)).trans ?_
  rw [if_neg hmap, if_neg hplain]
  exact ht _ (marked_marksOf h r rm) rest

/-- An opcode of the second map. Which one it is depends on the mandatory bytes. -/
theorem reads_second (c : UInt8) (d : Bool) (s : Option Bool) (hsecond : h.second = true)
    (hdata : h.data16 = d) (hscalar : h.scalar = s) (hop : h.opcode = c)
    (ht : ∀ x, Marked h r rm ⟨d, s, x⟩ →
      Reads (fun bytes => second ⟨d, s, x⟩ (c :: bytes)) tail i) :
    Reads instruction (h.bytes r rm ++ tail) i := by
  subst hdata hscalar
  intro rest
  unfold Head.bytes
  rw [hsecond, hop]
  simp only [if_true, List.append_assoc]
  refine (bind_eq (marks_bytes (by decide) _)).trans ?_
  refine (bind_eq (reads_byte 0x0f _)).trans ?_
  exact ht _ (marked_marksOf h r rm) rest

variable {m : Marks}

/-- A byte register from the fifth on comes with a REX byte. -/
theorem Marked.secondByte_reg (hm : Marked h r rm m) (hbyte : h.byteReg = true) :
    m.secondByte r = false := by
  unfold Marks.secondByte
  rw [hm.rex, rex?_eq, hbyte]
  by_cases hr : 4 ≤ r.val
  · simp [rexByte, hr]
  · simp [hr]

theorem Marked.secondByte_rm (hm : Marked h r rm m) (hbyte : h.byteRm = true) :
    m.secondByte rm = false := by
  unfold Marks.secondByte
  rw [hm.rex, rex?_eq, hbyte]
  by_cases hr : 4 ≤ rm.val
  · simp [rexByte, hr]
  · simp [hr]

theorem reads_operand_reg (hm : Marked h r rm m) :
    Reads (modRm m) [(0xc0 : UInt8) ||| (low3 r <<< 3) ||| low3 rm] ⟨low3 r, r, .reg rm⟩ := by
  have hread := reads_modRm_direct (isField_low3 r) hm.b
  rwa [hm.r, extended_low3] at hread

theorem reads_operand_mem {base : Gpr} (hm : Marked h r base m) (offset : Int32) :
    Reads (modRm m) (memory (low3 r) base offset).flatten ⟨low3 r, r, .mem base offset⟩ := by
  have hread := reads_modRm_memory offset (isField_low3 r) hm.b hm.x
  rwa [hm.r, extended_low3] at hread

theorem reads_direct (hm : Marked h r rm m) :
    Reads (Decode.direct m) [(0xc0 : UInt8) ||| (low3 r <<< 3) ||| low3 rm]
      (⟨low3 r, r, .reg rm⟩, rm) := (reads_operand_reg hm).pass (reads_pure _)

theorem reads_extension {op? : UInt8 → Option α} {ext : UInt8} (hext : isField ext = true)
    (hop : op? ext = some a) (hm : Marked h r rm m) :
    Reads (Decode.extension m op?) [(0xc0 : UInt8) ||| (ext <<< 3) ||| low3 rm] (a, rm) := by
  have hdirect : Reads (Decode.direct m) [(0xc0 : UInt8) ||| (ext <<< 3) ||| low3 rm]
      (⟨ext, extended m.r ext, .reg rm⟩, rm) := (reads_modRm_direct hext hm.b).pass (reads_pure _)
  refine hdirect.pass ?_
  simp only [hop]
  exact reads_pure _

/-- An instruction that has only a 64-bit form. -/
theorem reads_onlyWide (hm : Marked h r rm m) (hwide : h.wide = true)
    (f : Fin 16 → Fin 16 → Instruction) :
    Reads (Decode.direct m >>= fun o => if m.wide then pure (f o.1.field o.2) else failure)
      [(0xc0 : UInt8) ||| (low3 r <<< 3) ||| low3 rm] (f r rm) := by
  refine (reads_direct hm).pass ?_
  rw [if_pos (hm.wide.trans hwide)]
  exact reads_pure _

theorem reads_loadOr_reg (hm : Marked h r rm m) (size : Width) (f : Gpr → Gpr → Instruction) :
    Reads (loadOr m size f) [(0xc0 : UInt8) ||| (low3 r <<< 3) ||| low3 rm] (f r rm) :=
  (reads_operand_reg hm).pass (reads_pure _)

theorem reads_loadOr_mem {base : Gpr} (hm : Marked h r base m) (size : Width)
    (f : Gpr → Gpr → Instruction) (offset : Int32) :
    Reads (loadOr m size f) (memory (low3 r) base offset).flatten (.load size r base offset) :=
  (reads_operand_mem hm offset).pass (reads_pure _)

theorem reads_storeOr_mem {base : Gpr} (hm : Marked h r base m) (size : Width)
    (f : Gpr → Gpr → Option Instruction) (offset : Int32) :
    Reads (storeOr m size f) (memory (low3 r) base offset).flatten (.store size r base offset) :=
  (reads_operand_mem hm offset).pass (reads_pure _)

theorem reads_sse_reg (hm : Marked h r rm m) (op : SseOp) :
    Reads (Decode.sse m op) [(0xc0 : UInt8) ||| (low3 r <<< 3) ||| low3 rm] (.sse op r rm) :=
  (reads_operand_reg hm).pass (reads_pure _)

theorem reads_sse_mem {base : Gpr} (hm : Marked h r base m) (op : SseOp) (offset : Int32) :
    Reads (Decode.sse m op) (memory (low3 r) base offset).flatten (.sseMem op r base offset) :=
  (reads_operand_mem hm offset).pass (reads_pure _)

theorem exists_low3 (r : Fin 16) : ∃ k : Fin 8, low3 r = UInt8.ofNat k :=
  exists_field (isField_low3 r)

theorem inOpcode_low3 (hm : Marked h 0 rm m) (base : UInt8)
    (hbase : base = 0x50 ∨ base = 0x58 ∨ base = 0xb8) :
    Decode.inOpcode m (base + low3 rm) = rm := by
  unfold Decode.inOpcode
  rw [hm.b]
  clear hm
  revert rm
  rcases hbase with rfl | rfl | rfl <;> decide

/-! ### Pieces -/

theorem flatten_singly (bs : List UInt8) : (singly bs).flatten = bs := by
  unfold singly
  rw [← List.flatMap_def, List.flatMap_singleton']

theorem flatten_direct (h : Head) (r rm : Fin 16) : (X64.direct h r rm).flatten =
    h.bytes r rm ++ [(0xc0 : UInt8) ||| (low3 r <<< 3) ||| low3 rm] := flatten_singly _

theorem flatten_extension (h : Head) (ext : UInt8) (rm : Fin 16) :
    (X64.extension h ext rm).flatten =
      h.bytes 0 rm ++ [(0xc0 : UInt8) ||| (ext <<< 3) ||| low3 rm] := flatten_singly _

theorem flatten_indirect (h : Head) (r : Fin 16) (base : Gpr) (offset : Int32) :
    (indirect h r base offset).flatten =
      h.bytes r base ++ (memory (low3 r) base offset).flatten := by
  unfold indirect
  rw [List.flatten_append, flatten_singly]

theorem flatten_indirectExt (h : Head) (ext : UInt8) (base : Gpr) (offset : Int32) :
    (indirectExt h ext base offset).flatten =
      h.bytes 0 base ++ (memory ext base offset).flatten := by
  unfold indirectExt
  rw [List.flatten_append, flatten_singly]

end Decode
end Recompiler.X64
