import Recompiler.Proofs.X64.CodeBuffer
import Recompiler.Proofs.X64.Reading
import Recompiler.Proofs.X64.Registers

/-!
The decoder reads back what the encoder writes: the bytes of an instruction, wherever they stand,
say that instruction and no more. The one exception is the extension of a byte register that needs a
REX byte and does not get one.
-/
namespace Recompiler.X64

open Decode

/-- Where there is no REX byte, the numbers of the byte registers from the fifth to the eighth
stand for the second bytes of the first four. -/
def Extension.hidesByte (e : Extension) (dst src : Gpr) : Bool :=
  e = .movzbl && dst.val < 8 && 4 ≤ src.val && src.val < 8

namespace Instruction

theorem reads_arith (op : ArithOp) (wide : Bool) (dst src : Gpr) :
    Reads instruction (arith op wide dst src).bytes (arith op wide dst src) := by
  simp only [bytes, pieces]
  rw [flatten_direct]
  refine reads_first ((0x03 : UInt8) + (op.code <<< 3)) rfl rfl rfl rfl (by cases op <;> decide)
    (by cases op <;> decide) fun m hm => ?_
  obtain rfl : m.wide = wide := hm.wide
  have hread := (reads_direct hm).map fun x => arith op m.wide x.1.field x.2
  cases op <;> exact hread

theorem isField_arithCode (op : ArithOp) : isField op.code = true := by cases op <;> rfl

theorem isField_shiftCode (op : ShiftOp) : isField op.code = true := by cases op <;> rfl

theorem isField_unaryCode (op : UnaryOp) : isField op.code = true := by cases op <;> rfl

theorem ofCode?_arithCode (op : ArithOp) : ArithOp.ofCode? op.code = some op := by
  cases op <;> rfl

theorem ofCode?_shiftCode (op : ShiftOp) : ShiftOp.ofCode? op.code = some op := by
  cases op <;> rfl

theorem ofCode?_unaryCode (op : UnaryOp) : UnaryOp.ofCode? op.code = some op := by
  cases op <;> rfl

theorem reads_arithImm (op : ArithOp) (wide : Bool) (dst : Gpr) (imm : Int32) :
    Reads instruction (arithImm op wide dst imm).bytes (arithImm op wide dst imm) := by
  simp only [bytes, pieces]
  by_cases hsmall : isByte imm = true
  · rw [if_pos hsmall, List.flatten_append, flatten_extension, List.append_assoc]
    refine reads_first 0x83 rfl rfl rfl rfl (by decide) (by decide) fun m hm => ?_
    obtain rfl : m.wide = wide := hm.wide
    have hread := (reads_extension (isField_arithCode op) (ofCode?_arithCode op) hm).bind
      (q := fun x => int8 >>= fun n => pure (arithImm x.1 m.wide x.2 n))
      ((reads_int8 hsmall).map _)
    exact hread
  · rw [if_neg hsmall, List.flatten_append, flatten_extension, List.append_assoc]
    refine reads_first 0x81 rfl rfl rfl rfl (by decide) (by decide) fun m hm => ?_
    obtain rfl : m.wide = wide := hm.wide
    refine (reads_modRm_direct (isField_arithCode op) hm.b).bind ?_
    simp only [ofCode?_arithCode]
    exact (reads_int32 imm).map fun n => arithImm op m.wide dst n

theorem reads_arithMem (op : ArithOp) (base : Gpr) (offset imm : Int32) :
    Reads instruction (arithMem op base offset imm).bytes (arithMem op base offset imm) := by
  simp only [bytes, pieces]
  rw [List.flatten_append, flatten_indirectExt, List.append_assoc]
  refine reads_first 0x81 rfl rfl rfl rfl (by decide) (by decide) fun m hm => ?_
  refine (reads_modRm_memory _ (isField_arithCode op) hm.b hm.x).bind ?_
  simp only [ofCode?_arithCode, hm.wide]
  exact (reads_int32 imm).map fun n => arithMem op base offset n

theorem reads_unary (op : UnaryOp) (wide : Bool) (reg : Gpr) :
    Reads instruction (unary op wide reg).bytes (unary op wide reg) := by
  simp only [bytes, pieces]
  rw [flatten_extension]
  refine reads_first 0xf7 rfl rfl rfl rfl (by decide) (by decide) fun m hm => ?_
  obtain rfl : m.wide = wide := hm.wide
  exact (reads_extension (isField_unaryCode op) (ofCode?_unaryCode op) hm).map
    fun x => unary x.1 m.wide x.2

theorem reads_shiftImm (op : ShiftOp) (wide : Bool) (dst : Gpr) (imm : UInt8) :
    Reads instruction (shiftImm op wide dst imm).bytes (shiftImm op wide dst imm) := by
  simp only [bytes, pieces]
  by_cases hone : imm = 1
  · subst hone
    rw [if_pos rfl, flatten_extension]
    refine reads_first 0xd1 rfl rfl rfl rfl (by decide) (by decide) fun m hm => ?_
    obtain rfl : m.wide = wide := hm.wide
    exact (reads_extension (isField_shiftCode op) (ofCode?_shiftCode op) hm).map
      fun x => shiftImm x.1 m.wide x.2 1
  · rw [if_neg hone, List.flatten_append, flatten_extension, List.append_assoc]
    refine reads_first 0xc1 rfl rfl rfl rfl (by decide) (by decide) fun m hm => ?_
    obtain rfl : m.wide = wide := hm.wide
    have hread := (reads_extension (isField_shiftCode op) (ofCode?_shiftCode op) hm).bind
      (q := fun x => byte >>= fun n => pure (shiftImm x.1 m.wide x.2 n)) ((reads_byte imm).map _)
    exact hread

theorem reads_shiftCl (op : ShiftOp) (wide : Bool) (dst : Gpr) :
    Reads instruction (shiftCl op wide dst).bytes (shiftCl op wide dst) := by
  simp only [bytes, pieces]
  rw [flatten_extension]
  refine reads_first 0xd3 rfl rfl rfl rfl (by decide) (by decide) fun m hm => ?_
  obtain rfl : m.wide = wide := hm.wide
  exact (reads_extension (isField_shiftCode op) (ofCode?_shiftCode op) hm).map
    fun x => shiftCl x.1 m.wide x.2

theorem reads_mov (wide : Bool) (dst src : Gpr) :
    Reads instruction (mov wide dst src).bytes (mov wide dst src) := by
  simp only [bytes, pieces]
  rw [flatten_direct]
  refine reads_first 0x89 rfl rfl rfl rfl (by decide) (by decide) fun m hm => ?_
  obtain rfl : m.wide = wide := hm.wide
  exact (reads_operand_reg hm).pass (reads_pure (mov m.wide dst src))

theorem reads_load (size : Width) (dst base : Gpr) (offset : Int32) :
    Reads instruction (load size dst base offset).bytes (load size dst base offset) := by
  unfold bytes
  cases size <;> simp only [pieces, flatten_indirect]
  case w8 =>
    exact reads_second 0xb6 false none rfl rfl rfl rfl fun _ hm =>
      reads_loadOr_mem hm .w8 _ offset
  case w16 =>
    exact reads_second 0xb7 false none rfl rfl rfl rfl fun _ hm =>
      reads_loadOr_mem hm .w16 _ offset
  all_goals
    refine reads_first 0x8b rfl rfl rfl rfl (by decide) (by decide) fun m hm => ?_
    have hread : Reads (first m 0x8b) (memory (low3 dst) base offset).flatten
        (load (if m.wide then .w64 else .w32) dst base offset) := reads_loadOr_mem hm _ _ offset
    rw [hm.wide] at hread
    exact hread

theorem reads_store (size : Width) (src base : Gpr) (offset : Int32) :
    Reads instruction (store size src base offset).bytes (store size src base offset) := by
  unfold bytes
  cases size <;> simp only [pieces, flatten_indirect]
  case w8 =>
    refine reads_first 0x88 rfl rfl rfl rfl (by decide) (by decide) fun m hm => ?_
    refine (reads_operand_mem hm offset).pass ?_
    simp only [hm.secondByte_reg rfl]
    exact reads_pure (store .w8 src base offset)
  case w16 =>
    refine reads_data16 0x89 rfl rfl rfl (by decide) (by decide) fun m hm => ?_
    unfold Decode.data16
    rw [if_pos (by rw [hm.scalar, hm.wide]; decide)]
    exact reads_storeOr_mem hm .w16 _ offset
  all_goals
    refine reads_first 0x89 rfl rfl rfl rfl (by decide) (by decide) fun m hm => ?_
    have hread : Reads (first m 0x89) (memory (low3 src) base offset).flatten
        (store (if m.wide then .w64 else .w32) src base offset) :=
      reads_storeOr_mem hm _ (fun src dst => some (mov m.wide dst src)) offset
    rw [hm.wide] at hread
    exact hread

theorem reads_storeImm (base : Gpr) (offset imm : Int32) :
    Reads instruction (storeImm base offset imm).bytes (storeImm base offset imm) := by
  simp only [bytes, pieces]
  rw [List.flatten_append, flatten_indirectExt, List.append_assoc]
  refine reads_first 0xc7 rfl rfl rfl rfl (by decide) (by decide) fun m hm => ?_
  refine (reads_modRm_memory _ (by decide : isField 0 = true) hm.b hm.x).bind ?_
  simp only [hm.wide]
  exact (reads_int32 imm).map fun n => storeImm base offset n

theorem reads_cqo : Reads instruction cqo.bytes cqo := fun _ => rfl

theorem reads_ret : Reads instruction ret.bytes ret := fun _ => rfl

theorem reads_jump (disp : Int32) : Reads instruction (jump disp).bytes (jump disp) :=
  fun rest => (reads_int32 disp).map jump rest

theorem reads_jumpIf (cond : Cond) (disp : Int32) :
    Reads instruction (jumpIf cond disp).bytes (jumpIf cond disp) := by
  have hread := (reads_int32 disp).map (jumpIf cond)
  cases cond <;> exact fun rest => hread rest

theorem reads_callReg (reg : Gpr) : Reads instruction (callReg reg).bytes (callReg reg) := by
  simp only [bytes, pieces]
  rw [flatten_extension]
  refine reads_first 0xff rfl rfl rfl rfl (by decide) (by decide) fun m hm => ?_
  have hread : Reads (Decode.direct m) [(0xc0 : UInt8) ||| ((2 : UInt8) <<< 3) ||| low3 reg]
      (⟨2, extended m.r 2, .reg reg⟩, reg) :=
    (reads_modRm_direct (by decide) hm.b).pass (reads_pure _)
  exact hread.pass (reads_pure (callReg reg))

/-- The opcodes that hold a register. -/
theorem reads_inOpcode {base : UInt8} {wide : Bool} {reg : Gpr} {tail : List UInt8}
    {i : Instruction} (hbase : base = 0x50 ∨ base = 0x58 ∨ base = 0xb8)
    (ht : ∀ m, Marked { opcode := base + low3 reg, wide } 0 reg m →
      Reads (first m (base + low3 reg)) tail i) :
    Reads instruction ((X64.inOpcode { opcode := base, wide } reg).flatten ++ tail) i := by
  unfold X64.inOpcode
  rw [flatten_singly]
  have hop : isOpcode (base + low3 reg) = true ∧ base + low3 reg ≠ 0x0f := by
    obtain ⟨k, hk⟩ := exists_low3 reg
    rw [hk]
    clear hk ht
    revert k
    rcases hbase with rfl | rfl | rfl <;> decide
  exact reads_first _ rfl rfl rfl rfl hop.1 hop.2 ht

theorem first_push (m : Marks) : ∀ k : Fin 8, first m (0x50 + UInt8.ofNat k) =
    pure (push (Decode.inOpcode m (0x50 + UInt8.ofNat k)))
  | 0 | 1 | 2 | 3 | 4 | 5 | 6 | 7 => rfl

theorem first_pop (m : Marks) : ∀ k : Fin 8, first m (0x58 + UInt8.ofNat k) =
    pure (pop (Decode.inOpcode m (0x58 + UInt8.ofNat k)))
  | 0 | 1 | 2 | 3 | 4 | 5 | 6 | 7 => rfl

theorem first_movImm (m : Marks) : ∀ k : Fin 8, first m (0xb8 + UInt8.ofNat k) =
    word (if m.wide then 8 else 4) >>= fun n =>
      pure (movImm (Decode.inOpcode m (0xb8 + UInt8.ofNat k)) n)
  | 0 | 1 | 2 | 3 | 4 | 5 | 6 | 7 => rfl

theorem reads_push (reg : Gpr) : Reads instruction (push reg).bytes (push reg) := by
  simp only [bytes, pieces]
  rw [← List.append_nil (List.flatten _)]
  refine reads_inOpcode (by decide) fun m hm => ?_
  obtain ⟨k, hk⟩ := exists_low3 reg
  rw [hk, first_push, ← hk, inOpcode_low3 hm 0x50 (by decide)]
  exact reads_pure _

theorem reads_pop (reg : Gpr) : Reads instruction (pop reg).bytes (pop reg) := by
  simp only [bytes, pieces]
  rw [← List.append_nil (List.flatten _)]
  refine reads_inOpcode (by decide) fun m hm => ?_
  obtain ⟨k, hk⟩ := exists_low3 reg
  rw [hk, first_pop, ← hk, inOpcode_low3 hm 0x58 (by decide)]
  exact reads_pure _

/-- A number from the upper end is the sign extension of its lower half. -/
theorem toInt64_low {imm : UInt64} (hlarge : 0xffffffff80000000 ≤ imm) :
    (Bytes.toWord (Bytes.ofWord 4 imm)).toUInt32.toInt32.toInt64.toUInt64 = imm := by
  have hlow : (Bytes.toWord (Bytes.ofWord 4 imm)).toUInt32 = imm.toUInt32 := by
    apply UInt32.toNat_inj.mp
    rw [UInt64.toNat_toUInt32, UInt64.toNat_toUInt32, Bytes.toNat_toWord_ofWord (by decide)]
    exact Nat.mod_mod ..
  have hge : 0xffffffff80000000 ≤ imm.toNat := UInt64.le_iff_toNat_le.mp hlarge
  have hlt := imm.toNat_lt
  rw [hlow]
  apply UInt64.toNat_inj.mp
  change ((imm.toBitVec.setWidth 32).signExtend 64).toNat = imm.toBitVec.toNat
  change 0xffffffff80000000 ≤ imm.toBitVec.toNat at hge
  change imm.toBitVec.toNat < 2 ^ 64 at hlt
  have hmsb : (imm.toBitVec.setWidth 32).msb = true := by
    rw [BitVec.msb_eq_decide, BitVec.toNat_setWidth, decide_eq_true_iff]
    omega
  rw [BitVec.toNat_signExtend, hmsb, if_pos rfl]
  simp only [BitVec.toNat_setWidth]
  omega

theorem reads_movImm (dst : Gpr) (imm : UInt64) :
    Reads instruction (movImm dst imm).bytes (movImm dst imm) := by
  simp only [bytes, pieces, movImmPieces]
  obtain ⟨k, hk⟩ := exists_low3 dst
  by_cases hsmall : imm ≤ 0xffffffff
  · rw [if_pos hsmall, List.flatten_append]
    refine reads_inOpcode (by decide) fun m hm => ?_
    rw [hk, first_movImm, ← hk, inOpcode_low3 hm 0xb8 (by decide), hm.wide]
    exact (reads_word_four (Nat.lt_succ_of_le hsmall)).map (movImm dst)
  · rw [if_neg hsmall]
    by_cases hlarge : imm ≥ 0xffffffff80000000
    · rw [if_pos hlarge, List.flatten_append, flatten_extension, List.append_assoc]
      refine reads_first 0xc7 rfl rfl rfl rfl (by decide) (by decide) fun m hm => ?_
      refine (reads_modRm_direct (by decide : isField 0 = true) hm.b).bind ?_
      have hread := (reads_word 4 imm).map fun v =>
        movImm dst v.toUInt32.toInt32.toInt64.toUInt64
      rw [toInt64_low hlarge] at hread
      simp only [hm.wide]
      exact hread
    · rw [if_neg hlarge, List.flatten_append]
      refine reads_inOpcode (by decide) fun m hm => ?_
      rw [hk, first_movImm, ← hk, inOpcode_low3 hm 0xb8 (by decide), hm.wide]
      exact (reads_word_eight imm).map (movImm dst)

theorem reads_imul (wide : Bool) (dst src : Gpr) :
    Reads instruction (imul wide dst src).bytes (imul wide dst src) := by
  simp only [bytes, pieces]
  rw [flatten_direct]
  refine reads_second 0xaf false none rfl rfl rfl rfl fun x hm => ?_
  obtain rfl : Marks.wide ⟨false, none, x⟩ = wide := hm.wide
  exact (reads_direct hm).map fun o => imul _ o.1.field o.2

theorem secondByte_movzbl {dst src : Gpr} {m : Marks}
    (hm : Marked Extension.movzbl.head dst src m) :
    m.secondByte src = Extension.movzbl.hidesByte dst src := by
  have hrex : m.rex = rexByte false (needsRex dst) (needsRex src) false := hm.rex.trans (rex?_eq ..)
  unfold Marks.secondByte Extension.hidesByte
  rw [hrex]
  by_cases hdst : dst.val < 8
  · by_cases hsrc : src.val < 8
    · simp [rexByte, needsRex, hdst, hsrc]
    · simp [rexByte, needsRex, hdst, hsrc]
  · simp [rexByte, needsRex, hdst]

theorem reads_extend {e : Extension} {dst src : Gpr} (hhidden : e.hidesByte dst src = false) :
    Reads instruction (extend e dst src).bytes (extend e dst src) := by
  simp only [bytes, pieces]
  rw [flatten_direct]
  cases e with
  | movzbl =>
    refine reads_second 0xb6 false none rfl rfl rfl rfl fun x hm => ?_
    have hread := reads_loadOr_reg hm .w8 (zeroExtendByte ⟨false, none, x⟩)
    rw [zeroExtendByte, secondByte_movzbl hm, hhidden] at hread
    exact hread
  | movzwl =>
    exact reads_second 0xb7 false none rfl rfl rfl rfl fun x hm =>
      reads_loadOr_reg hm .w16 (extend .movzwl)
  | movsbq =>
    exact reads_second 0xbe false none rfl rfl rfl rfl fun x hm =>
      reads_onlyWide hm rfl (extend .movsbq)
  | movswq =>
    exact reads_second 0xbf false none rfl rfl rfl rfl fun x hm =>
      reads_onlyWide hm rfl (extend .movswq)
  | movslq =>
    exact reads_first 0x63 rfl rfl rfl rfl (by decide) (by decide) fun m hm =>
      reads_onlyWide hm rfl (extend .movslq)

/-- Without a REX byte the extension takes its source from somewhere else. -/
theorem reads_extend_hidden {dst src : Gpr} (hhidden : Extension.movzbl.hidesByte dst src = true) :
    Reads instruction (extend .movzbl dst src).bytes (extendHigh dst (src - 4)) := by
  simp only [bytes, pieces]
  rw [flatten_direct]
  refine reads_second 0xb6 false none rfl rfl rfl rfl fun x hm => ?_
  have hread := reads_loadOr_reg hm .w8 (zeroExtendByte ⟨false, none, x⟩)
  rw [zeroExtendByte, secondByte_movzbl hm, hhidden] at hread
  exact hread

theorem reads_setcc (cond : Cond) (dst : Gpr) :
    Reads instruction (setcc cond dst).bytes (setcc cond dst) := by
  simp only [bytes, pieces]
  rw [flatten_extension]
  refine reads_second ((0x90 : UInt8) + cond.code) false none rfl rfl rfl rfl fun x hm => ?_
  have hdirect : Reads (Decode.direct ⟨false, none, x⟩)
      [(0xc0 : UInt8) ||| ((0 : UInt8) <<< 3) ||| low3 dst]
      (⟨0, extended (Marks.r ⟨false, none, x⟩) 0, .reg dst⟩, dst) :=
    (reads_modRm_direct (by decide) hm.b).pass (reads_pure _)
  have hread : Reads (Decode.direct ⟨false, none, x⟩ >>= fun o =>
      if Marks.secondByte ⟨false, none, x⟩ o.2 then failure else pure (setcc cond o.2)) _ _ :=
    hdirect.pass (b := setcc cond dst) (by
      rw [hm.secondByte_rm rfl]
      exact reads_pure _)
  cases cond <;> exact hread

theorem reads_cmov (cond : Cond) (wide : Bool) (dst src : Gpr) :
    Reads instruction (cmov cond wide dst src).bytes (cmov cond wide dst src) := by
  simp only [bytes, pieces]
  rw [flatten_direct]
  refine reads_second ((0x40 : UInt8) + cond.code) false none rfl rfl rfl rfl fun x hm => ?_
  obtain rfl : Marks.wide ⟨false, none, x⟩ = wide := hm.wide
  have hread := (reads_direct hm).map fun o => cmov cond (Marks.wide ⟨false, none, x⟩) o.1.field o.2
  cases cond <;> exact hread

theorem reads_test (wide : Bool) (a b : Gpr) :
    Reads instruction (test wide a b).bytes (test wide a b) := by
  simp only [bytes, pieces]
  rw [flatten_direct]
  refine reads_first 0x85 rfl rfl rfl rfl (by decide) (by decide) fun m hm => ?_
  obtain rfl : m.wide = wide := hm.wide
  exact (reads_direct hm).map fun o => test m.wide o.2 o.1.field

/-- The opcode of an SSE operation is its own. -/
theorem reads_sseOp {op : SseOp} {r rm : Fin 16} {tail : List UInt8} {i : Instruction}
    (ht : ∀ m, Marked op.head r rm m → Reads (Decode.sse m op) tail i) :
    Reads instruction (op.head.bytes r rm ++ tail) i := by
  cases op with
  | load d => exact reads_second 0x10 false (some d) rfl rfl rfl rfl fun x hm => ht _ hm
  | store d => exact reads_second 0x11 false (some d) rfl rfl rfl rfl fun x hm => ht _ hm
  | movaps => exact reads_second 0x28 false none rfl rfl rfl rfl fun x hm => ht _ hm
  | convert d => exact reads_second 0x5a false (some d) rfl rfl rfl rfl fun x hm => ht _ hm
  | ucomis d =>
    cases d with
    | false => exact reads_second 0x2e false none rfl rfl rfl rfl fun x hm => ht _ hm
    | true => exact reads_second 0x2e true none rfl rfl rfl rfl fun x hm => ht _ hm
  | float op d =>
    refine reads_second op.code false (some d) rfl rfl rfl rfl fun x hm => ?_
    cases op <;> exact ht _ hm

theorem reads_sse (op : SseOp) (dst src : Xmm) :
    Reads instruction (Instruction.sse op dst src).bytes (Instruction.sse op dst src) := by
  simp only [bytes, pieces]
  rw [flatten_direct]
  exact reads_sseOp fun m hm => reads_sse_reg hm op

theorem reads_sseMem (op : SseOp) (xmm : Xmm) (base : Gpr) (offset : Int32) :
    Reads instruction (sseMem op xmm base offset).bytes (sseMem op xmm base offset) := by
  simp only [bytes, pieces]
  rw [flatten_indirect]
  exact reads_sseOp fun m hm => reads_sse_mem hm op offset

theorem reads_movqToXmm (dst : Xmm) (src : Gpr) :
    Reads instruction (movqToXmm dst src).bytes (movqToXmm dst src) := by
  simp only [bytes, pieces]
  rw [flatten_direct]
  exact reads_second 0x6e true none rfl rfl rfl rfl fun x hm =>
    reads_onlyWide hm rfl movqToXmm

theorem reads_movqFromXmm (dst : Gpr) (src : Xmm) :
    Reads instruction (movqFromXmm dst src).bytes (movqFromXmm dst src) := by
  simp only [bytes, pieces]
  rw [flatten_direct]
  exact reads_second 0x7e true none rfl rfl rfl rfl fun x hm =>
    reads_onlyWide hm rfl (fun src dst => movqFromXmm dst src)

theorem reads_intToFloat (d : Bool) (dst : Xmm) (src : Gpr) :
    Reads instruction (intToFloat d dst src).bytes (intToFloat d dst src) := by
  simp only [bytes, pieces]
  rw [flatten_direct]
  exact reads_second 0x2a false (some d) rfl rfl rfl rfl fun x hm =>
    reads_onlyWide hm rfl (intToFloat d)

theorem reads_floatToInt (d : Bool) (dst : Gpr) (src : Xmm) :
    Reads instruction (floatToInt d dst src).bytes (floatToInt d dst src) := by
  simp only [bytes, pieces]
  rw [flatten_direct]
  exact reads_second 0x2c false (some d) rfl rfl rfl rfl fun x hm =>
    reads_onlyWide hm rfl (floatToInt d)

/-! ### All of them -/

/-- The extension that the bytes of `extend` say. -/
def saidExtend (e : Extension) (dst src : Gpr) : Instruction :=
  if e.hidesByte dst src then extendHigh dst (src - 4) else extend e dst src

/-- What the bytes of an instruction say. -/
def said : Instruction → Instruction
  | extend e dst src => saidExtend e dst src
  | extendHigh dst src => saidExtend .movzbl dst (src + 4)
  | i => i

theorem reads_saidExtend (e : Extension) (dst src : Gpr) :
    Reads instruction (extend e dst src).bytes (saidExtend e dst src) := by
  unfold saidExtend
  by_cases hhidden : e.hidesByte dst src = true
  · obtain rfl : e = .movzbl := by
      simp only [Extension.hidesByte, Bool.and_eq_true, decide_eq_true_eq] at hhidden
      exact hhidden.1.1.1
    rw [if_pos hhidden]
    exact reads_extend_hidden hhidden
  · rw [if_neg hhidden]
    exact reads_extend (Bool.not_eq_true _ ▸ hhidden)

theorem reads_said (i : Instruction) : Reads instruction i.bytes i.said := by
  cases i with
  | arith op wide dst src => exact reads_arith op wide dst src
  | arithImm op wide dst imm => exact reads_arithImm op wide dst imm
  | arithMem op base offset imm => exact reads_arithMem op base offset imm
  | unary op wide reg => exact reads_unary op wide reg
  | shiftImm op wide dst imm => exact reads_shiftImm op wide dst imm
  | shiftCl op wide dst => exact reads_shiftCl op wide dst
  | mov wide dst src => exact reads_mov wide dst src
  | movImm dst imm => exact reads_movImm dst imm
  | extend e dst src => exact reads_saidExtend e dst src
  | extendHigh dst src => exact reads_saidExtend .movzbl dst (src + 4)
  | imul wide dst src => exact reads_imul wide dst src
  | load size dst base offset => exact reads_load size dst base offset
  | store size src base offset => exact reads_store size src base offset
  | storeImm base offset imm => exact reads_storeImm base offset imm
  | cqo => exact reads_cqo
  | ret => exact reads_ret
  | jump disp => exact reads_jump disp
  | jumpIf cond disp => exact reads_jumpIf cond disp
  | callReg reg => exact reads_callReg reg
  | push reg => exact reads_push reg
  | pop reg => exact reads_pop reg
  | setcc cond dst => exact reads_setcc cond dst
  | cmov cond wide dst src => exact reads_cmov cond wide dst src
  | test wide a b => exact reads_test wide a b
  | sse op dst src => exact reads_sse op dst src
  | sseMem op xmm base offset => exact reads_sseMem op xmm base offset
  | movqToXmm dst src => exact reads_movqToXmm dst src
  | movqFromXmm dst src => exact reads_movqFromXmm dst src
  | intToFloat d dst src => exact reads_intToFloat d dst src
  | floatToInt d dst src => exact reads_floatToInt d dst src

theorem said_eq_self {i : Instruction} (hhigh : ∀ dst src, i ≠ extendHigh dst src)
    (hvisible : ∀ e dst src, i = extend e dst src → e.hidesByte dst src = false) :
    i.said = i := by
  cases i with
  | extend e dst src => exact if_neg (by rw [hvisible e dst src rfl]; exact Bool.false_ne_true)
  | extendHigh dst src => exact absurd rfl (hhigh dst src)
  | _ => rfl

/-! ### Length -/

theorem length_headBytes (h : Head) (r rm : Fin 16) : (h.bytes r rm).length ≤ 5 := by
  have hmarks : h.marks.length ≤ 2 := by
    unfold Head.marks
    split <;> split <;> decide
  have hrex : (h.rex? r rm).toList.length ≤ 1 := by
    cases h.rex? r rm <;> exact Nat.le_of_ble_eq_true rfl
  unfold Head.bytes
  rw [List.length_append, List.length_append]
  split <;> simp only [List.length_cons, List.length_nil] <;> omega

theorem length_memory (field : UInt8) (base : Gpr) (offset : Int32) :
    (memory field base offset).flatten.length ≤ 6 := by
  obtain ⟨mode, disp, hdisp, hflat⟩ := flatten_memory field base offset
  have hlen : disp.length ≤ 4 := by
    cases hdisp with
    | none => exact Nat.zero_le 4
    | byte => exact Nat.le_of_ble_eq_true rfl
    | word => exact (Bytes.length_ofWord 4 _).le
  rw [hflat, List.length_append, List.length_append]
  split <;> simp only [List.length_cons, List.length_nil] <;> omega

theorem length_direct (h : Head) (r rm : Fin 16) : (X64.direct h r rm).flatten.length ≤ 6 := by
  rw [flatten_direct, List.length_append]
  exact Nat.add_le_add_right (length_headBytes h r rm) 1

theorem length_extension (h : Head) (ext : UInt8) (rm : Fin 16) :
    (X64.extension h ext rm).flatten.length ≤ 6 := by
  rw [flatten_extension, List.length_append]
  exact Nat.add_le_add_right (length_headBytes h 0 rm) 1

theorem length_inOpcode (h : Head) (reg : Gpr) : (X64.inOpcode h reg).flatten.length ≤ 5 := by
  unfold X64.inOpcode
  rw [flatten_singly]
  exact length_headBytes _ 0 reg

theorem length_indirect (h : Head) (r : Fin 16) (base : Gpr) (offset : Int32) :
    (indirect h r base offset).flatten.length ≤ 11 := by
  rw [flatten_indirect, List.length_append]
  exact Nat.add_le_add (length_headBytes h r base) (length_memory (low3 r) base offset)

theorem length_indirectExt (h : Head) (ext : UInt8) (base : Gpr) (offset : Int32) :
    (indirectExt h ext base offset).flatten.length ≤ 11 := by
  rw [flatten_indirectExt, List.length_append]
  exact Nat.add_le_add (length_headBytes h 0 base) (length_memory ext base offset)

theorem length_jumpHead (cond : Option Cond) : (jumpHead cond).flatten.length ≤ 5 := by
  cases cond with
  | none => exact Nat.le_of_ble_eq_true rfl
  | some c =>
    unfold jumpHead
    rw [flatten_singly]
    exact length_headBytes _ 0 0

/-- An immediate behind the rest. -/
theorem length_immediate {p : Pieces} {imm : List UInt8} {n k : Nat} (hp : p.flatten.length ≤ n)
    (himm : imm.length ≤ k) (hsum : n + k ≤ Machine.longest) :
    (p ++ [imm]).flatten.length ≤ Machine.longest := by
  rw [List.flatten_append, List.length_append, List.flatten_singleton]
  omega

theorem length_imm32 (n : Int32) : (imm32 n).length ≤ 4 := (Bytes.length_ofWord 4 _).le

/-- No instruction is longer than the machine can take. -/
theorem length_bytes (i : Instruction) : i.bytes.length ≤ Machine.longest := by
  have hdirect (h : Head) (r rm : Fin 16) : (X64.direct h r rm).flatten.length ≤ Machine.longest :=
    (length_direct h r rm).trans (by decide)
  have hextension (h : Head) (ext : UInt8) (rm : Fin 16) :
      (X64.extension h ext rm).flatten.length ≤ Machine.longest :=
    (length_extension h ext rm).trans (by decide)
  have hindirect (h : Head) (r : Fin 16) (base : Gpr) (offset : Int32) :
      (indirect h r base offset).flatten.length ≤ Machine.longest :=
    (length_indirect h r base offset).trans (by decide)
  cases i with
  | arithImm op wide dst imm =>
    simp only [bytes, pieces]
    split
    · exact length_immediate (length_extension ..) (Nat.le_refl 1) (by decide)
    · exact length_immediate (length_extension ..) (length_imm32 imm) (by decide)
  | shiftImm op wide dst imm =>
    simp only [bytes, pieces]
    split
    · exact hextension ..
    · exact length_immediate (length_extension ..) (Nat.le_refl 1) (by decide)
  | movImm dst imm =>
    simp only [bytes, pieces, movImmPieces]
    split
    · exact length_immediate (length_inOpcode ..) (Bytes.length_ofWord 4 imm).le (by decide)
    · split
      · exact length_immediate (length_extension ..) (Bytes.length_ofWord 4 imm).le (by decide)
      · exact length_immediate (length_inOpcode ..) (Bytes.length_ofWord 8 imm).le (by decide)
  | load size => cases size <;> exact hindirect ..
  | store size => cases size <;> exact hindirect ..
  | arithMem | storeImm =>
    exact length_immediate (length_indirectExt ..) (length_imm32 _) (by decide)
  | jump | jumpIf => exact length_immediate (length_jumpHead _) (length_imm32 _) (by decide)
  | cqo | ret => exact Nat.le_of_ble_eq_true rfl
  | unary | shiftCl | callReg | setcc => exact hextension ..
  | push | pop => exact (length_inOpcode ..).trans (by decide)
  | sseMem => exact hindirect ..
  | arith | mov | extend | extendHigh | imul | cmov | test | sse | movqToXmm | movqFromXmm
  | intToFloat | floatToInt => exact hdirect ..

/-! ### What the buffer holds -/

/-- Instructions with a memory operand. -/
def takesMemory : Instruction → Bool
  | arithMem .. | load .. | store .. | storeImm .. | sseMem .. => true
  | _ => false

/-- Instructions on registers and constants. -/
def takesRegisters : Instruction → Bool
  | arith .. | arithImm .. | unary .. | shiftImm .. | shiftCl .. | mov .. | movImm .. | extend ..
  | imul .. | callReg .. | push .. | pop .. | setcc .. | cmov .. | test .. | sse .. | movqToXmm ..
  | movqFromXmm .. | intToFloat .. | floatToInt .. => true
  | _ => false

end Instruction

namespace CodeBuffer

variable {b : CodeBuffer} {i : Instruction}

/-- Where the buffer has room, an instruction is appended, and its bytes are read back. -/
theorem decode_emit (hopen : b.overflowed = false)
    (hroom : b.offset + i.bytes.length ≤ b.capacity) :
    (b.emit i).overflowed = false ∧ Appends b (b.emit i) i.bytes ∧
      ∀ rest, decode ((b.emit i).view b.offset (b.emit i).offset ++ rest) =
        some (i.said, rest) := by
  have happends : Appends b (b.emit i) i.bytes := appends_writeAll hopen hroom
  refine ⟨overflowed_writeAll hopen hroom, happends, fun rest => ?_⟩
  rw [happends.written]
  exact Instruction.reads_said i rest

/-- The bytes of an instruction with a memory operand decode to that instruction alone: the same
operation, width, register, base, offset and constant. -/
theorem decode_emit_memory (hmemory : i.takesMemory = true) (hopen : b.overflowed = false)
    (hroom : b.offset + i.bytes.length ≤ b.capacity) :
    (b.emit i).overflowed = false ∧ Appends b (b.emit i) i.bytes ∧
      ∀ rest, decode ((b.emit i).view b.offset (b.emit i).offset ++ rest) = some (i, rest) := by
  have hsaid : i.said = i := by
    cases i <;> first | rfl | exact absurd hmemory Bool.false_ne_true
  have hemit := decode_emit hopen hroom
  rwa [hsaid] at hemit

theorem decode_emit_memory_stack :
    decode ((({ capacity := 4096 } : CodeBuffer).emit
      (.store .w8 Gpr.rsi Gpr.r12 (-128))).view 0 5 ++ [0xc3]) =
        some (.store .w8 Gpr.rsi Gpr.r12 (-128), [0xc3]) :=
  (decode_emit_memory (b := { capacity := 4096 }) (i := .store .w8 Gpr.rsi Gpr.r12 (-128)) rfl rfl
    (by decide)).2.2 [0xc3]

/-- The bytes of an instruction on registers and constants decode to that instruction alone, and a
constant that is loaded arrives as it is. Extensions of a byte register need a source that does not
depend on a REX byte. -/
theorem decode_emit_registers (hregisters : i.takesRegisters = true)
    (hvisible : ∀ e dst src, i = .extend e dst src → e.hidesByte dst src = false)
    (hopen : b.overflowed = false) (hroom : b.offset + i.bytes.length ≤ b.capacity) :
    (b.emit i).overflowed = false ∧ Appends b (b.emit i) i.bytes ∧
      (∀ rest, decode ((b.emit i).view b.offset (b.emit i).offset ++ rest) = some (i, rest)) ∧
      ∀ reg imm, i = .movImm reg imm → ∀ {σ : Type} (g : Guest σ) (m : Machine σ),
        ∃ m', m.step g i = .ok (.inl m') ∧ m'.gpr reg = imm ∧ ∀ r ≠ reg, m'.gpr r = m.gpr r := by
  have hsaid : i.said = i := by
    refine Instruction.said_eq_self (fun dst src h => ?_) hvisible
    subst h
    exact absurd hregisters Bool.false_ne_true
  obtain ⟨hfits, happends, hdecode⟩ := decode_emit hopen hroom
  rw [hsaid] at hdecode
  refine ⟨hfits, happends, hdecode, ?_⟩
  rintro reg imm rfl σ g m
  exact ⟨m.setGpr reg imm, rfl, m.gpr_setGpr_self reg imm, fun r hr => m.gpr_setGpr_of_ne hr imm⟩

theorem decode_emit_registers_extended :
    decode ((({ capacity := 4096 } : CodeBuffer).emit
      (.extend .movzbl Gpr.r8 Gpr.rsi)).view 0 4 ++ [0xc3]) =
        some (.extend .movzbl Gpr.r8 Gpr.rsi, [0xc3]) :=
  (decode_emit_registers (b := { capacity := 4096 }) (i := .extend .movzbl Gpr.r8 Gpr.rsi) rfl
    (by rintro e dst src ⟨⟩; rfl) rfl (by decide)).2.2.1 [0xc3]

/-- The extension of `spl` comes without a REX byte, and so extends `ah`. -/
theorem decode_emit_hidden :
    let b := ({ capacity := 4096 } : CodeBuffer).emit (.extend .movzbl Gpr.rax Gpr.rsp)
    b.overflowed = false ∧ b.view 0 b.offset = [0x0f, 0xb6, 0xc4] ∧
      decode (b.view 0 b.offset) = some (.extendHigh Gpr.rax Gpr.rax, []) ∧
      decode (b.view 0 b.offset) ≠ some (.extend .movzbl Gpr.rax Gpr.rsp, []) := by
  have hbytes : (({ capacity := 4096 } : CodeBuffer).emit
      (.extend .movzbl Gpr.rax Gpr.rsp)).view 0 3 = [0x0f, 0xb6, 0xc4] := by decide
  have hdecode : decode [0x0f, 0xb6, 0xc4] = some (.extendHigh Gpr.rax Gpr.rax, []) := rfl
  refine ⟨by decide, hbytes, ?_, ?_⟩
  · exact (congrArg decode hbytes).trans hdecode
  · intro h
    have hsame := ((congrArg decode hbytes).trans hdecode).symm.trans h
    cases hsame

end CodeBuffer
end Recompiler.X64
