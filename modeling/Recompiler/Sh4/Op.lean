import Recompiler.Index
import Recompiler.Text.Number
import Recompiler.Trait

/-!
The SH4 instructions. Encodings are given by signatures: `0` and `1` are fixed bits, `n` and `m`
register fields, `i` an immediate and `d` a displacement.
-/
namespace Recompiler.Sh4

inductive Op where
  | nop | movImm | mov | loadByte | loadWord | loadLong | storeByte | storeWord | storeLong
  | loadPcRel | mova | movt | extSByte | extSWord | extUByte | extUWord | add | addImm | sub
  | and | or | xor | not | dt | shll | shlr | shad | shld | cmpEq | cmpHs | cmpGe | cmpHi | cmpGt
  | cmpEqImm | tst | clrt | sett | bt | bf | btS | bfS | bra | bsr | braf | bsrf | jmp | jsr
  | rts | rte | trapa | ldcSr | stcSr | ldsFpscr | stsFpscr | ldsPr | stsPr
  /-- Every encoding that no signature fits. -/
  | invalid
  deriving DecidableEq, Inhabited, Repr

/-- Encoding and description of an instruction. -/
structure Row where
  signature : String
  info : InstrInfo

namespace Op

/-- The instructions in table order, without the invalid one. -/
def all : List Op :=
  [nop, movImm, mov, loadByte, loadWord, loadLong, storeByte, storeWord, storeLong, loadPcRel,
   mova, movt, extSByte, extSWord, extUByte, extUWord, add, addImm, sub, and, or, xor, not, dt,
   shll, shlr, shad, shld, cmpEq, cmpHs, cmpGe, cmpHi, cmpGt, cmpEqImm, tst, clrt, sett, bt, bf,
   btS, bfS, bra, bsr, braf, bsrf, jmp, jsr, rts, rte, trapa, ldcSr, stcSr, ldsFpscr, stsFpscr,
   ldsPr, stsPr]

def row : Op → Row
  | nop => ⟨"0000000000001001", ⟨"nop", "nop", 1, []⟩⟩
  | movImm => ⟨"1110nnnniiiiiiii", ⟨"mov_imm", "mov #imm,Rn", 1, []⟩⟩
  | mov => ⟨"0110nnnnmmmm0011", ⟨"mov", "mov Rm,Rn", 1, []⟩⟩
  | loadByte => ⟨"0110nnnnmmmm0000", ⟨"movb_ld", "mov.b @Rm,Rn", 1, [.load]⟩⟩
  | loadWord => ⟨"0110nnnnmmmm0001", ⟨"movw_ld", "mov.w @Rm,Rn", 1, [.load]⟩⟩
  | loadLong => ⟨"0110nnnnmmmm0010", ⟨"movl_ld", "mov.l @Rm,Rn", 1, [.load]⟩⟩
  | storeByte => ⟨"0010nnnnmmmm0000", ⟨"movb_st", "mov.b Rm,@Rn", 1, [.store]⟩⟩
  | storeWord => ⟨"0010nnnnmmmm0001", ⟨"movw_st", "mov.w Rm,@Rn", 1, [.store]⟩⟩
  | storeLong => ⟨"0010nnnnmmmm0010", ⟨"movl_st", "mov.l Rm,@Rn", 1, [.store]⟩⟩
  | loadPcRel => ⟨"1101nnnndddddddd", ⟨"movl_pc", "mov.l @(disp,pc),Rn", 1, [.load]⟩⟩
  | mova => ⟨"11000111dddddddd", ⟨"mova", "mova @(disp,pc),r0", 1, []⟩⟩
  | movt => ⟨"0000nnnn00101001", ⟨"movt", "movt Rn", 1, []⟩⟩
  | extSByte => ⟨"0110nnnnmmmm1110", ⟨"extsb", "exts.b Rm,Rn", 1, []⟩⟩
  | extSWord => ⟨"0110nnnnmmmm1111", ⟨"extsw", "exts.w Rm,Rn", 1, []⟩⟩
  | extUByte => ⟨"0110nnnnmmmm1100", ⟨"extub", "extu.b Rm,Rn", 1, []⟩⟩
  | extUWord => ⟨"0110nnnnmmmm1101", ⟨"extuw", "extu.w Rm,Rn", 1, []⟩⟩
  | add => ⟨"0011nnnnmmmm1100", ⟨"add", "add Rm,Rn", 1, []⟩⟩
  | addImm => ⟨"0111nnnniiiiiiii", ⟨"add_imm", "add #imm,Rn", 1, []⟩⟩
  | sub => ⟨"0011nnnnmmmm1000", ⟨"sub", "sub Rm,Rn", 1, []⟩⟩
  | and => ⟨"0010nnnnmmmm1001", ⟨"and", "and Rm,Rn", 1, []⟩⟩
  | or => ⟨"0010nnnnmmmm1011", ⟨"or", "or Rm,Rn", 1, []⟩⟩
  | xor => ⟨"0010nnnnmmmm1010", ⟨"xor", "xor Rm,Rn", 1, []⟩⟩
  | not => ⟨"0110nnnnmmmm0111", ⟨"not", "not Rm,Rn", 1, []⟩⟩
  | dt => ⟨"0100nnnn00010000", ⟨"dt", "dt Rn", 1, [.compare]⟩⟩
  | shll => ⟨"0100nnnn00000000", ⟨"shll", "shll Rn", 1, []⟩⟩
  | shlr => ⟨"0100nnnn00000001", ⟨"shlr", "shlr Rn", 1, []⟩⟩
  | shad => ⟨"0100nnnnmmmm1100", ⟨"shad", "shad Rm,Rn", 1, []⟩⟩
  | shld => ⟨"0100nnnnmmmm1101", ⟨"shld", "shld Rm,Rn", 1, []⟩⟩
  | cmpEq => ⟨"0011nnnnmmmm0000", ⟨"cmp_eq", "cmp/eq Rm,Rn", 1, [.compare]⟩⟩
  | cmpHs => ⟨"0011nnnnmmmm0010", ⟨"cmp_hs", "cmp/hs Rm,Rn", 1, [.compare]⟩⟩
  | cmpGe => ⟨"0011nnnnmmmm0011", ⟨"cmp_ge", "cmp/ge Rm,Rn", 1, [.compare]⟩⟩
  | cmpHi => ⟨"0011nnnnmmmm0110", ⟨"cmp_hi", "cmp/hi Rm,Rn", 1, [.compare]⟩⟩
  | cmpGt => ⟨"0011nnnnmmmm0111", ⟨"cmp_gt", "cmp/gt Rm,Rn", 1, [.compare]⟩⟩
  | cmpEqImm => ⟨"10001000iiiiiiii", ⟨"cmp_eq_i", "cmp/eq #imm,r0", 1, [.compare]⟩⟩
  | tst => ⟨"0010nnnnmmmm1000", ⟨"tst", "tst Rm,Rn", 1, [.compare]⟩⟩
  | clrt => ⟨"0000000000001000", ⟨"clrt", "clrt", 1, []⟩⟩
  | sett => ⟨"0000000000011000", ⟨"sett", "sett", 1, []⟩⟩
  | bt => ⟨"10001001dddddddd", ⟨"bt", "bt disp", 1, [.branch, .storePc, .conditional]⟩⟩
  | bf => ⟨"10001011dddddddd", ⟨"bf", "bf disp", 1, [.branch, .storePc, .conditional]⟩⟩
  | btS =>
    ⟨"10001101dddddddd", ⟨"bts", "bt/s disp", 1, [.branch, .storePc, .conditional, .delayed]⟩⟩
  | bfS =>
    ⟨"10001111dddddddd", ⟨"bfs", "bf/s disp", 1, [.branch, .storePc, .conditional, .delayed]⟩⟩
  | bra => ⟨"1010dddddddddddd", ⟨"bra", "bra disp", 1, [.branch, .storePc, .delayed]⟩⟩
  | bsr => ⟨"1011dddddddddddd", ⟨"bsr", "bsr disp", 1, [.branch, .storePc, .delayed]⟩⟩
  | braf => ⟨"0000mmmm00100011", ⟨"braf", "braf Rm", 2, [.branch, .storePc, .delayed]⟩⟩
  | bsrf => ⟨"0000mmmm00000011", ⟨"bsrf", "bsrf Rm", 2, [.branch, .storePc, .delayed]⟩⟩
  | jmp => ⟨"0100mmmm00101011", ⟨"jmp", "jmp @Rm", 2, [.branch, .storePc, .delayed]⟩⟩
  | jsr => ⟨"0100mmmm00001011", ⟨"jsr", "jsr @Rm", 2, [.branch, .storePc, .delayed]⟩⟩
  | rts => ⟨"0000000000001011", ⟨"rts", "rts", 2, [.branch, .storePc, .delayed]⟩⟩
  | rte => ⟨"0000000000101011", ⟨"rte", "rte", 5, [.branch, .storePc, .delayed, .storeSr]⟩⟩
  | trapa => ⟨"11000011iiiiiiii", ⟨"trapa", "trapa #imm", 7, [.branch, .storePc, .storeSr]⟩⟩
  | ldcSr => ⟨"0100mmmm00001110", ⟨"ldc_sr", "ldc Rm,sr", 4, [.storeSr]⟩⟩
  | stcSr => ⟨"0000nnnn00000010", ⟨"stc_sr", "stc sr,Rn", 2, []⟩⟩
  | ldsFpscr => ⟨"0100mmmm01101010", ⟨"lds_fpscr", "lds Rm,fpscr", 1, [.storeFpscr]⟩⟩
  | stsFpscr => ⟨"0000nnnn01101010", ⟨"sts_fpscr", "sts fpscr,Rn", 1, []⟩⟩
  | ldsPr => ⟨"0100mmmm00101010", ⟨"lds_pr", "lds Rm,pr", 2, []⟩⟩
  | stsPr => ⟨"0000nnnn00101010", ⟨"sts_pr", "sts pr,Rn", 2, []⟩⟩
  | invalid => ⟨"", ⟨"invalid", ".word", 1, [.invalid, .loadPc, .storePc]⟩⟩

def info (op : Op) : InstrInfo := op.row.info

def has (op : Op) (t : Trait) : Bool := op.info.traits.contains t

/-- Whether the instruction is lifted; the others are left to the interpreter. -/
def isLifted : Op → Bool
  | rte | trapa | invalid => false
  | _ => true

/-- Whether the instruction ends a block: it writes the pc, or a status register on which lifting
or interrupts depend. -/
def endsBlock (op : Op) : Bool := op.info.traits.meets [.storePc, .storeFpscr, .storeSr]

end Op

/-! ### Decoding -/

/-- The fixed bits of an encoding. -/
structure Pattern where
  mask : UInt16
  value : UInt16
  deriving DecidableEq, Repr

namespace Pattern

/-- Add a bit below the bits so far. -/
def push (p : Pattern) (c : Char) : Pattern :=
  let bit (on : Bool) : UInt16 := if on then 1 else 0
  ⟨(p.mask <<< 1) ||| bit (c == '0' || c == '1'), (p.value <<< 1) ||| bit (c == '1')⟩

def ofSignature (s : String) : Pattern := s.toList.foldl push ⟨0, 0⟩

def fits (p : Pattern) (raw : UInt16) : Bool := raw &&& p.mask == p.value

end Pattern

/-- The patterns in table order. -/
def patterns : List (Pattern × Op) := Op.all.map fun op => (.ofSignature op.row.signature, op)

/-- The instruction that a word encodes. -/
def decode (raw : UInt32) : Op :=
  match patterns.find? fun p => p.1.fits raw.toUInt16 with
  | some (_, op) => op
  | none => .invalid

/-! ### Fields of an instruction word -/

/-- The register in bits 11 to 8. -/
def rn (raw : UInt32) : Fin 16 := Fin.ofNat 16 (raw >>> 8).toNat

/-- The register in bits 7 to 4. -/
def rm (raw : UInt32) : Fin 16 := Fin.ofNat 16 (raw >>> 4).toNat

def imm8 (raw : UInt32) : UInt32 := raw &&& 0xff

/-- The immediate, extended with its sign. -/
def simm8 (raw : UInt32) : Int32 := raw.toUInt8.toInt8.toInt32

/-- The 12-bit displacement, extended with its sign. -/
def disp12 (raw : UInt32) : Int32 := ((raw &&& 0xfff).toInt32 <<< 20) >>> 20

/-- The target of a conditional branch. -/
def condTarget (addr raw : UInt32) : UInt32 := addr + 4 + (simm8 raw * 2).toUInt32

/-- The target of an unconditional branch. -/
def farTarget (addr raw : UInt32) : UInt32 := addr + 4 + (disp12 raw * 2).toUInt32

/-- The aligned address at a distance of `disp` words from the pc. -/
def pcRelative (addr disp : UInt32) : UInt32 := (addr &&& ~~~3) + 4 + disp * 4

/-- The target of a branch relative to the pc. -/
def branchTarget? (addr raw : UInt32) : Option UInt32 :=
  let top := raw >>> 12
  let next := (raw >>> 8) &&& 0xf
  if top = 8 && (next = 9 || next = 0xb || next = 0xd || next = 0xf) then
    some (condTarget addr raw)
  else if top = 0xa || top = 0xb then some (farTarget addr raw)
  else none

/-! ### Disassembly -/

/-- The bits of a word that a signature marks with `c`. -/
def field (signature : String) (raw : UInt32) (c : Char) : Nat :=
  signature.toList.zipIdx.foldl
    (fun v (s, i) => if s == c then 2 * v + ((raw >>> (15 - UInt32.ofNat i)) &&& 1).toNat else v) 0

/-- Fill the places of a template. -/
def operands (op : Op) (addr raw : UInt32) : String :=
  let signature := op.row.signature
  let reg (c : Char) : String := "r" ++ toString (field signature raw c)
  let target := (branchTarget? addr raw).getD
    (pcRelative addr (UInt32.ofNat (field signature raw 'd')))
  let place := Text.address target
  op.info.template
    |>.replace "Rm" (reg 'm')
    |>.replace "Rn" (reg 'n')
    |>.replace "#imm" ("#0x" ++ Text.hexFixed 2 (field signature raw 'i'))
    |>.replace "disp,pc" place
    |>.replace "disp" place

/-- Address and instruction. -/
def disassembly (addr raw : UInt32) : String :=
  let text := match decode raw with
    | .invalid => ".word 0x" ++ Text.hexFixed 4 (raw &&& 0xffff).toNat
    | op => operands op addr raw
  Text.hexFixed 8 addr.toNat ++ "  " ++ text

end Recompiler.Sh4
