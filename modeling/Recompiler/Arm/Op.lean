import Recompiler.Index
import Recompiler.Text.Number
import Recompiler.Trait

/-! The ARMv3 instructions and their decoding. -/
namespace Recompiler.Arm

inductive Op where
  | invalid
  | and | eor | sub | rsb | add | adc | sbc | rsc | tst | teq | cmp | cmn | orr | mov | bic | mvn
  | mul | swp | mrs | msr | ldr | str | ldm | stm | b | swi
  deriving DecidableEq, Inhabited, Repr

namespace Op

/-- Every instruction, in table order. -/
def all : List Op :=
  [invalid, and, eor, sub, rsb, add, adc, sbc, rsc, tst, teq, cmp, cmn, orr, mov, bic, mvn,
   mul, swp, mrs, msr, ldr, str, ldm, stm, b, swi]

def name : Op → String
  | invalid => "invalid"
  | and => "and"
  | eor => "eor"
  | sub => "sub"
  | rsb => "rsb"
  | add => "add"
  | adc => "adc"
  | sbc => "sbc"
  | rsc => "rsc"
  | tst => "tst"
  | teq => "teq"
  | cmp => "cmp"
  | cmn => "cmn"
  | orr => "orr"
  | mov => "mov"
  | bic => "bic"
  | mvn => "mvn"
  | mul => "mul"
  | swp => "swp"
  | mrs => "mrs"
  | msr => "msr"
  | ldr => "ldr"
  | str => "str"
  | ldm => "ldm"
  | stm => "stm"
  | b => "b"
  | swi => "swi"

def traits : Op → Traits
  | invalid => [.invalid]
  | mul => [.multiply]
  | swp => [.load, .store]
  | mrs | msr => [.psr]
  | ldr => [.transfer, .load]
  | str => [.transfer, .store]
  | ldm => [.block, .load]
  | stm => [.block, .store]
  | b => [.branch]
  | swi => [.interrupt]
  | _ => [.data]

/-- Every instruction costs the same. -/
def cycles : UInt32 := 12

def info (op : Op) : InstrInfo := ⟨op.name, op.name, cycles, op.traits⟩

/-- Data processing, by the number in the instruction word. -/
def data : Vector Op 16 :=
  #v[and, eor, sub, rsb, add, adc, sbc, rsc, tst, teq, cmp, cmn, orr, mov, bic, mvn]

end Op

/-- Whether a bit of a word is set. -/
def bit (raw : UInt32) (n : UInt32) : Bool := (raw >>> n) &&& 1 = 1

/-- The four bits of a word from bit `n` on, as a register. -/
def field (raw : UInt32) (n : UInt32) : Fin 16 := Fin.ofNat 16 (raw >>> n).toNat

/-- The destination register. -/
def rd (raw : UInt32) : Fin 16 := field raw 12

/-- Data processing. What multiplication and swap leave over is invalid, and so are comparisons
that set no flags. -/
def decodeData (raw : UInt32) : Op :=
  let number := field raw 21
  if raw &&& 0x02000090 = 0x90 then .invalid
  else if 8 ≤ number.val && number.val ≤ 11 && !bit raw 20 then .invalid
  else Op.data[number]

/-- The instruction that a word encodes. There is no coprocessor. -/
def decode (raw : UInt32) : Op :=
  let transfer : Op := if bit raw 20 then .ldr else .str
  if raw &&& 0x0fc000f0 = 0x00000090 then .mul
  else if raw &&& 0x0fb00ff0 = 0x01000090 then .swp
  else if raw &&& 0x0fbf0fff = 0x010f0000 then .mrs
  else if raw &&& 0x0fbffff0 = 0x0129f000 || raw &&& 0x0dbff000 = 0x0128f000 then .msr
  else
    match (raw >>> 25) &&& 7 with
    | 0 | 1 => decodeData raw
    | 2 => transfer
    | 3 => if bit raw 4 then .invalid else transfer
    | 4 => if bit raw 20 then .ldm else .stm
    | 5 => .b
    | 7 => if bit raw 24 then .swi else .invalid
    | _ => .invalid

/-- Whether the instruction may write the pc and so ends a block. -/
def writesPc (raw : UInt32) : Bool :=
  let traits := (decode raw).traits
  traits.meets [.branch, .psr, .interrupt, .invalid] ||
    (traits.meets [.data, .transfer] && rd raw == 15) ||
    (traits.contains .block && bit raw 15)

/-! ### Disassembly -/

def conditionNames : Vector String 16 :=
  #v["eq", "ne", "cs", "cc", "mi", "pl", "vs", "vc", "hi", "ls", "ge", "lt", "gt", "le", "", "nv"]

/-- Address, instruction word and mnemonic. -/
def disassembly (addr raw : UInt32) : String :=
  let op := decode raw
  let word := Text.hexFixed 8 raw.toNat
  let text :=
    if op = .invalid then ".word 0x" ++ word
    else
      let link := if op = .b && bit raw 24 then "l" else ""
      op.name ++ link ++ conditionNames[field raw 28]
  Text.hexFixed 8 addr.toNat ++ "  " ++ word ++ "  " ++ text

end Recompiler.Arm
