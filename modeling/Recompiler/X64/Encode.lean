import Recompiler.X64.Instruction

/-!
Encoding of instructions. The bytes come in pieces: opcode bytes one by one, displacements and
immediates whole. A buffer takes a piece or none of it.
-/
namespace Recompiler.X64

/-- What stands before the operands: mandatory bytes, opcode map and opcode. -/
structure Head where
  /-- The 16-bit or packed form, `66`. -/
  data16 : Bool := false
  /-- The scalar forms: `f3` for false, `f2` for true. -/
  scalar : Option Bool := none
  wide : Bool := false
  /-- The register field names a byte register. -/
  byteReg : Bool := false
  /-- The operand field names a byte register. -/
  byteRm : Bool := false
  /-- The opcode is in the second map, `0f`. -/
  second : Bool := false
  opcode : UInt8

namespace Head

/-- The REX byte without its mark; 0 means that none is needed. Byte registers from the fifth on
are reachable only with one. -/
def rexBits (h : Head) (r rm : Fin 16) : UInt8 :=
  (if h.wide then 8 else 0) ||| (if needsRex r then 4 else 0) ||| (if needsRex rm then 1 else 0)

def rex? (h : Head) (r rm : Fin 16) : Option UInt8 :=
  let bits := h.rexBits r rm
  if bits ≠ 0 then some (0x40 ||| bits)
  else if (h.byteReg && r.val ≥ 4) || (h.byteRm && rm.val ≥ 4) then some 0x40
  else none

/-- The mandatory bytes. -/
def marks (h : Head) : List UInt8 :=
  let scalar : List UInt8 := match h.scalar with
    | some true => [0xf2]
    | some false => [0xf3]
    | none => []
  if h.data16 then 0x66 :: scalar else scalar

/-- The bytes before the operands. -/
def bytes (h : Head) (r rm : Fin 16) : List UInt8 :=
  let opcode : List UInt8 := if h.second then [0x0f, h.opcode] else [h.opcode]
  h.marks ++ (h.rex? r rm).toList ++ opcode

end Head

/-- The pieces of an encoding. -/
abbrev Pieces := List (List UInt8)

/-- Bytes that are written one by one. -/
def singly (bs : List UInt8) : Pieces := bs.map ([·])

/-- The four bytes of a 32-bit number. -/
def imm32 (n : Int32) : List UInt8 := Bytes.ofWord 4 n.toUInt32.toUInt64

/-- Whether a number fits a signed byte. -/
def isByte (n : Int32) : Bool := -128 ≤ n && n ≤ 127

/-- Two register operands. -/
def direct (h : Head) (r rm : Fin 16) : Pieces :=
  singly (h.bytes r rm ++ [(0xc0 : UInt8) ||| (low3 r <<< 3) ||| low3 rm])

/-- An opcode extension and a register operand. -/
def extension (h : Head) (ext : UInt8) (rm : Fin 16) : Pieces :=
  singly (h.bytes 0 rm ++ [(0xc0 : UInt8) ||| (ext <<< 3) ||| low3 rm])

/-- The operand bytes of `[base + offset]`. Bases whose low bits are 5 always carry a displacement,
those whose low bits are 4 an index byte. -/
def memory (field : UInt8) (base : Gpr) (offset : Int32) : Pieces :=
  let mode : UInt8 :=
    if offset = 0 && low3 base ≠ 5 then 0x00 else if isByte offset then 0x40 else 0x80
  [[mode ||| (field <<< 3) ||| low3 base]] ++
  (if low3 base = 4 then [[0x24]] else []) ++
  (if mode = 0x00 then [] else if mode = 0x40 then [[offset.toUInt32.toUInt8]] else [imm32 offset])

/-- A register and a memory operand. -/
def indirect (h : Head) (r : Fin 16) (base : Gpr) (offset : Int32) : Pieces :=
  singly (h.bytes r base) ++ memory (low3 r) base offset

/-- An opcode extension and a memory operand. -/
def indirectExt (h : Head) (ext : UInt8) (base : Gpr) (offset : Int32) : Pieces :=
  singly (h.bytes 0 base) ++ memory ext base offset

/-- An opcode that holds the register in its low bits. -/
def inOpcode (h : Head) (reg : Gpr) : Pieces :=
  singly (({ h with opcode := h.opcode + low3 reg } : Head).bytes 0 reg)

/-- Opcode bytes of a jump; the displacement follows. -/
def jumpHead : Option Cond → Pieces
  | none => [[0xe9]]
  | some c => singly (({ second := true, opcode := 0x80 + c.code } : Head).bytes 0 0)

def Extension.head : Extension → Head
  | .movzbl => { second := true, opcode := 0xb6 }
  | .movzwl => { second := true, opcode := 0xb7 }
  | .movsbq => { second := true, opcode := 0xbe, wide := true }
  | .movswq => { second := true, opcode := 0xbf, wide := true }
  | .movslq => { opcode := 0x63, wide := true }

def SseOp.head : SseOp → Head
  | .load d => { second := true, scalar := some d, opcode := 0x10 }
  | .store d => { second := true, scalar := some d, opcode := 0x11 }
  | .movaps => { second := true, opcode := 0x28 }
  | .convert d => { second := true, scalar := some d, opcode := 0x5a }
  | .ucomis d => { second := true, data16 := d, opcode := 0x2e }
  | .float op d => { second := true, scalar := some d, opcode := op.code }

namespace Instruction

/-- The shortest way to load a constant that leaves the flags alone. -/
def movImmPieces (dst : Gpr) (imm : UInt64) : Pieces :=
  if imm ≤ 0xffffffff then inOpcode { opcode := 0xb8 } dst ++ [Bytes.ofWord 4 imm]
  else if imm ≥ 0xffffffff80000000 then
    extension { opcode := 0xc7, wide := true } 0 dst ++ [Bytes.ofWord 4 imm]
  else inOpcode { opcode := 0xb8, wide := true } dst ++ [Bytes.ofWord 8 imm]

/-- The pieces of an instruction. -/
def pieces : Instruction → Pieces
  | arith op wide dst src => direct { opcode := (0x03 : UInt8) + (op.code <<< 3), wide } dst src
  | arithImm op wide dst imm =>
    if isByte imm then
      extension { opcode := 0x83, wide } op.code dst ++ [[imm.toUInt32.toUInt8]]
    else extension { opcode := 0x81, wide } op.code dst ++ [imm32 imm]
  | arithMem op base offset imm => indirectExt { opcode := 0x81 } op.code base offset ++ [imm32 imm]
  | unary op wide reg => extension { opcode := 0xf7, wide } op.code reg
  | shiftImm op wide dst imm =>
    if imm = 1 then extension { opcode := 0xd1, wide } op.code dst
    else extension { opcode := 0xc1, wide } op.code dst ++ [[imm]]
  | shiftCl op wide dst => extension { opcode := 0xd3, wide } op.code dst
  | mov wide dst src => direct { opcode := 0x89, wide } src dst
  | movImm dst imm => movImmPieces dst imm
  | extend e dst src => direct e.head dst src
  | extendHigh dst src => direct Extension.movzbl.head dst (src + 4)
  | imul wide dst src => direct { second := true, opcode := 0xaf, wide } dst src
  | load .w8 dst base offset => indirect { second := true, opcode := 0xb6 } dst base offset
  | load .w16 dst base offset => indirect { second := true, opcode := 0xb7 } dst base offset
  | load .w32 dst base offset => indirect { opcode := 0x8b } dst base offset
  | load .w64 dst base offset => indirect { opcode := 0x8b, wide := true } dst base offset
  | store .w8 src base offset => indirect { opcode := 0x88, byteReg := true } src base offset
  | store .w16 src base offset => indirect { opcode := 0x89, data16 := true } src base offset
  | store .w32 src base offset => indirect { opcode := 0x89 } src base offset
  | store .w64 src base offset => indirect { opcode := 0x89, wide := true } src base offset
  | storeImm base offset imm => indirectExt { opcode := 0xc7 } 0 base offset ++ [imm32 imm]
  | cqo => [[0x48], [0x99]]
  | ret => [[0xc3]]
  | jump disp => jumpHead none ++ [imm32 disp]
  | jumpIf cond disp => jumpHead (some cond) ++ [imm32 disp]
  | callReg reg => extension { opcode := 0xff } 2 reg
  | push reg => inOpcode { opcode := 0x50 } reg
  | pop reg => inOpcode { opcode := 0x58 } reg
  | setcc cond dst =>
    extension { second := true, opcode := 0x90 + cond.code, byteRm := true } 0 dst
  | cmov cond wide dst src => direct { second := true, opcode := 0x40 + cond.code, wide } dst src
  | test wide a b => direct { opcode := 0x85, wide } b a
  | sse op dst src => direct op.head dst src
  | sseMem op xmm base offset => indirect op.head xmm base offset
  | movqToXmm dst src =>
    direct { second := true, opcode := 0x6e, data16 := true, wide := true } dst src
  | movqFromXmm dst src =>
    direct { second := true, opcode := 0x7e, data16 := true, wide := true } src dst
  | intToFloat d dst src =>
    direct { second := true, opcode := 0x2a, scalar := some d, wide := true } dst src
  | floatToInt d dst src =>
    direct { second := true, opcode := 0x2c, scalar := some d, wide := true } dst src

/-- The bytes of an instruction. -/
def bytes (i : Instruction) : List UInt8 := i.pieces.flatten

end Instruction
end Recompiler.X64
