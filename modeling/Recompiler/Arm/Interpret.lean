import Recompiler.Arm.Op
import Recompiler.Arm.Shifter

/-!
Interpretation of ARMv3 instructions. The pc is first moved to the next instruction, then the
condition is tested. As an operand the pc reads as the address of the instruction plus 8, or plus 12
in stored values and under shifts by a register.
-/
namespace Recompiler.Arm

/-- A register, where r15 reads as `pc`. -/
def operand (s : State) (n : Fin 16) (pc : UInt32) : UInt32 :=
  if n = 15 then pc else s.get (.r n)

/-- The 8-bit immediate, rotated. -/
def rotatedImmediate (raw : UInt32) (carry : Bool) : UInt32 × Bool :=
  let rot := ((raw >>> 8) &&& 0xf) * 2
  let v := rotateRight (raw &&& 0xff) rot
  (v, if rot = 0 then carry else wordBit v 31)

/-- The second operand of data processing, with the carry of the shifter. -/
def shifterOperand (s : State) (raw pc : UInt32) : UInt32 × Bool :=
  let carry := s.flag flagC
  if bit raw 25 then rotatedImmediate raw carry
  else
    let v := operand s (field raw 0) pc
    let shift := Shift.ofBits (raw >>> 5)
    if bit raw 4 then shift.register v (operand s (field raw 8) pc &&& 0xff) carry
    else shift.immediate v ((raw >>> 7) &&& 0x1f) carry

/-- Result of data processing; sums come with carry and overflow. -/
def dataResult (number : Fin 16) (a b : UInt32) (carry : Bool) : UInt32 × Option (Bool × Bool) :=
  let sum (a b : UInt32) (carry : Bool) : UInt32 × Option (Bool × Bool) :=
    let (r, flags) := addWithCarry a b carry
    (r, some flags)
  match number with
  | 0x0 | 0x8 => (a &&& b, none)
  | 0x1 | 0x9 => (a ^^^ b, none)
  | 0x2 | 0xa => sum a (~~~b) true
  | 0x3 => sum b (~~~a) true
  | 0x4 | 0xb => sum a b false
  | 0x5 => sum a b carry
  | 0x6 => sum a (~~~b) carry
  | 0x7 => sum b (~~~a) carry
  | 0xc => (a ||| b, none)
  | 0xd => (b, none)
  | 0xe => (a &&& ~~~b, none)
  | _ => (~~~b, none)

def performData (addr raw : UInt32) (s : State) : State :=
  let byRegister := !bit raw 25 && bit raw 4
  let pc := addr + (if byRegister then 12 else 8)
  let (b, shifterCarry) := shifterOperand s raw pc
  let a := operand s (field raw 16) pc
  let number := field raw 21
  let (result, flags) := dataResult number a b (s.flag flagC)
  let writes := !(8 ≤ number.val && number.val ≤ 11)
  let d := rd raw
  let s := if writes then s.set (.r d) result else s
  if !bit raw 20 then s
  else if writes && d = 15 then s.set .cpsr (s.get .spsr)
  else
    let s := s.setNz result
    match flags with
    | some (carry, overflow) => (s.setFlag flagC carry).setFlag flagV overflow
    | none => s.setFlag flagC shifterCarry

def performMul (raw : UInt32) (s : State) : State :=
  let reg (n : UInt32) : UInt32 := s.get (.r (field raw n))
  let r := reg 0 * reg 8
  let r := if bit raw 21 then r + reg 12 else r
  let s := s.set (.r (field raw 16)) r
  if bit raw 20 then s.setNz r else s

/-- The status register that an instruction names. -/
def statusField (raw : UInt32) : Field := if bit raw 22 then .spsr else .cpsr

def performMrs (raw : UInt32) (s : State) : State :=
  s.set (.r (rd raw)) (s.get (statusField raw))

/-- Write the flags, or in a privileged mode the whole register. -/
def performMsr (raw : UInt32) (s : State) : State :=
  let value := if bit raw 25 then (rotatedImmediate raw false).1 else s.get (.r (field raw 0))
  let mask : UInt32 := if bit raw 16 && s.mode ≠ modeUser then 0xffffffff else 0xf0000000
  let f := statusField raw
  s.set f ((s.get f &&& ~~~mask) ||| (value &&& mask))

/-- Load a word; a misaligned address rotates the aligned word. -/
def readRotated (s : State) (addr : UInt32) : UInt32 :=
  rotateRight (s.read32 (addr &&& ~~~3)) ((addr &&& 3) * 8)

def readByte (s : State) (addr : UInt32) : UInt32 := (s.read .w8 addr).toUInt32

def writeByte (s : State) (addr v : UInt32) : State := s.write .w8 addr v.toUInt8.toUInt64

/-- Store a word at an aligned address. -/
def writeAligned (s : State) (addr v : UInt32) : State := s.write32 (addr &&& ~~~3) v

def performSwp (raw : UInt32) (s : State) : State :=
  let base := s.get (.r (field raw 16))
  let src := s.get (.r (field raw 0))
  if bit raw 22 then (writeByte s base src).set (.r (rd raw)) (readByte s base)
  else (writeAligned s base src).set (.r (rd raw)) (readRotated s base)

def performTransfer (addr raw : UInt32) (s : State) : State :=
  let pc := addr + 8
  let offset :=
    if bit raw 25 then
      ((Shift.ofBits (raw >>> 5)).immediate (operand s (field raw 0) pc) ((raw >>> 7) &&& 0x1f)
        (s.flag flagC)).1
    else raw &&& 0xfff
  let n := field raw 16
  let base := operand s n pc
  let indexed := if bit raw 23 then base + offset else base - offset
  let before := bit raw 24
  let place := if before then indexed else base
  let writeBack (s : State) : State :=
    if (!before || bit raw 21) && n ≠ 15 then s.set (.r n) indexed else s
  if bit raw 20 then
    let value := if bit raw 22 then readByte s place else readRotated s place
    (writeBack s).set (.r (rd raw)) value
  else
    let value := operand s (rd raw) (addr + 12)
    writeBack (if bit raw 22 then writeByte s place value else writeAligned s place value)

/-- The registers of a block transfer, lowest first. -/
def registerList (raw : UInt32) : List (Fin 16) :=
  (List.finRange 16).filter fun n => bit raw (UInt32.ofNat n)

/-- Load registers from consecutive words. -/
def loadRegs : List (Fin 16) → UInt32 → State → State
  | [], _, s => s
  | n :: ns, at', s => loadRegs ns (at' + 4) (s.set (.r n) (s.read32 at'))

/-- Store registers to consecutive words. -/
def storeRegs (pc : UInt32) : List (Fin 16) → UInt32 → State → State
  | [], _, s => s
  | n :: ns, at', s => storeRegs pc ns (at' + 4) (s.write32 at' (operand s n pc))

/-- The lowest register is at the lowest address. -/
def performBlock (addr raw : UInt32) (s : State) : State :=
  let n := field raw 16
  let regs := registerList raw
  let size := UInt32.ofNat (regs.length * 4)
  let base := s.get (.r n)
  let up := bit raw 23
  let before := bit raw 24
  let first := match before, up with
    | false, true => base
    | true, true => base + 4
    | false, false => base - size + 4
    | true, false => base - size
  let writeBack (s : State) : State :=
    if bit raw 21 then s.set (.r n) (if up then base + size else base - size) else s
  if bit raw 20 then
    let s := loadRegs regs first (writeBack s)
    if bit raw 22 && bit raw 15 then s.set .cpsr (s.get .spsr) else s
  else writeBack (storeRegs (addr + 12) regs first s)

def performBranch (addr raw : UInt32) (s : State) : State :=
  let offset := (((raw &&& 0x00ffffff) <<< 8).toInt32 >>> 6).toUInt32
  let s := if bit raw 24 then s.set (.r 14) (addr + 4) else s
  s.set pc (addr + 8 + offset)

/-- What an instruction does when its condition holds. -/
def perform (op : Op) (addr raw : UInt32) (s : State) : State :=
  match op with
  | .invalid => s.enterException modeUndefined vectorUndefined (addr + 4)
  | .mul => performMul raw s
  | .swp => performSwp raw s
  | .mrs => performMrs raw s
  | .msr => performMsr raw s
  | .ldr | .str => performTransfer addr raw s
  | .ldm | .stm => performBlock addr raw s
  | .b => performBranch addr raw s
  | .swi => s.enterException modeSupervisor vectorSoftware (addr + 4)
  | _ => performData addr raw s

/-- What an instruction does. -/
def interpret (addr raw : UInt32) (s : State) : State :=
  let s := s.set pc (addr + 4)
  if condPassed (s.get .cpsr) (raw >>> 28) then perform (decode raw) addr raw s else s

/-- Execute the instruction at the pc. -/
def step (s : State) : Except Fault State :=
  let addr := s.get pc
  World.chargeChecked (interpret addr (s.read32 addr) s) offsets Op.cycles

end Recompiler.Arm
