import Recompiler.Sh4.Op
import Recompiler.Sh4.State

/-!
Interpretation of SH4 instructions. A branch writes the pc and runs its own delay slot; all other
instructions leave the pc to the caller.
-/
namespace Recompiler.Sh4

namespace State

/-- Write `f (Rn, Rm)` to `Rn`. -/
def alu (s : State) (raw : UInt32) (f : UInt32 → UInt32 → UInt32) : State :=
  s.set (.r (rn raw)) (f (s.get (.r (rn raw))) (s.get (.r (rm raw))))

/-- Write the truth of `p (Rn, Rm)` to T. -/
def test (s : State) (raw : UInt32) (p : UInt32 → UInt32 → Bool) : State :=
  s.modify fun c => Context.setT c (p (s.get (.r (rn raw))) (s.get (.r (rm raw))))

/-- Load from `@Rm` to `Rn`, through an extension. -/
def loadReg (s : State) (raw : UInt32) (w : Width) (extend : UInt64 → UInt32) : State :=
  s.set (.r (rn raw)) (extend (s.read w (s.get (.r (rm raw)))))

/-- Store the low bytes of `Rm` to `@Rn`. -/
def storeReg (s : State) (raw : UInt32) (w : Width) : State :=
  s.write w (s.get (.r (rn raw))) ((s.get (.r (rm raw))).toUInt64 &&& w.mask)

/-- Write a word of the context from `Rn`. -/
def move (s : State) (dst src : Field) : State := s.set dst (s.get src)

/-- A conditional branch without delay slot. -/
def branchIf (s : State) (addr raw : UInt32) (wanted : Bool) : State :=
  s.set .pc (if Context.t s.ctx == wanted then condTarget addr raw else addr + 2)

end State

/-- A byte, extended with its sign. -/
def signByte (v : UInt32) : UInt32 := v.toUInt8.toInt8.toInt32.toUInt32

/-- A 16-bit word, extended with its sign. -/
def signWord (v : UInt32) : UInt32 := v.toUInt16.toInt16.toInt32.toUInt32

/-- Shift left by the low five bits of an amount that is not negative, right by 32 less the low five
bits of a negative one; where these are zero, everything is shifted out. -/
def shiftDynamic (v n : UInt32) (arithmetic : Bool) : UInt32 :=
  let low := n &&& 0x1f
  if n.toInt32 ≥ 0 then v <<< low
  else
    match decide (low = 0), arithmetic with
    | true, true => (v.toInt32 >>> 31).toUInt32
    | true, false => 0
    | false, true => (v.toInt32 >>> (32 - low).toInt32).toUInt32
    | false, false => v >>> (32 - low)

/-- What an instruction without delay slot does; the others do nothing here. -/
def perform (op : Op) (addr raw : UInt32) (s : State) : State :=
  let n := Field.r (rn raw)
  match op with
  | .movImm => s.set n (simm8 raw).toUInt32
  | .mov => s.alu raw fun _ m => m
  | .loadByte => s.loadReg raw .w8 fun v => signByte v.toUInt32
  | .loadWord => s.loadReg raw .w16 fun v => signWord v.toUInt32
  | .loadLong => s.loadReg raw .w32 UInt64.toUInt32
  | .storeByte => s.storeReg raw .w8
  | .storeWord => s.storeReg raw .w16
  | .storeLong => s.storeReg raw .w32
  | .loadPcRel => s.set n (s.read .w32 (pcRelative addr (imm8 raw))).toUInt32
  | .mova => s.set (.r 0) (pcRelative addr (imm8 raw))
  | .movt => s.set n (Context.t s.ctx).toUInt32
  | .extSByte => s.alu raw fun _ m => signByte m
  | .extSWord => s.alu raw fun _ m => signWord m
  | .extUByte => s.alu raw fun _ m => m &&& 0xff
  | .extUWord => s.alu raw fun _ m => m &&& 0xffff
  | .add => s.alu raw fun n m => n + m
  | .addImm => s.set n (s.get n + (simm8 raw).toUInt32)
  | .sub => s.alu raw fun n m => n - m
  | .and => s.alu raw fun n m => n &&& m
  | .or => s.alu raw fun n m => n ||| m
  | .xor => s.alu raw fun n m => n ^^^ m
  | .not => s.alu raw fun _ m => ~~~m
  | .dt =>
    let v := s.get n - 1
    (s.set n v).modify fun c => Context.setT c (v == 0)
  | .shll =>
    let v := s.get n
    (s.modify fun c => Context.setT c (v >>> 31 != 0)).set n (v <<< 1)
  | .shlr =>
    let v := s.get n
    (s.modify fun c => Context.setT c (v &&& 1 != 0)).set n (v >>> 1)
  | .shad => s.alu raw fun n m => shiftDynamic n m true
  | .shld => s.alu raw fun n m => shiftDynamic n m false
  | .cmpEq => s.test raw fun n m => n == m
  | .cmpHs => s.test raw fun n m => n ≥ m
  | .cmpGe => s.test raw fun n m => n.toInt32 ≥ m.toInt32
  | .cmpHi => s.test raw fun n m => n > m
  | .cmpGt => s.test raw fun n m => n.toInt32 > m.toInt32
  | .cmpEqImm => s.modify fun c => Context.setT c (s.get (.r 0) == (simm8 raw).toUInt32)
  | .tst => s.test raw fun n m => n &&& m == 0
  | .clrt => s.modify fun c => Context.setT c false
  | .sett => s.modify fun c => Context.setT c true
  | .bt => s.branchIf addr raw true
  | .bf => s.branchIf addr raw false
  | .trapa =>
    let s := (s.set .tra (imm8 raw <<< 2)).set .expevt expevtTrap
    s.modify fun c => Context.enterException c (addr + 2) vectorGeneral
  | .ldcSr => s.modify fun c => Context.setSr c (s.get n)
  | .stcSr => s.move n .sr
  | .ldsFpscr => s.modify fun c => Context.setFpscr c (s.get n &&& fpscrMask)
  | .stsFpscr => s.move n .fpscr
  | .ldsPr => s.move .pr n
  | .stsPr => s.move n .pr
  | .invalid =>
    (s.set .expevt expevtIllegal).modify fun c => Context.enterException c addr vectorGeneral
  | .nop | .btS | .bfS | .bra | .bsr | .braf | .bsrf | .jmp | .jsr | .rts | .rte => s

/-- Run the instruction in a delay slot. It must not have a delay slot itself. -/
def runSlot (addr : UInt32) (s : State) : Except Fault State :=
  let raw := s.fetch addr
  let op := decode raw
  if op.has .delayed then .error (.nestedDelaySlot addr) else .ok (perform op addr raw s)

/-- A delayed jump. The target was read before the slot runs, the link is written after it. -/
def jump (addr target : UInt32) (link : Bool) (s : State) : Except Fault State := do
  let s ← runSlot (addr + 2) s
  let s := if link then s.set .pr (addr + 4) else s
  return s.set .pc target

/-- A delayed conditional branch. The condition was read before the slot runs. -/
def delayedBranchIf (addr raw : UInt32) (wanted : Bool) (s : State) : Except Fault State := do
  let taken := Context.t s.ctx == wanted
  let s ← runSlot (addr + 2) s
  return s.set .pc (if taken then condTarget addr raw else addr + 4)

/-- What an instruction does. -/
def interpret (op : Op) (addr raw : UInt32) (s : State) : Except Fault State :=
  let n := s.get (.r (rn raw))
  match op with
  | .btS => delayedBranchIf addr raw true s
  | .bfS => delayedBranchIf addr raw false s
  | .bra => jump addr (farTarget addr raw) false s
  | .bsr => jump addr (farTarget addr raw) true s
  | .braf => jump addr (n + (addr + 4)) false s
  | .bsrf => jump addr (n + (addr + 4)) true s
  | .jmp => jump addr n false s
  | .jsr => jump addr n true s
  | .rts => jump addr (s.get .pr) false s
  | .rte => do
    let target := s.get .spc
    let sr := s.get .ssr
    let s ← runSlot (addr + 2) s
    return (s.modify fun c => Context.setSr c sr).set .pc target
  | op => .ok (perform op addr raw s)

/-- Execute the instruction at the pc and go on behind it. -/
def step (s : State) : Except Fault State := do
  let pc := s.get .pc
  let raw := s.fetch pc
  let op := decode raw
  let s ← interpret op pc raw s
  let s := if op.has .storePc then s else s.set .pc (pc + 2)
  s.chargeChecked offsets op.info.cycles

end Recompiler.Sh4
