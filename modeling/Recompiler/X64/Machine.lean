import Std.Data.HashMap
import Recompiler.Guest
import Recompiler.X64.CodeBuffer
import Recompiler.X64.Decode
import Recompiler.X64.Thunk

/-!
The x86-64 machine, as far as generated code can tell: registers, the low lanes of the SSE
registers, flags, stack and guest. Flags after shifts and products keep their old state, because no
generated code reads them there.
-/
namespace Recompiler.X64

/-- The condition flags. -/
structure Flags where
  /-- Zero. -/
  z : Bool := false
  /-- Sign. -/
  s : Bool := false
  /-- Carry. -/
  c : Bool := false
  /-- Overflow. -/
  o : Bool := false
  /-- Parity of the low byte. -/
  p : Bool := false
  deriving DecidableEq, Inhabited, Repr

def Cond.holds (f : Flags) : Cond → Bool
  | b => f.c
  | ae => !f.c
  | e => f.z
  | ne => !f.z
  | be => f.c || f.z
  | a => !f.c && !f.z
  | s => f.s
  | ns => !f.s
  | p => f.p
  | np => !f.p
  | l => f.s != f.o
  | ge => f.s == f.o
  | le => f.z || f.s != f.o
  | g => !f.z && f.s == f.o

/-! ### Arithmetic -/

/-- The operand bits of a width. -/
def low (wide : Bool) (v : UInt64) : UInt64 := if wide then v else v &&& 0xffffffff

/-- The sign bit at a width. -/
def negative (wide : Bool) (v : UInt64) : Bool :=
  (v >>> (if wide then 63 else 31)) &&& 1 = 1

/-- Whether the low byte has an even number of ones. -/
def evenByte (v : UInt64) : Bool :=
  (List.range 8).foldl (fun even n => even != ((v >>> n.toUInt64) &&& 1 = 1)) true

/-- The flags that a result sets. -/
def resultFlags (wide : Bool) (r : UInt64) : Flags :=
  { z := r = 0, s := negative wide r, p := evenByte r }

/-- Result and flags; a comparison is a difference whose result is dropped. -/
def ArithOp.apply (op : ArithOp) (wide : Bool) (x y : UInt64) : UInt64 × Flags :=
  let x := low wide x
  let y := low wide y
  match op with
  | add =>
    let r := low wide (x + y)
    (r, { resultFlags wide r with c := r < x, o := negative wide ((x ^^^ r) &&& (y ^^^ r)) })
  | sub | cmp =>
    let r := low wide (x - y)
    (r, { resultFlags wide r with c := x < y, o := negative wide ((x ^^^ y) &&& (x ^^^ r)) })
  | and => (x &&& y, resultFlags wide (x &&& y))
  | or => (x ||| y, resultFlags wide (x ||| y))
  | xor => (x ^^^ y, resultFlags wide (x ^^^ y))

/-- Shift by a count, of which the low six or five bits are used. -/
def ShiftOp.apply (op : ShiftOp) (wide : Bool) (v : UInt64) (count : UInt8) : UInt64 :=
  if wide then
    let n := count.toUInt64 &&& 63
    match op with
    | shl => v <<< n
    | shr => v >>> n
    | sar => (v.toInt64 >>> n.toInt64).toUInt64
  else
    let v := v.toUInt32
    let n := count.toUInt32 &&& 31
    (match op with
      | shl => v <<< n
      | shr => v >>> n
      | sar => (v.toInt32 >>> n.toInt32).toUInt32).toUInt64

def Extension.apply (e : Extension) (v : UInt64) : UInt64 :=
  match e with
  | movzbl => v.toUInt8.toUInt64
  | movzwl => v.toUInt16.toUInt64
  | movsbq => v.toUInt8.toInt8.toInt64.toUInt64
  | movswq => v.toUInt16.toInt16.toInt64.toUInt64
  | movslq => v.toUInt32.toInt32.toInt64.toUInt64

/-- A number of two words, the high one signed. -/
def double (wide : Bool) (high low : UInt64) : Int :=
  if wide then high.toInt64.toInt * UInt64.size + low.toNat
  else high.toUInt32.toInt32.toInt * UInt32.size + low.toUInt32.toNat

/-- Quotient and remainder of the double word `high:low`, if the quotient fits. -/
def divide (wide : Bool) (high low divisor : UInt64) : Option (UInt64 × UInt64) :=
  let limit : Int := if wide then 0x8000000000000000 else 0x80000000
  let n := double wide high low
  let d := if wide then divisor.toInt64.toInt else divisor.toUInt32.toInt32.toInt
  if d = 0 then none
  else
    let q := n.tdiv d
    if -limit ≤ q && q < limit then
      some (X64.low wide (Int64.ofInt q).toUInt64, X64.low wide (Int64.ofInt (n.tmod d)).toUInt64)
    else none

/-! ### Floats -/

/-- A number in the low lane. -/
def lane (isDouble : Bool) (v : UInt64) : Float :=
  if isDouble then Float.ofBits v else (Float32.ofBits v.toUInt32).toFloat

/-- Replace the low half of a lane. -/
def setLow (lane : UInt64) (v : UInt32) : UInt64 := (lane &&& 0xffffffff00000000) ||| v.toUInt64

/-- Replace the number in a lane. -/
def setLane (isDouble : Bool) (lane v : UInt64) : UInt64 :=
  if isDouble then v else setLow lane v.toUInt32

def FloatOp.apply (op : FloatOp) (isDouble : Bool) (x y : UInt64) : UInt64 :=
  if isDouble then
    let a := Float.ofBits x
    let b := Float.ofBits y
    (match op with
      | add => a + b
      | sub => a - b
      | mul => a * b
      | div => a / b
      | sqrt => b.sqrt).toBits
  else
    let a := Float32.ofBits x.toUInt32
    let b := Float32.ofBits y.toUInt32
    (match op with
      | add => a + b
      | sub => a - b
      | mul => a * b
      | div => a / b
      | sqrt => b.sqrt).toBits.toUInt64

/-- The flags of a float comparison. -/
def compareFlags (x y : Float) : Flags :=
  if x < y then { c := true }
  else if y < x then {}
  else if x == y then { z := true }
  else { z := true, p := true, c := true }

/-- Convert to the other precision. -/
def otherPrecision (fromDouble : Bool) (v : UInt64) : UInt64 :=
  if fromDouble then (Float.ofBits v).toFloat32.toBits.toUInt64
  else (Float32.ofBits v.toUInt32).toFloat.toBits

/-- What a conversion gives that has no answer. -/
def indefinite : UInt64 := 0x8000000000000000

/-- Convert to an integer, cutting the fraction. -/
def cutToInt (x : Float) : UInt64 :=
  if x < 9223372036854775808.0 && x ≥ -9223372036854775808.0 then x.toInt64.toUInt64
  else indefinite

/-- Convert a signed integer. -/
def intToFloatBits (isDouble : Bool) (v : UInt64) : UInt64 :=
  if isDouble then v.toInt64.toFloat.toBits else v.toInt64.toFloat32.toBits.toUInt64

/-! ### State -/

/-- Where the context lies. -/
def ctxBase : UInt64 := 0x7e0000000000

/-- The stack grows down from here. -/
def stackTop : UInt64 := 0x7d0000000000

/-- Bytes below the top that belong to the stack. -/
def stackRoom : UInt64 := 0x10000000

/-- The guest handle. -/
def handle : UInt64 := 0x7c0000000000

/-- The return address of a block's caller. -/
def callerAddress : UInt64 := 0x7b0000000000

structure Machine (σ : Type) where
  gprs : Vector UInt64 16
  /-- The low lanes. -/
  xmms : Vector UInt64 16
  flags : Flags := {}
  stack : Std.HashMap UInt64 UInt8 := {}
  /-- Position of the next instruction in the code. -/
  pos : Nat
  world : World σ

namespace Machine

variable {σ : Type} (m : Machine σ)

def gpr (r : Gpr) : UInt64 := m.gprs[r]
def xmm (x : Xmm) : UInt64 := m.xmms[x]
def setGpr (r : Gpr) (v : UInt64) : Machine σ := { m with gprs := m.gprs.set r v }
def setXmm (x : Xmm) (v : UInt64) : Machine σ := { m with xmms := m.xmms.set x v }

/-- Whether an address lies in the context. -/
def inContext (a : UInt64) : Bool := ctxBase ≤ a && (a - ctxBase).toNat < m.world.ctx.size

/-- Whether an address lies on the stack. -/
def onStack (a : UInt64) : Bool := stackTop - stackRoom ≤ a && a < stackTop

/-- Write bytes to the stack. -/
def pushBytes (stack : Std.HashMap UInt64 UInt8) (a : UInt64) :
    List UInt8 → Std.HashMap UInt64 UInt8
  | [] => stack
  | b :: bs => pushBytes (stack.insert a b) (a + 1) bs

def read (g : Guest σ) (a : UInt64) (w : Width) : UInt64 :=
  if m.inContext a then m.world.ctx.get (a - ctxBase).toNat w
  else if onStack a then
    Bytes.toWord ((List.range w.bytes).map fun n => m.stack.getD (a + n.toUInt64) 0)
  else g.readHost a w m.world

def write (g : Guest σ) (a : UInt64) (w : Width) (v : UInt64) : Machine σ :=
  if m.inContext a then
    { m with world := { m.world with ctx := m.world.ctx.set (a - ctxBase).toNat w v } }
  else if onStack a then { m with stack := pushBytes m.stack a (Bytes.ofWord w.bytes v) }
  else { m with world := g.writeHost a w v m.world }

/-- The address of a memory operand. -/
def address (base : Gpr) (offset : Int32) : UInt64 := m.gpr base + offset.toInt64.toUInt64

def push (g : Guest σ) (v : UInt64) : Machine σ :=
  let sp := m.gpr Gpr.rsp - 8
  (m.setGpr Gpr.rsp sp).write g sp .w64 v

def pop (g : Guest σ) : UInt64 × Machine σ :=
  let sp := m.gpr Gpr.rsp
  (m.read g sp .w64, m.setGpr Gpr.rsp (sp + 8))

/-- Registers that a called routine may change; they are zero afterwards. -/
def scratch : List Gpr :=
  [Gpr.rax, Gpr.rcx, Gpr.rdx, Gpr.rsi, Gpr.rdi, Gpr.r8, Gpr.r9, Gpr.r10, Gpr.r11]

/-- Return from a routine with a result. -/
def returned (result : UInt64) (world : World σ) : Machine σ :=
  let m := scratch.foldl (fun m r => m.setGpr r 0) m
  { m.setGpr Gpr.rax result with xmms := Vector.replicate 16 0, world }

/-- Call a host routine. -/
def callThunk (g : Guest σ) (t : Thunk) : Except Fault (Machine σ) :=
  let a := m.gpr Gpr.rsi
  let b := m.gpr Gpr.rdx
  let c := m.gpr Gpr.rcx
  match t with
  | .loadGuest =>
    let (v, world) := g.read (.ofBytes b.toUInt32.toNat) a.toUInt32 m.world
    .ok (m.returned v world)
  | .storeGuest =>
    let w := Width.ofBytes c.toUInt32.toNat
    .ok (m.returned 0 (g.write w a.toUInt32 (b &&& w.mask) m.world))
  | .fallback => do return m.returned 0 (← g.fallback a b.toUInt32 c.toUInt32 m.world)
  | .call => .ok (m.returned 0 (g.call a b c m.world))

/-- An SSE operation on a register operand. -/
def sse (op : SseOp) (dst src : Xmm) : Machine σ :=
  let x := m.xmm dst
  let y := m.xmm src
  match op with
  | .load d => m.setXmm dst (setLane d x y)
  | .store d => m.setXmm src (setLane d y x)
  | .movaps => m.setXmm dst y
  | .convert d => m.setXmm dst (setLane (!d) x (otherPrecision d y))
  | .ucomis d => { m with flags := compareFlags (lane d x) (lane d y) }
  | .float op d => m.setXmm dst (setLane d x (op.apply d x y))

/-- An SSE operation on a memory operand. -/
def sseMem (g : Guest σ) (op : SseOp) (xmm : Xmm) (a : UInt64) : Machine σ :=
  let x := m.xmm xmm
  let width (d : Bool) : Width := if d then .w64 else .w32
  match op with
  | .load d => m.setXmm xmm (m.read g a (width d))
  | .store d => m.write g a (width d) (if d then x else x &&& 0xffffffff)
  | .movaps => m.setXmm xmm (m.read g a .w64)
  | .convert d => m.setXmm xmm (setLane (!d) x (otherPrecision d (m.read g a (width d))))
  | .ucomis d => { m with flags := compareFlags (lane d x) (lane d (m.read g a (width d))) }
  | .float op d => m.setXmm xmm (setLane d x (op.apply d x (m.read g a (width d))))

/-- Write the result of arithmetic. -/
def setArith (op : ArithOp) (dst : Gpr) (r : UInt64 × Flags) : Machine σ :=
  let m := { m with flags := r.2 }
  if op = .cmp then m else m.setGpr dst r.1

def unary (op : UnaryOp) (wide : Bool) (reg : Gpr) : Except Fault (Machine σ) :=
  let v := m.gpr reg
  match op with
  | .not => .ok (m.setGpr reg (low wide (~~~v)))
  | .neg => .ok (m.setArith .sub reg (ArithOp.sub.apply wide 0 v))
  | .idiv =>
    match divide wide (m.gpr Gpr.rdx) (m.gpr Gpr.rax) v with
    | some (q, r) => .ok ((m.setGpr Gpr.rax q).setGpr Gpr.rdx r)
    | none => .error .machineTrap

/-- Jump relative to the next instruction. -/
def jumpBy (disp : Int32) : Except Fault (Machine σ) :=
  let target : Int := m.pos + disp.toInt
  if target < 0 then .error .machineTrap else .ok { m with pos := target.toNat }

/-- The next instruction follows. -/
def go : Except Fault (Machine σ ⊕ World σ) := .ok (.inl m)

/-- What an instruction does: the machine goes on, or the block has returned to its caller. The
position is already that of the next instruction. -/
def step (g : Guest σ) : Instruction → Except Fault (Machine σ ⊕ World σ)
  | .arith op wide dst src => go (m.setArith op dst (op.apply wide (m.gpr dst) (m.gpr src)))
  | .arithImm op wide dst imm =>
    go (m.setArith op dst (op.apply wide (m.gpr dst) imm.toInt64.toUInt64))
  | .arithMem op base offset imm =>
    let a := m.address base offset
    let (r, flags) := op.apply false (m.read g a .w32) imm.toUInt32.toUInt64
    let m := { m with flags }
    go (if op = .cmp then m else m.write g a .w32 r)
  | .unary op wide reg => do return .inl (← m.unary op wide reg)
  | .shiftImm op wide dst imm => go (m.setGpr dst (op.apply wide (m.gpr dst) imm))
  | .shiftCl op wide dst =>
    go (m.setGpr dst (op.apply wide (m.gpr dst) (m.gpr Gpr.rcx).toUInt8))
  | .mov wide dst src => go (m.setGpr dst (low wide (m.gpr src)))
  | .movImm dst imm => go (m.setGpr dst imm)
  | .extend e dst src => go (m.setGpr dst (e.apply (m.gpr src)))
  | .extendHigh dst src => go (m.setGpr dst ((m.gpr src >>> 8) &&& 0xff))
  | .imul wide dst src => go (m.setGpr dst (low wide (m.gpr dst * m.gpr src)))
  | .load size dst base offset => go (m.setGpr dst (m.read g (m.address base offset) size))
  | .store size src base offset =>
    go (m.write g (m.address base offset) size (m.gpr src &&& size.mask))
  | .storeImm base offset imm => go (m.write g (m.address base offset) .w32 imm.toUInt32.toUInt64)
  | .cqo => go (m.setGpr Gpr.rdx (if negative true (m.gpr Gpr.rax) then 0xffffffffffffffff else 0))
  | .ret =>
    let (target, m) := m.pop g
    if target = callerAddress then .ok (.inr m.world) else .error .machineTrap
  | .jump disp => do return .inl (← m.jumpBy disp)
  | .jumpIf cond disp => do return .inl (← if cond.holds m.flags then m.jumpBy disp else .ok m)
  | .callReg reg => do
    match Thunk.ofAddress? (m.gpr reg) with
    | some t => return .inl (← m.callThunk g t)
    | none => throw .machineTrap
  | .push reg => go (m.push g (m.gpr reg))
  | .pop reg =>
    let (v, m) := m.pop g
    go (m.setGpr reg v)
  | .setcc cond dst =>
    go (m.setGpr dst ((m.gpr dst &&& 0xffffffffffffff00) ||| (cond.holds m.flags).toUInt64))
  | .cmov cond wide dst src =>
    go (m.setGpr dst (low wide (if cond.holds m.flags then m.gpr src else m.gpr dst)))
  | .test wide a b => go { m with flags := (ArithOp.and.apply wide (m.gpr a) (m.gpr b)).2 }
  | .sse op dst src => go (m.sse op dst src)
  | .sseMem op xmm base offset => go (m.sseMem g op xmm (m.address base offset))
  | .movqToXmm dst src => go (m.setXmm dst (m.gpr src))
  | .movqFromXmm dst src => go (m.setGpr dst (m.xmm src))
  | .intToFloat d dst src =>
    go (m.setXmm dst (setLane d (m.xmm dst) (intToFloatBits d (m.gpr src))))
  | .floatToInt d dst src => go (m.setGpr dst (cutToInt (lane d (m.xmm src))))

/-- Longest instruction. -/
def longest : Nat := 15

/-- Run code until it returns, for at most `fuel` instructions. The number it returns comes with
the guest. -/
def run (g : Guest σ) (code : CodeBuffer) : Nat → Machine σ → Except Fault (UInt32 × World σ)
  | 0, _ => .error .outOfFuel
  | fuel + 1, m =>
    let bytes := code.view m.pos (m.pos + longest)
    match decode bytes with
    | none => .error .machineTrap
    | some (i, rest) => do
      let m := { m with pos := m.pos + (bytes.length - rest.length) }
      match ← m.step g i with
      | .inl m => run g code fuel m
      | .inr world => return ((m.gpr Gpr.rax).toUInt32, world)

/-- The machine at the entry of a block, called with context and guest handle. -/
def entry (pos : Nat) (world : World σ) : Machine σ :=
  let gprs := (Vector.replicate 16 (0 : UInt64)).set Gpr.rdi ctxBase
    |>.set Gpr.rsi handle
    |>.set Gpr.rsp (stackTop - 8)
  { gprs, xmms := Vector.replicate 16 0, pos, world,
    stack := pushBytes {} (stackTop - 8) (Bytes.ofWord 8 callerAddress) }

end Machine
end Recompiler.X64
