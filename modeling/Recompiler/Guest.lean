import Recompiler.Bytes
import Recompiler.Fault

/-!
The guest as generated code sees it: a context of bytes that code changes in place, and routines
for everything else. A routine may change the context too.
-/
namespace Recompiler

open IR (Ty)

/-- Size of a memory access. -/
inductive Width where
  | w8 | w16 | w32 | w64
  deriving DecidableEq, Inhabited, Repr

namespace Width

def bytes : Width → Nat
  | w8 => 1
  | w16 => 2
  | w32 => 4
  | w64 => 8

/-- The width of so many bytes; every other number counts as 8. -/
def ofBytes : Nat → Width
  | 1 => w8
  | 2 => w16
  | 4 => w32
  | _ => w64

/-- The low bits of a word that an access of the width transfers. -/
def mask : Width → UInt64
  | w8 => 0xff
  | w16 => 0xffff
  | w32 => 0xffffffff
  | w64 => 0xffffffffffffffff

/-- The width of a guest access: exact for narrow integers, full otherwise. -/
def ofTy : Ty → Width
  | .i8 => w8
  | .i16 => w16
  | .i32 => w32
  | _ => w64

end Width

/-- The registers and bookkeeping words of a guest. -/
abbrev Context := Array UInt8

namespace Context

/-- The bytes a field of the context can have. -/
def width? : Nat → Option Width
  | 1 => some .w8
  | 2 => some .w16
  | 4 => some .w32
  | 8 => some .w64
  | _ => none

/-- Read at an offset; nothing lies below the context. -/
def get (c : Context) (offset : Int) (w : Width) : UInt64 :=
  if offset < 0 then 0 else Bytes.read c offset.toNat w.bytes

/-- Write at an offset; nothing lies below the context. -/
def set (c : Context) (offset : Int) (w : Width) (v : UInt64) : Context :=
  if offset < 0 then c else Bytes.write c offset.toNat w.bytes v

def get32 (c : Context) (offset : Int) : UInt32 := (c.get offset .w32).toUInt32
def set32 (c : Context) (offset : Int) (v : UInt32) : Context := c.set offset .w32 v.toUInt64

end Context

/-- Where the dispatcher finds its words in a context. -/
structure Offsets where
  pc : Int
  /-- Cycles left, counted down by executed code. -/
  cycles : Int
  /-- Guest instructions executed. -/
  instrs : Int
  /-- Pending interrupts; not zero asks for a prompt check. -/
  interrupts : Int
  deriving Inhabited, Repr

/-- Guest memory that code may access directly: guest address `a` lies at `base + (a & mask)`. -/
structure FastMem where
  base : UInt64
  mask : UInt32
  deriving Inhabited, Repr

/-- A context and the rest of the guest. -/
structure World (σ : Type) where
  ctx : Context
  rest : σ

/-- The routines of a guest. -/
structure Guest (σ : Type) where
  read : Width → UInt32 → World σ → UInt64 × World σ
  write : Width → UInt32 → UInt64 → World σ → World σ
  /-- Interpret one instruction: routine, address, instruction word. -/
  fallback : UInt64 → UInt32 → UInt32 → World σ → Except Fault (World σ)
  /-- Call a host routine with two arguments. -/
  call : UInt64 → UInt64 → UInt64 → World σ → World σ
  /-- Read host memory. -/
  readHost : UInt64 → Width → World σ → UInt64
  /-- Write host memory. -/
  writeHost : UInt64 → Width → UInt64 → World σ → World σ

namespace World

variable {σ : Type}

def get32 (w : World σ) (offset : Int) : UInt32 := w.ctx.get32 offset
def set32 (w : World σ) (offset : Int) (v : UInt32) : World σ :=
  { w with ctx := w.ctx.set32 offset v }

/-- Charge cycles and count one instruction. Both counters wrap around. -/
def charge (w : World σ) (o : Offsets) (cycles : UInt32) : World σ :=
  let w := w.set32 o.cycles (w.get32 o.cycles - cycles)
  w.set32 o.instrs (w.get32 o.instrs + 1)

/-- Whether neither counter leaves the signed 32-bit numbers when so many cycles are charged and one
instruction is counted. -/
def HasRoom (w : World σ) (o : Offsets) (cycles : UInt32) : Prop :=
  -0x80000000 ≤ (w.get32 o.cycles).toInt32.toInt - cycles.toNat ∧
    (w.get32 o.instrs).toInt32.toInt + 1 < 0x80000000

instance (w : World σ) (o : Offsets) (cycles : UInt32) : Decidable (w.HasRoom o cycles) :=
  inferInstanceAs (Decidable (_ ∧ _))

/-- Charge cycles and count one instruction, unless a counter would wrap around. -/
def chargeChecked (w : World σ) (o : Offsets) (cycles : UInt32) : Except Fault (World σ) :=
  if w.HasRoom o cycles then .ok (w.charge o cycles) else .error .overflow

end World
end Recompiler
