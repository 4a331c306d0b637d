import Recompiler.IR.Constant

/-! Host routines that generated code calls, and where they lie. -/
namespace Recompiler.X64

inductive Thunk where
  /-- Handle, guest address, bytes. -/
  | loadGuest
  /-- Handle, guest address, value, bytes. -/
  | storeGuest
  /-- Handle, routine, guest address, instruction word. -/
  | fallback
  /-- Handle, routine, two arguments. -/
  | call
  deriving DecidableEq, Inhabited, Repr

namespace Thunk

def all : List Thunk := [loadGuest, storeGuest, fallback, call]

/-- Entry points lie far above the 32-bit range. -/
def address : Thunk → UInt64
  | loadGuest => 0x7f0000001000
  | storeGuest => 0x7f0000002000
  | fallback => 0x7f0000003000
  | call => 0x7f0000004000

def ofAddress? (a : UInt64) : Option Thunk := all.find? fun t => t.address == a

end Thunk
end Recompiler.X64
