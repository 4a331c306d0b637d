import Recompiler.Interp.Backend
import Recompiler.X64.Backend

/-! The two ways to run a fragment behind one interface. -/
namespace Recompiler

open IR Pass

/-- A store of code that can be run. -/
inductive Backend where
  | interp (b : Interp.Backend)
  | x64 (b : X64.Backend)

namespace Backend

def name : Backend → String
  | interp _ => "interp"
  | x64 _ => "x64"

/-- The registers that allocation may use. -/
def registers : Backend → Array Register
  | interp b => b.registers
  | x64 _ => X64.registers

/-- Make code of an allocated fragment and return its handle. -/
def assemble (guestAddr : UInt32) (f : Fragment) : Backend → Backend × Assembling Nat
  | interp b =>
    let (b, r) := b.assemble guestAddr f
    (interp b, r)
  | x64 b =>
    let (b, r) := b.assemble guestAddr f
    (x64 b, r)

/-- Run a block to its exit, for at most `fuel` steps. -/
def execute {σ : Type} (b : Backend) (g : Guest σ) (fuel handle : Nat) (w : World σ) :
    Except Fault (Exit × World σ) :=
  match b with
  | interp b => b.execute g fuel handle w
  | x64 b => b.execute g fuel handle w

/-- Drop a block. -/
def free (handle : Nat) : Backend → Backend
  | interp b => interp (b.free handle)
  | x64 b => x64 (b.free handle)

/-- Drop every block. -/
def reset : Backend → Backend
  | interp b => interp b.reset
  | x64 b => x64 b.reset

/-- The host address of a block's code. -/
def codeAddr (handle : Nat) : Backend → Except Fault Nat
  | interp b => b.codeAddr handle
  | x64 b => b.codeAddr handle

/-- Host bytes of a block's code. -/
def codeSize (handle : Nat) : Backend → Except Fault Nat
  | interp b => b.codeSize handle
  | x64 b => b.codeSize handle

end Backend
end Recompiler
