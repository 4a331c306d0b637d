import Recompiler.IR.Ty

/-! Host registers as allocation sees them. -/
namespace Recompiler.Pass

open IR (Ty)

/-- A register and the types it can hold. -/
structure Register where
  name : String
  types : List Ty
  deriving DecidableEq, Inhabited, Repr

namespace Register

def holds (r : Register) (ty : Ty) : Bool := r.types.contains ty

/-- The types as a bit set. -/
def mask (r : Register) : Nat := r.types.foldl (fun m t => m ||| t.mask) 0

end Register
end Recompiler.Pass
