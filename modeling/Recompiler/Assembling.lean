import Recompiler.Fault

/-! Why a fragment cannot be assembled. -/
namespace Recompiler

open IR (Ty)

/-- A limit of a backend. -/
inductive BackendError where
  /-- No room is left for the code; it may fit once other code is dropped. -/
  | overflow
  | unsupported (what : String) (ty : Ty)
  deriving DecidableEq, Repr

def BackendError.message : BackendError → String
  | overflow => "code buffer overflow"
  | unsupported what ty => s!"{what} on {ty.name} is not supported by this backend"

/-- The class of an error, in one word. -/
def BackendError.kind : BackendError → String
  | overflow => "Overflow"
  | unsupported .. => "Unsupported"

/-- Assembly ends in a limit or in a fault. -/
inductive Refusal where
  | error (e : BackendError)
  | fault (f : Fault)

/-- A step of assembly. -/
abbrev Assembling := Except Refusal

namespace Assembling

/-- Use a step that may fault. -/
def ofFault {α : Type} : Except Fault α → Assembling α
  | .ok a => .ok a
  | .error f => .error (.fault f)

def fault {α : Type} (f : Fault) : Assembling α := .error (.fault f)

def unsupported {α : Type} (what : String) (ty : Ty) : Assembling α :=
  .error (.error (.unsupported what ty))

end Assembling
end Recompiler
