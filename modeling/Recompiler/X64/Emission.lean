import Recompiler.Assembling
import Recompiler.X64.Assembly
import Recompiler.X64.CodeBuffer

/-!
Code on its way into a buffer. Jumps are written with an empty displacement, which is filled in once
the place they lead to is known. Nothing here looks at the mark of the buffer: writes that do not
fit are dropped, and the displacements of jumps that were dropped are left out.
-/
namespace Recompiler.X64

structure Emission where
  buffer : CodeBuffer
  /-- The labels met so far and where they stand. -/
  places : List (Label × Nat) := []
  /-- The jumps that wait for their target: where the displacement stands, and the target. -/
  jumps : List (Nat × Label) := []

namespace Emission

/-- Let a jump lead to its target. -/
def connect (e : Emission) (jump : Nat × Label) : Except Fault Emission := do
  let some place := e.places.lookup jump.2 | throw .missingTarget
  return { e with buffer := ← e.buffer.connect jump.1 place }

/-- Connect the waiting jumps with such targets. -/
def settle (e : Emission) (due : Label → Bool) : Except Fault Emission :=
  (e.jumps.filter fun j => due j.2).foldlM connect
    { e with jumps := e.jumps.filter fun j => !due j.2 }

/-- Record where a label stands. -/
def placed (e : Emission) (l : Label) : Emission :=
  { e with places := e.places ++ [(l, e.buffer.offset)] }

/-- Write a line. Jumps to a block wait for the end, the others for their label. -/
def line (e : Emission) : Line → Except Fault Emission
  | .instr i => .ok { e with buffer := e.buffer.emit i }
  | .jump cond target =>
    let (buffer, site) := e.buffer.openJump cond
    .ok { e with buffer, jumps := e.jumps ++ [(site, target)] }
  | .label l =>
    match l with
    | .block _ => .ok (e.placed l)
    | _ => (e.placed l).settle (· = l)

/-- What was written, and how it ended. -/
abbrev Outcome := Emission × Assembling Unit

/-- Go on after a step, or stop before it if it faults. -/
def andThen (e : Emission) (step : Except Fault Emission) (next : Emission → Outcome) : Outcome :=
  match step with
  | .ok e => next e
  | .error f => (e, .error (.fault f))

/-- Write the parts of the code, up to the first one that is refused. -/
def generate (e : Emission) : List (Assembling Assembly) → Outcome
  | [] => e.andThen (e.settle fun _ => true) fun e => (e, .ok ())
  | .error r :: _ => (e, .error r)
  | .ok lines :: parts => e.andThen (lines.foldlM line e) fun e => e.generate parts

end Emission
end Recompiler.X64
