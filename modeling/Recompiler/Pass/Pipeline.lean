import Recompiler.Pass.Stats
import Recompiler.Pass.DeadCode
import Recompiler.Pass.Simplify
import Recompiler.Pass.Fold
import Recompiler.Pass.ContextReuse
import Recompiler.Pass.Allocation
import Recompiler.Pass.AllocationCheck

/-! The passes by name, and their order. -/
namespace Recompiler.Pass

open IR

/-- A pass. -/
inductive Name where
  | lse | cprop | esimp | dce | ra
  deriving DecidableEq, Inhabited, Repr

namespace Name

/-- Every pass, in pipeline order. -/
def all : List Name := [lse, cprop, esimp, dce, ra]

def text : Name → String
  | lse => "lse"
  | cprop => "cprop"
  | esimp => "esimp"
  | dce => "dce"
  | ra => "ra"

/-- The pass a word stands for, whatever its case. -/
def ofText? (s : String) : Option Name := all.find? fun p => Text.sameName p.text s

end Name

/-- Counters of the passes run so far, and whether allocations are checked. -/
structure Pipeline where
  stats : Stats := {}
  validate : Bool := false

namespace Pipeline

def count (p : Pipeline) (stat : Stat) (n : Nat) : Pipeline :=
  { p with stats := p.stats.add stat n }

/-- Run one pass. A checked allocation that is wrong is a fault. -/
def run (p : Pipeline) (regs : Array Register) (f : Fragment) :
    Name → Except Fault (Fragment × Pipeline)
  | .lse => do
    let (f, loads, stores) ← ContextReuse.run f
    return (f, (p.count .loadsRemoved loads).count .storesRemoved stores)
  | .cprop => do
    let (f, n) ← Fold.run f
    return (f, p.count .constantsFolded n)
  | .esimp => do
    let (f, n) ← Simplify.run f
    return (f, p.count .expressionsSimplified n)
  | .dce => do
    let (f, n) ← DeadCode.run f
    return (f, p.count .deadRemoved n)
  | .ra => do
    let out ← Allocation.run f regs
    if p.validate then
      if let some e ← AllocationCheck.run out.fragment regs then
        throw (.invalidAllocation e.message)
    return (out.fragment,
      (p.count .gprsSpilled out.gprsSpilled).count .fprsSpilled out.fprsSpilled)

/-- Run passes in the order given. -/
def runAll (p : Pipeline) (regs : Array Register) (f : Fragment) (passes : List Name) :
    Except Fault (Fragment × Pipeline) :=
  passes.foldlM (fun (f, p) pass => p.run regs f pass) (f, p)

/-- Run every pass. The result is ready for a backend with these registers. -/
def optimize (p : Pipeline) (regs : Array Register) (f : Fragment) :
    Except Fault (Fragment × Pipeline) :=
  p.runAll regs f Name.all

end Pipeline
end Recompiler.Pass
