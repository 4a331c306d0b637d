import Recompiler.Text.Number

/-! Counters of what the passes did. -/
namespace Recompiler.Pass

inductive Stat where
  | loadsRemoved
  | storesRemoved
  | constantsFolded
  | expressionsSimplified
  | deadRemoved
  | gprsSpilled
  | fprsSpilled
  deriving DecidableEq, Inhabited, Repr

namespace Stat

/-- Every counter, in table order. -/
def all : List Stat :=
  [loadsRemoved, storesRemoved, constantsFolded, expressionsSimplified, deadRemoved,
   gprsSpilled, fprsSpilled]

/-- Row of the table. -/
def index : Stat → Fin 7
  | loadsRemoved => 0
  | storesRemoved => 1
  | constantsFolded => 2
  | expressionsSimplified => 3
  | deadRemoved => 4
  | gprsSpilled => 5
  | fprsSpilled => 6

def name : Stat → String
  | loadsRemoved => "context loads removed"
  | storesRemoved => "context stores removed"
  | constantsFolded => "constant propagations removed"
  | expressionsSimplified => "expressions simplified"
  | deadRemoved => "dead instructions eliminated"
  | gprsSpilled => "gprs spilled"
  | fprsSpilled => "fprs spilled"

end Stat

/-- The counters of one pipeline. -/
structure Stats where
  counts : Vector Nat 7 := Vector.replicate 7 0
  deriving Inhabited, Repr

namespace Stats

def get (s : Stats) (stat : Stat) : Nat := s.counts[stat.index]

def add (s : Stats) (stat : Stat) (n : Nat) : Stats :=
  { counts := s.counts.set stat.index (s.get stat + n) }

/-- Width of the widest name. -/
def nameWidth : Nat := Stat.all.foldl (fun w s => max w s.name.length) 0

/-- The counters as a table under a banner. -/
def table (s : Stats) : String :=
  "===== Pass stats =====\n" ++ String.join (Stat.all.map fun stat =>
    Text.padRight nameWidth stat.name ++ "  " ++
      Text.padLeft ' ' 8 (toString (s.get stat)) ++ "\n")

end Stats
end Recompiler.Pass
