import Recompiler.IR.Fragment

/-!
The order in which blocks are visited: depth first along edges, each block once. A block that no
earlier one reaches is the root of a tree of its own.
-/
namespace Recompiler.Pass

open IR

/-- A block and the block it is entered from, none for a root. -/
structure Visit where
  block : BlockId
  parent : Option BlockId
  deriving DecidableEq, Repr

namespace BlockTree

/-- The members of a list that are not in `seen`, each once, and `seen` with them. -/
def unseen : List BlockId → List BlockId → List BlockId × List BlockId
  | seen, [] => ([], seen)
  | seen, b :: bs =>
    if seen.contains b then unseen seen bs
    else
      let (new, seen) := unseen (b :: seen) bs
      (b :: new, seen)

/-- Visit the blocks of a stack and what they reach. A visit claims the successors that are not
seen yet, and they are visited before the rest of the stack. -/
def grow (f : Fragment) : Nat → List BlockId → List Visit → List Visit × List BlockId
  | 0, seen, _ => ([], seen)
  | _, seen, [] => ([], seen)
  | fuel + 1, seen, v :: stack =>
    let (children, seen) := unseen seen (f.block v.block).edges
    let (visits, seen) := grow f fuel seen (children.map (⟨·, some v.block⟩) ++ stack)
    (v :: visits, seen)

/-- The trees rooted in those of the listed blocks that are not reached before. -/
def trees (f : Fragment) : List BlockId → List BlockId → List Visit
  | _, [] => []
  | seen, b :: bs =>
    if seen.contains b then trees f seen bs
    else
      let (visits, seen) := grow f f.blocks.size (b :: seen) [⟨b, none⟩]
      visits ++ trees f seen bs

/-- Every block in visiting order. -/
def visits (f : Fragment) : List Visit := trees f [] f.order

end BlockTree
end Recompiler.Pass
