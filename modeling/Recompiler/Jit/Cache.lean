import Recompiler.Fault

/-!
Compiled blocks by guest address, and the edges between them. Blocks are kept in the order of their
addresses; a second list leads from host addresses to runnable blocks.
-/
namespace Recompiler.Jit

/-- An exit of a block. -/
structure Edge where
  source : UInt32
  slot : Nat
  deriving DecidableEq, Inhabited, Repr

/-- A compiled block. `links` are the blocks that its exits were last seen to reach, and `incoming`
are the exits of others that lead here, so that both ends of an edge can be cut. -/
structure Block where
  addr : UInt32
  size : UInt32
  /-- The handle of the code; absent once the code has been dropped. -/
  code : Option Nat
  hostAddr : Nat
  hostSize : Nat
  /-- Constant targets, numbered as exits are. -/
  exits : List UInt32
  links : List (Option UInt32)
  incoming : List Edge := []
  /-- Whether memory is accessed directly. -/
  fast : Bool
  deriving DecidableEq, Inhabited, Repr

namespace Block

/-- A block without edges. -/
def fresh (addr size : UInt32) (code hostAddr hostSize : Nat) (exits : List UInt32) (fast : Bool) :
    Block :=
  { addr, size, code := some code, hostAddr, hostSize, exits,
    links := exits.map fun _ => none, fast }

def isStale (b : Block) : Bool := b.code.isNone

/-- Whether guest bytes of the block lie in the `len` bytes from `addr` on. -/
def overlaps (b : Block) (addr len : UInt32) : Bool :=
  b.addr.toNat < addr.toNat + len.toNat && addr.toNat < b.addr.toNat + b.size.toNat

/-- Whether runnable code of the block lies at a host address. The end of the code has to be an
address too. -/
def containsHost (b : Block) (host : Nat) : Except Fault Bool :=
  if b.isStale then .ok false
  else if b.hostAddr + b.hostSize < UInt64.size then
    .ok (b.hostAddr ≤ host && host < b.hostAddr + b.hostSize)
  else .error .overflow

def setLink (b : Block) (slot : Nat) (link : Option UInt32) : Block :=
  { b with links := b.links.set slot link }

/-- The links that are set, with their slots. -/
def outgoing (b : Block) : List (Nat × UInt32) :=
  b.links.zipIdx.filterMap fun (link, slot) => link.map (slot, ·)

/-- Drop the code and all edges. -/
def cut (b : Block) : Block :=
  { b with code := none, links := b.links.map fun _ => none, incoming := [] }

end Block

structure Cache where
  /-- In the order of the guest addresses, each once. -/
  blocks : List Block := []
  /-- Host addresses of runnable blocks, each once. -/
  hosts : List (Nat × UInt32) := []
  deriving Inhabited, Repr

namespace Cache

def get? (c : Cache) (addr : UInt32) : Option Block := c.blocks.find? fun b => b.addr = addr

/-- Change the block at an address. -/
def modify (c : Cache) (addr : UInt32) (g : Block → Block) : Cache :=
  { c with blocks := c.blocks.map fun b => if b.addr = addr then g b else b }

/-- The code of the block at an address, if it can be run. -/
def lookup (c : Cache) (addr : UInt32) : Option Nat := (c.get? addr).bind Block.code

def addrs (c : Cache) : List UInt32 := c.blocks.map Block.addr

/-- Put a block in its place. -/
def insertSorted (b : Block) : List Block → List Block
  | [] => [b]
  | x :: xs => if b.addr < x.addr then b :: x :: xs else x :: insertSorted b xs

/-- Add a block. It must have no edges, and its address must be free. -/
def insert (c : Cache) (b : Block) : Except Fault Cache :=
  if !b.incoming.isEmpty || b.links.any Option.isSome then .error (.liveEdges b.addr)
  else if (c.get? b.addr).isSome then .error (.alreadyCached b.addr)
  else
    let hosts :=
      if b.isStale then c.hosts
      else (b.hostAddr, b.addr) :: c.hosts.filter fun h => h.1 ≠ b.hostAddr
    .ok { blocks := insertSorted b c.blocks, hosts }

/-- Forget that an exit leads to a block. -/
def dropIncoming (c : Cache) (dst : UInt32) (e : Edge) : Cache :=
  c.modify dst fun b => { b with incoming := b.incoming.filter (· ≠ e) }

/-- Cut the link of an exit if it leads to `dst`. -/
def dropLink (c : Cache) (e : Edge) (dst : UInt32) : Cache :=
  c.modify e.source fun b => if b.links[e.slot]? = some (some dst) then b.setLink e.slot none else b

/-- Let an exit lead to a block, in both directions. -/
def connect (c : Cache) (e : Edge) (old : Option UInt32) (dst : UInt32) : Cache :=
  let c := c.modify e.source (·.setLink e.slot (some dst))
  let c := match old with
    | some old => c.dropIncoming old e
    | none => c
  c.modify dst fun b => { b with incoming := b.incoming ++ [e] }

/-- Record that an exit reaches a block. Both blocks must be runnable. -/
def link (c : Cache) (source : UInt32) (slot : Nat) (dst : UInt32) : Cache :=
  match c.get? source with
  | none => c
  | some b =>
    if (c.lookup dst).isNone || b.isStale then c
    else
      match b.links[slot]? with
      | none => c
      | some old => if old = some dst then c else c.connect ⟨source, slot⟩ old dst

/-- The runnable block that an exit was last seen to reach. -/
def linked (c : Cache) (source : UInt32) (slot : Nat) : Option (UInt32 × Nat) := do
  let b ← c.get? source
  let dst ← (← b.links[slot]?)
  return (dst, ← c.lookup dst)

/-- Forget the host address of a runnable block. -/
def dropHost (c : Cache) (b : Block) : Cache :=
  if b.isStale then c else { c with hosts := c.hosts.filter (· ≠ (b.hostAddr, b.addr)) }

/-- Take the code of a block and cut its edges; the entry stays. -/
def invalidate (c : Cache) (addr : UInt32) : Cache × Option Nat :=
  match c.get? addr with
  | none => (c, none)
  | some b =>
    let c := (c.dropHost b).modify addr Block.cut
    let c := b.incoming.foldl (fun c e => c.dropLink e addr) c
    let c := b.outgoing.foldl (fun c (slot, dst) => c.dropIncoming dst ⟨addr, slot⟩) c
    (c, b.code)

/-- Take the code of a block and drop its entry. -/
def remove (c : Cache) (addr : UInt32) : Cache × Option Nat :=
  let (c, code) := c.invalidate addr
  ({ c with blocks := c.blocks.filter fun b => b.addr ≠ addr }, code)

/-- The addresses of the blocks that have guest bytes in a range. A block below the range may reach
into it, so the scan starts at the first block; it stops behind the range. -/
def overlapping (c : Cache) (addr len : UInt32) : List UInt32 :=
  let below := c.blocks.takeWhile fun b => b.addr.toNat < addr.toNat + len.toNat
  (below.filter (·.overlaps addr len)).map Block.addr

/-- Of two host entries the higher one. -/
def higher (best : Option (Nat × UInt32)) (h : Nat × UInt32) : Option (Nat × UInt32) :=
  match best with
  | some b => if b.1 < h.1 then some h else some b
  | none => some h

/-- The runnable block whose code lies at a host address. -/
def lookupHost (c : Cache) (host : Nat) : Except Fault (Option UInt32) :=
  match (c.hosts.filter fun h => h.1 ≤ host).foldl higher none with
  | none => .ok none
  | some (_, addr) =>
    match c.get? addr with
    | none => .ok none
    | some b => do return if ← b.containsHost host then some addr else none

end Cache
end Recompiler.Jit
