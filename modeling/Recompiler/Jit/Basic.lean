import Recompiler.Backend
import Recompiler.Cpu
import Recompiler.IR.Printer
import Recompiler.Jit.Cache
import Recompiler.Jit.Config
import Recompiler.Jit.Files
import Recompiler.Pass.Pipeline

/-! The recompiler of one guest processor: blocks are compiled when control first reaches them. -/
namespace Recompiler.Jit

open IR Pass

/-- Why a block cannot be compiled. -/
inductive Error where
  | backend (e : BackendError)
  /-- A file could not be written. -/
  | file (path : String)
  deriving DecidableEq, Repr

/-- A symbol for a profiler. -/
structure Symbol where
  addr : Nat
  size : Nat
  name : String
  deriving DecidableEq, Repr

/-- Address, size and name in one line. -/
def Symbol.line (s : Symbol) : String :=
  Text.hexDigits s.addr ++ " " ++ Text.hexDigits s.size ++ " " ++ s.name ++ "\n"

end Jit

/-- The state of a recompiler. -/
structure Jit where
  config : Jit.Config := {}
  backend : Backend
  pipeline : Pass.Pipeline := {}
  cache : Jit.Cache := {}
  /-- Symbols of compiled blocks, the oldest first. -/
  symbols : List Jit.Symbol := []
  files : Jit.Files := {}
  /-- Blocks compiled so far. -/
  compiled : Nat := 0

namespace Jit

open IR Pass

variable {σ : Type}

def ofConfig (config : Config) (backend : Backend) (files : Files) : Jit :=
  { config, backend, pipeline := { validate := config.validate }, files }

/-- An outcome, and the recompiler in any case. -/
abbrev Attempt (α : Type) := Jit × Except Error α

/-! ### Invalidation -/

/-- Drop the entry and the code of a block. -/
def freeBlock (j : Jit) (addr : UInt32) : Jit :=
  match j.cache.remove addr with
  | (cache, some code) => { j with cache, backend := j.backend.free code }
  | (cache, none) => { j with cache }

/-- Drop the code of a block; it is compiled again when it is next reached. -/
def dropCode (j : Jit) (addr : UInt32) : Jit :=
  match j.cache.invalidate addr with
  | (cache, some code) => { j with cache, backend := j.backend.free code }
  | (cache, none) => { j with cache }

/-- Drop every block with guest bytes in a range. -/
def invalidateRange (j : Jit) (addr len : UInt32) : Jit :=
  (j.cache.overlapping addr len).foldl freeBlock j

/-- Drop all code and keep the entries. -/
def invalidateBlocks (j : Jit) : Jit := j.cache.addrs.foldl dropCode j

/-- Drop everything and give the room for code back. -/
def freeBlocks (j : Jit) : Jit := { j with cache := {}, backend := j.backend.reset }

/-- A direct access at a host address has failed. The block there loses direct access and its code.
The answer is whether there was such a block. -/
def handleException (j : Jit) (host : Nat) : Except Fault (Jit × Bool) := do
  match (← j.cache.lookupHost host).bind j.cache.get? with
  | some b =>
    if b.fast then
      let j := { j with cache := j.cache.modify b.addr ({ · with fast := false }) }
      return (j.dropCode b.addr, true)
    else return (j, false)
  | none => return (j, false)

/-! ### Compilation -/

/-- The directory for the files of blocks. -/
def irDir (dir : String) : String := dir ++ "/ir"

/-- The file of a block. -/
def dumpName (addr : UInt32) : String := Text.address addr ++ ".ir"

/-- Write a block before it is optimized, if that is asked for. Writing labels the fragment. -/
def dump (j : Jit) (listing : String) (addr : UInt32) (f : Fragment) :
    Files × Except Error Fragment :=
  match j.config.dumpDir with
  | none => (j.files, .ok f)
  | some dir =>
    let (f, text) := f.render
    match j.files.write (irDir dir) (dumpName addr) (listing ++ text) with
    | (files, .ok ()) => (files, .ok f)
    | (files, .error path) => (files, .error (.file path))

/-- Make code. If there is no room, everything is dropped first. -/
def assemble (j : Jit) (addr : UInt32) (f : Fragment) : Except Fault (Attempt Nat) :=
  match j.backend.assemble addr f with
  | (backend, .ok code) => .ok ({ j with backend }, .ok code)
  | (_, .error (.fault e)) => .error e
  | (backend, .error (.error .overflow)) =>
    let j := { j with backend }.freeBlocks
    match j.backend.assemble addr f with
    | (backend, .ok code) => .ok ({ j with backend }, .ok code)
    | (_, .error (.fault e)) => .error e
    | (backend, .error (.error e)) => .ok ({ j with backend }, .error (.backend e))
  | (backend, .error (.error e)) => .ok ({ j with backend }, .error (.backend e))

/-- Record the symbol of a block, if that is asked for. -/
def recordSymbol (j : Jit) (addr : UInt32) (hostAddr hostSize : Nat) : Jit :=
  if j.config.perfMap then
    let name := j.config.tag ++ "_" ++ Text.address addr
    { j with symbols := j.symbols ++ [⟨hostAddr, hostSize, name⟩] }
  else j

/-- Put compiled code into the cache. -/
def install (j : Jit) (addr : UInt32) (size code : Nat) (exits : List UInt32) (fast : Bool) :
    Except Fault Jit := do
  let hostAddr ← j.backend.codeAddr code
  let hostSize ← j.backend.codeSize code
  let j := j.recordSymbol addr hostAddr hostSize
  let block := Block.fresh addr (UInt32.ofNat size) code hostAddr hostSize exits fast
  return { j with cache := ← j.cache.insert block, compiled := j.compiled + 1 }

/-- Whether a block at an address gets direct access: as the block that was there had it, or else as
the settings say. -/
def wantsFast (j : Jit) (addr : UInt32) : Bool :=
  match j.cache.get? addr with
  | some b => b.fast
  | none => j.config.fastMem

/-- Compile the block at an address. A block that was there is dropped first. -/
def compile (cpu : Cpu σ) (w : World σ) (addr : UInt32) (j : Jit) :
    Except Fault (Attempt Nat) := do
  let fast := j.wantsFast addr
  let j := j.freeBlock addr
  let size ← cpu.blockSize w addr
  let f ← cpu.fragment w addr size fast
  match j.dump (cpu.disassemble w addr size) addr f with
  | (files, .error e) => return ({ j with files }, .error e)
  | (files, .ok f) =>
    let (f, pipeline) ← j.pipeline.optimize j.backend.registers f
    match ← { j with files, pipeline }.assemble addr f with
    | (j, .error e) => return (j, .error e)
    | (j, .ok code) => return (← j.install addr size code (Exit.statics f) fast, .ok code)

/-- The code of the block at an address, compiled if need be. -/
def find (cpu : Cpu σ) (w : World σ) (addr : UInt32) (j : Jit) : Except Fault (Attempt Nat) :=
  match j.cache.lookup addr with
  | some code => .ok (j, .ok code)
  | none => j.compile cpu w addr

end Jit
end Recompiler
