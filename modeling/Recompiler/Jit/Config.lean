import Recompiler.Text.Blank
import Recompiler.X64.Backend

/-! Settings of a recompiler. -/
namespace Recompiler.Jit

structure Config where
  /-- A short name for symbols. -/
  tag : String := "jit"
  /-- Bytes of the code buffer. -/
  codeBufferSize : Nat := X64.Backend.defaultCapacity
  /-- Where compiled blocks are written in text form. -/
  dumpDir : Option String := none
  /-- Whether symbols of compiled blocks are recorded. -/
  perfMap : Bool := false
  /-- Whether allocations are checked. -/
  validate : Bool := false
  /-- Whether guest memory is accessed directly where it is mapped. -/
  fastMem : Bool := false
  deriving DecidableEq, Inhabited, Repr

namespace Config

/-- The words that switch a setting on. -/
def onWords : List String := ["1", "true", "yes", "on"]

/-- Whether a text switches a setting on; case and surrounding blanks do not matter. -/
def parseFlag (s : String) : Bool := onWords.contains ((Text.trim s).map Char.toLower)

/-- The settings that environment variables ask for. -/
def ofEnv (tag : String) (env : String → Option String) : Config :=
  let flag (name : String) : Bool := ((env name).map parseFlag).getD false
  { tag
    dumpDir := (env "JIT_DUMP_DIR").filter (!·.isEmpty)
    perfMap := flag "JIT_PERF_MAP"
    validate := flag "JIT_VALIDATE"
    fastMem := flag "JIT_FASTMEM" }

end Config
end Recompiler.Jit
