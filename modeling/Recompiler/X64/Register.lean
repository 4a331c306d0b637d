import Recompiler.Index
import Recompiler.Pass.Register

/-! Registers of the x86-64 host and their roles in generated code. -/
namespace Recompiler.X64

open IR (Ty)
open Pass (Register)

/-- A general-purpose register by its encoding. -/
abbrev Gpr := Fin 16

/-- An SSE register by its encoding. -/
abbrev Xmm := Fin 16

namespace Gpr

def rax : Gpr := 0
def rcx : Gpr := 1
def rdx : Gpr := 2
def rbx : Gpr := 3
def rsp : Gpr := 4
def rbp : Gpr := 5
def rsi : Gpr := 6
def rdi : Gpr := 7
def r8 : Gpr := 8
def r9 : Gpr := 9
def r10 : Gpr := 10
def r11 : Gpr := 11
def r12 : Gpr := 12
def r13 : Gpr := 13
def r14 : Gpr := 14
def r15 : Gpr := 15

/-- The names in encoding order. -/
def names : List String :=
  ["rax", "rcx", "rdx", "rbx", "rsp", "rbp", "rsi", "rdi",
   "r8", "r9", "r10", "r11", "r12", "r13", "r14", "r15"]

/-- The register a name stands for. -/
def ofName? (s : String) : Option Gpr :=
  (names.idxOf? s).bind fun n => if h : n < 16 then some ⟨n, h⟩ else none

end Gpr

/-- The register that an operand number encodes: the three low bits are kept, and every number from
eight on sets the fourth. -/
def Xmm.ofNumber (n : UInt8) : Xmm := Fin.ofNat 16 (n.toNat % 8 + if n < 8 then 0 else 8)

/-- The low three bits of an encoding. -/
def low3 (r : Fin 16) : UInt8 := UInt8.ofNat (r.val % 8)

/-- The fourth bit of an encoding goes into the REX byte. -/
def needsRex (r : Fin 16) : Bool := r.val ≥ 8

/-- Where an allocated register lies on the host. -/
inductive HostReg where
  | gpr (r : Gpr)
  | xmm (x : Xmm)
  deriving DecidableEq, Inhabited, Repr

/-- The guest context, for the whole block. -/
def ctxReg : Gpr := Gpr.r14

/-- The guest handle that routines are called with. -/
def guestReg : Gpr := Gpr.r15

/-! Scratch registers: operands are loaded into these and results moved out. -/

def tmp0 : Gpr := Gpr.rax
def tmp1 : Gpr := Gpr.rcx
def tmp2 : Gpr := Gpr.rdx
def xtmp0 : Xmm := 0
def xtmp1 : Xmm := 1

/-- Registers that a block saves on entry. -/
def calleeSaved : List Gpr := [Gpr.rbx, Gpr.rbp, Gpr.r12, Gpr.r13, Gpr.r14, Gpr.r15]

/-- Registers that carry the arguments of a call. -/
def argRegs : List Gpr := [Gpr.rdi, Gpr.rsi, Gpr.rdx, Gpr.rcx, Gpr.r8, Gpr.r9]

/-- Allocatable SSE registers. Calls destroy them, so they are saved around calls. -/
def savedXmms : List Xmm := [8, 9, 10, 11, 12, 13, 14, 15]

/-- The allocatable registers. The general-purpose ones survive calls. -/
def registers : Array Register :=
  #[⟨"rbx", Ty.ints⟩, ⟨"rbp", Ty.ints⟩, ⟨"r12", Ty.ints⟩, ⟨"r13", Ty.ints⟩,
    ⟨"xmm8", Ty.floats⟩, ⟨"xmm9", Ty.floats⟩, ⟨"xmm10", Ty.floats⟩, ⟨"xmm11", Ty.floats⟩,
    ⟨"xmm12", Ty.floats⟩, ⟨"xmm13", Ty.floats⟩, ⟨"xmm14", Ty.floats⟩, ⟨"xmm15", Ty.floats⟩]

/-- The place of each allocatable register. -/
def hostRegs : Array HostReg :=
  #[.gpr Gpr.rbx, .gpr Gpr.rbp, .gpr Gpr.r12, .gpr Gpr.r13,
    .xmm 8, .xmm 9, .xmm 10, .xmm 11, .xmm 12, .xmm 13, .xmm 14, .xmm 15]

end Recompiler.X64
