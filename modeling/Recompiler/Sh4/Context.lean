import Recompiler.Guest
import Recompiler.Index

/-! The registers of an SH4 and their places in the context. -/
namespace Recompiler.Sh4

/-- A word of the context. -/
inductive Field where
  /-- The active bank r0 to r7, then r8 to r15. -/
  | r (n : Fin 16)
  /-- The inactive bank r0 to r7. -/
  | ralt (n : Fin 8)
  | fr (n : Fin 16)
  /-- The inactive float bank. -/
  | xf (n : Fin 16)
  | pc | pr | sr | fpscr | gbr | vbr | fpul | mach | macl | sgr | spc | ssr
  | tra | expevt | intevt
  /-- One bit for each interrupt line. -/
  | pending
  | cycles | instrs
  deriving DecidableEq, Repr

namespace Field

/-- Number of the word in the context. -/
def index : Field → Nat
  | r n => n
  | ralt n => 16 + n
  | fr n => 24 + n
  | xf n => 40 + n
  | pc => 56
  | pr => 57
  | sr => 58
  | fpscr => 59
  | gbr => 60
  | vbr => 61
  | fpul => 62
  | mach => 63
  | macl => 64
  | sgr => 65
  | spc => 66
  | ssr => 67
  | tra => 68
  | expevt => 69
  | intevt => 70
  | pending => 71
  | cycles => 72
  | instrs => 73

/-- The byte offset of the word. -/
def offset (f : Field) : Nat := 4 * f.index

def name : Field → String
  | r n => s!"r{n}"
  | ralt n => s!"ralt{n}"
  | fr n => s!"fr{n}"
  | xf n => s!"xf{n}"
  | pc => "pc"
  | pr => "pr"
  | sr => "sr"
  | fpscr => "fpscr"
  | gbr => "gbr"
  | vbr => "vbr"
  | fpul => "fpul"
  | mach => "mach"
  | macl => "macl"
  | sgr => "sgr"
  | spc => "spc"
  | ssr => "ssr"
  | tra => "tra"
  | expevt => "expevt"
  | intevt => "intevt"
  | pending => "pending"
  | cycles => "cycles"
  | instrs => "instrs"

/-- Every word, in the order of the context. -/
def all : List Field :=
  (List.finRange 16).map r ++ (List.finRange 8).map ralt ++ (List.finRange 16).map fr ++
  (List.finRange 16).map xf ++
  [pc, pr, sr, fpscr, gbr, vbr, fpul, mach, macl, sgr, spc, ssr, tra, expevt, intevt, pending,
   cycles, instrs]

end Field

def offsets : Offsets where
  pc := Field.pc.offset
  cycles := Field.cycles.offset
  instrs := Field.instrs.offset
  interrupts := Field.pending.offset

/-! Bits of the status register. -/

/-- Truth of the last test. -/
def srT : UInt32 := 0x00000001

/-- Interrupt mask level. -/
def srImask : UInt32 := 0x000000f0

/-- Interrupts are blocked. -/
def srBl : UInt32 := 0x10000000

/-- Choice of the general register bank. -/
def srRb : UInt32 := 0x20000000

/-- Privileged mode. -/
def srMd : UInt32 := 0x40000000

/-- Choice of the float bank. -/
def fpscrFr : UInt32 := 0x00200000

/-- The bits of the float status register that exist. -/
def fpscrMask : UInt32 := 0x003fffff

/-! Exceptions: vectors relative to the base register, and event codes. -/

def vectorGeneral : UInt32 := 0x100
def vectorInterrupt : UInt32 := 0x600
def expevtTrap : UInt32 := 0x160
def expevtIllegal : UInt32 := 0x180

/-- The code of interrupt line 0; the next lines follow in steps of 0x20. -/
def intevtBase : UInt32 := 0x200

namespace Context

def get (c : Context) (f : Field) : UInt32 := c.get32 f.offset
def set (c : Context) (f : Field) (v : UInt32) : Context := c.set32 f.offset v

/-- Exchange two words. -/
def swap (c : Context) (a b : Field) : Context := set (set c a (get c b)) b (get c a)

/-- Power-on state: privileged, second bank, interrupts blocked. -/
def reset : Context :=
  let c : Context := Array.replicate (4 * Field.all.length) 0
  let c := set c .pc 0xa0000000
  let c := set c .sr (srMd ||| srRb ||| srBl ||| srImask)
  set c .fpscr 0x00040001

/-- Exchange the general register banks. -/
def swapBanks (c : Context) : Context :=
  (List.finRange 8).foldl (fun c n => swap c (.r (n.castLE (by decide))) (.ralt n)) c

/-- Exchange the float banks. -/
def swapFloatBanks (c : Context) : Context :=
  (List.finRange 16).foldl (fun c n => swap c (.fr n) (.xf n)) c

/-- Follow a change of the status register from `old`: the banks change places with their bit. -/
def srUpdated (c : Context) (old : UInt32) : Context :=
  if (get c .sr ^^^ old) &&& srRb ≠ 0 then swapBanks c else c

def setSr (c : Context) (v : UInt32) : Context := srUpdated (set c .sr v) (get c .sr)

/-- Follow a change of the float status register from `old`. -/
def fpscrUpdated (c : Context) (old : UInt32) : Context :=
  if (get c .fpscr ^^^ old) &&& fpscrFr ≠ 0 then swapFloatBanks c else c

def setFpscr (c : Context) (v : UInt32) : Context := fpscrUpdated (set c .fpscr v) (get c .fpscr)

def t (c : Context) : Bool := get c .sr &&& srT ≠ 0

def setT (c : Context) (on : Bool) : Context :=
  set c .sr ((get c .sr &&& ~~~srT) ||| on.toUInt32)

/-- Save the state and go to a vector, privileged and with interrupts blocked. -/
def enterException (c : Context) (spc vector : UInt32) : Context :=
  let c := set c .spc spc
  let c := set c .ssr (get c .sr)
  let c := set c .sgr (get c (.r 15))
  let c := setSr c (get c .sr ||| srMd ||| srRb ||| srBl)
  set c .pc (get c .vbr + vector)

end Context
end Recompiler.Sh4
