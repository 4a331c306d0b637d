import Recompiler.Guest

/-! Flat little-endian guest memory. Its size is a power of two, and addresses wrap at the size. -/
namespace Recompiler

structure Ram where
  data : Array UInt8
  /-- The size less one. -/
  mask : UInt32
  deriving Inhabited

namespace Ram

/-- Where the memory lies on the host. -/
def hostBase : UInt64 := 0x7a1000000000

def isPowerOfTwo (n : Nat) : Bool := n > 0 && 1 <<< n.log2 = n

/-- Memory of zeros. -/
def ofSize (size : Nat) : Except Fault Ram :=
  if isPowerOfTwo size && size ≤ UInt32.size then
    .ok { data := Array.replicate size 0, mask := UInt32.ofNat (size - 1) }
  else .error (.ramSize size)

def size (r : Ram) : Nat := r.data.size

/-- The place of an address. -/
def index (r : Ram) (addr : UInt32) : Nat := (addr &&& r.mask).toNat

def byte (r : Ram) (addr : UInt32) : UInt8 := r.data.getD (r.index addr) 0

/-- The number in `size` bytes from `addr` on. -/
def read (r : Ram) (addr : UInt32) (size : Nat) : UInt64 :=
  Bytes.toWord ((List.range size).map fun i => r.byte (addr + UInt32.ofNat i))

/-- Write bytes from `addr` on. -/
def load (r : Ram) (addr : UInt32) : List UInt8 → Ram
  | [] => r
  | b :: bs => load { r with data := r.data.setIfInBounds (r.index addr) b } (addr + 1) bs

/-- Write the `size` low bytes of a number from `addr` on. -/
def write (r : Ram) (addr : UInt32) (size : Nat) (v : UInt64) : Ram :=
  r.load addr (Bytes.ofWord size v)

/-- Write words of `size` bytes one after another from `addr` on. -/
def loadWords (r : Ram) (addr : UInt32) (size : Nat) : List UInt64 → Ram
  | [] => r
  | w :: ws => loadWords (r.write addr size w) (addr + UInt32.ofNat size) size ws

/-- The mapping for direct access. -/
def fastMem (r : Ram) : FastMem := { base := hostBase, mask := r.mask }

/-- Read by host address. -/
def readHost (r : Ram) (addr : UInt64) (w : Width) : UInt64 :=
  Bytes.read r.data (addr - hostBase).toNat w.bytes

/-- Write by host address. -/
def writeHost (r : Ram) (addr : UInt64) (w : Width) (v : UInt64) : Ram :=
  { r with data := Bytes.write r.data (addr - hostBase).toNat w.bytes v }

end Ram
end Recompiler
