/-! Numbers and columns as text. -/
namespace Recompiler.Text

/-- Lowercase hexadecimal digits without leading zeros. -/
def hexDigits (n : Nat) : String := String.ofList (Nat.toDigits 16 n)

/-- Hexadecimal with the mark `0x`. -/
def hex (n : Nat) : String := "0x" ++ hexDigits n

/-- Fill on the left up to `width` characters. -/
def padLeft (fill : Char) (width : Nat) (s : String) : String :=
  String.ofList (List.replicate (width - s.length) fill) ++ s

/-- Fill with blanks on the right up to `width` characters. -/
def padRight (width : Nat) (s : String) : String :=
  s ++ String.ofList (List.replicate (width - s.length) ' ')

/-- At least `width` hexadecimal digits, filled with zeros. -/
def hexFixed (width n : Nat) : String := padLeft '0' width (hexDigits n)

/-- Two hexadecimal digits for each byte. -/
def hexBytes (bs : List UInt8) : String := String.join (bs.map fun b => hexFixed 2 b.toNat)

/-- A 32-bit address as `0x` and eight digits. -/
def address (a : UInt32) : String := "0x" ++ hexFixed 8 a.toNat

/-- Equality of names up to the case of ASCII letters. -/
def sameName (a b : String) : Bool := a.map Char.toLower == b.map Char.toLower

end Recompiler.Text
