import Recompiler.IR.ParseError
import Recompiler.IR.Printer

/-!
Tokens of the written form. Blanks and comments separate tokens, a run of line ends is one token,
and a token carries the line that its end has reached.
-/
namespace Recompiler.IR

inductive Token where
  | eof
  | eol
  | op (c : Char)
  | ident (s : String)
  | int (v : UInt64)
  | str (s : String)
  deriving DecidableEq, Inhabited, Repr

namespace Token

/-- How an error names a token. -/
def describe : Token → String
  | eof => "end of input"
  | eol => "end of line"
  | op c => s!"'{c}'"
  | ident s => s!"'{s}'"
  | int v => Text.hex v.toNat
  | str s => s!"string '{s}'"

/-! ### Character classes -/

/-- Blanks inside a line. -/
def isBlank (c : Char) : Bool := c == ' ' || c == '\t' || c == '\r' || c == '\x0c'

/-- Characters of names and numbers. -/
def isWord (c : Char) : Bool := c.isAlphanum || c == '%' || c == '_'

/-- The character numbered by the first UTF-8 byte of `c`: errors show the byte that stopped
the reader. -/
def leadByte (c : Char) : Char :=
  let n := c.toNat
  if n < 0x80 then c
  else if n < 0x800 then Char.ofNat (0xc0 + n / 0x40)
  else if n < 0x10000 then Char.ofNat (0xe0 + n / 0x1000)
  else Char.ofNat (0xf0 + n / 0x40000)

/-! ### Skipping -/

/-- Drop blanks and a comment. -/
def skipBlank : List Char → List Char
  | [] => []
  | c :: cs =>
    if c == '#' then cs.dropWhile (· != '\n')
    else if isBlank c then skipBlank cs
    else c :: cs

theorem length_dropWhile_le {α : Type} (p : α → Bool) (cs : List α) :
    (cs.dropWhile p).length ≤ cs.length := by
  induction cs with
  | nil => simp
  | cons c cs ih =>
    rw [List.dropWhile_cons]
    split <;> simp only [List.length_cons] <;> omega

theorem length_skipBlank_le (cs : List Char) : (skipBlank cs).length ≤ cs.length := by
  induction cs with
  | nil => simp [skipBlank]
  | cons c cs ih =>
    have := length_dropWhile_le (· != '\n') cs
    rw [skipBlank]
    split
    · simp only [List.length_cons]; omega
    · split <;> simp only [List.length_cons] <;> omega

/-- Drop empty lines, counting them. -/
def skipLines (cs : List Char) (line : Nat) : List Char × Nat :=
  match h : skipBlank cs with
  | [] => ([], line)
  | c :: rest => if c == '\n' then skipLines rest (line + 1) else (c :: rest, line)
termination_by cs.length
decreasing_by
  have := length_skipBlank_le cs
  simp [h] at this
  omega

theorem length_skipLines_le (cs : List Char) (line : Nat) :
    (skipLines cs line).1.length ≤ cs.length := by
  fun_induction skipLines cs line with
  | case1 => simp
  | case2 cs line c rest h _ ih =>
    have := length_skipBlank_le cs
    simp [h] at this
    omega
  | case3 cs line c rest h =>
    have := length_skipBlank_le cs
    simp [h] at this
    simpa using this

/-! ### Literals -/

/-- The value of a digit in some base up to 16. -/
def digit? (c : Char) : Option Nat :=
  if '0' ≤ c && c ≤ '9' then some (c.toNat - '0'.toNat)
  else if 'a' ≤ c && c ≤ 'f' then some (c.toNat - 'a'.toNat + 10)
  else if 'A' ≤ c && c ≤ 'F' then some (c.toNat - 'A'.toNat + 10)
  else none

/-- The number that digits spell in a base. -/
def digits? (base : Nat) (cs : List Char) : Option Nat :=
  cs.foldlM (fun n c => do
    let d ← digit? c
    if d < base then some (n * base + d) else none) 0

/-- A 64-bit number: decimal, or hexadecimal after `0x`. -/
def number? (cs : List Char) : Option UInt64 := do
  let (base, ds) := match cs with
    | '0' :: 'x' :: ds => (16, ds)
    | '0' :: 'X' :: ds => (16, ds)
    | ds => (10, ds)
  if ds.isEmpty then none
  else
    let n ← digits? base ds
    if n < UInt64.size then some n.toUInt64 else none

/-- The body of a string after the opening quote, and what follows the closing one. -/
def stringBody (line : Nat) : List Char → Except ParseError (List Char × List Char)
  | [] => .error (.unterminatedString line)
  | [c] => if c == quote then .ok ([], []) else .error (.unterminatedString line)
  | c :: d :: cs =>
    if c == quote then .ok ([], d :: cs)
    else if c == '\n' then .error (.unterminatedString line)
    else if c == '\\' then
      if d == 'n' then (stringBody line cs).map fun (s, r) => ('\n' :: s, r)
      else if d == quote || d == '\\' then (stringBody line cs).map fun (s, r) => (d :: s, r)
      else if d == '\n' then .error (.unterminatedString line)
      else .error (.badLiteral line (String.ofList ['\\', leadByte d]))
    else (stringBody line (d :: cs)).map fun (s, r) => (c :: s, r)

/-! ### Tokens -/

/-- A token, what follows it, and the line reached. -/
abbrev Lexed := Token × List Char × Nat

/-- The word that starts with `c`. -/
def word (c : Char) (cs : List Char) (line : Nat) : Except ParseError Lexed :=
  let text := c :: cs.takeWhile isWord
  let rest := cs.dropWhile isWord
  if c.isDigit then
    match number? text with
    | some v => .ok (.int v, rest, line)
    | none => .error (.badLiteral line (String.ofList text))
  else .ok (.ident (String.ofList text), rest, line)

/-- The token that starts with `c`. -/
def start (c : Char) (cs : List Char) (line : Nat) : Except ParseError Lexed :=
  if c == '\n' then
    let (rest, line) := skipLines cs (line + 1)
    .ok (.eol, rest, line)
  else if c == ':' || c == ',' || c == '=' then .ok (.op c, cs, line)
  else if c == quote then (stringBody line cs).map fun (s, r) => (.str (String.ofList s), r, line)
  else if isWord c then word c cs line
  else .error (.unexpectedToken line "token" s!"'{leadByte c}'")

/-- The next token. -/
def next (cs : List Char) (line : Nat) : Except ParseError Lexed :=
  match skipBlank cs with
  | [] => .ok (.eof, [], line)
  | c :: cs => start c cs line

/-- A token and the line its end has reached. -/
structure Placed where
  token : Token
  line : Nat
  deriving Inhabited, Repr

/-- The tokens of a text up to its end or the first error. At most `fuel` tokens are read. -/
def stream : Nat → List Char → Nat → List (Except ParseError Placed)
  | 0, _, _ => []
  | fuel + 1, cs, line =>
    match next cs line with
    | .error e => [.error e]
    | .ok (.eof, _, line) => [.ok ⟨.eof, line⟩]
    | .ok (t, rest, line) => .ok ⟨t, line⟩ :: stream fuel rest line

/-- The tokens of a text. Every token but the last takes a character. -/
def scan (cs : List Char) : List (Except ParseError Placed) := stream (cs.length + 1) cs 1

end Token
end Recompiler.IR
