import Std.Data.HashSet
import Recompiler.IR.Fragment

/-!
The written form of a fragment: a line per block and instruction, references by label. Unlabelled
items are given the next free number first.
-/
namespace Recompiler.IR

/-- The character that delimits strings. -/
def quote : Char := Char.ofNat 39

/-- The body of a string constant, safe between quotes. -/
def escape (s : List Char) : List Char :=
  s.flatMap fun c =>
    if c == quote then ['\\', quote]
    else if c == '\\' then ['\\', '\\']
    else if c == '\n' then ['\\', 'n']
    else [c]

namespace Fragment

/-! ### Default labels -/

/-- The labels in use. -/
def labels (f : Fragment) : Std.HashSet String :=
  f.order.foldl (fun s b =>
    let s := s.insertMany (f.block b).label.toList
    (f.blockInstrs b).foldl (fun s i => s.insertMany (f.instr i).label.toList) s) {}

/-- The least number from `n` on whose text is not taken, looking at most `fuel` numbers ahead. -/
def freshFrom (taken : Std.HashSet String) : Nat → Nat → Nat
  | 0, n => n
  | fuel + 1, n => if taken.contains (toString n) then freshFrom taken fuel (n + 1) else n

/-- Label an instruction that has no label; returns the next number to try. -/
def labelInstr (taken : Std.HashSet String) (s : Fragment × Nat) (i : InstrId) : Fragment × Nat :=
  match (s.1.instr i).label with
  | some _ => s
  | none =>
    let n := freshFrom taken taken.size s.2
    (s.1.setInstrLabel i (toString n), n + 1)

/-- Label a block and its instructions where they have no label. -/
def labelBlock (taken : Std.HashSet String) (s : Fragment × Nat) (b : BlockId) : Fragment × Nat :=
  let s := match (s.1.block b).label with
    | some _ => s
    | none =>
      let n := freshFrom taken taken.size s.2
      (s.1.setBlockLabel b (toString n), n + 1)
  (s.1.blockInstrs b).foldl (labelInstr taken) s

/-- Give every block and instruction a label, numbers in program order for those without. -/
def assignLabels (f : Fragment) : Fragment :=
  (f.order.foldl (labelBlock f.labels) (f, 0)).1

/-! ### Text -/

/-- A reference to a label. -/
def labelText (label : Option String) : String := "%" ++ label.getD "?"

/-- A constant without its type. -/
def constantText (f : Fragment) : Constant → String
  | .str s => String.ofList (quote :: escape s.toList ++ [quote])
  | .blk b => labelText (f.block b).label
  | c => Text.hex (c.bits?.getD 0).toNat

/-- A value with its type. -/
def valueText (f : Fragment) (v : ValueId) : String :=
  let val := f.value v
  val.ty.name ++ " " ++
    match val.origin with
    | .constant c => f.constantText c
    | .result i => labelText (f.instr i).label

/-- One instruction. -/
def instrText (f : Fragment) (i : InstrId) : String :=
  let ins := f.instr i
  let result := match ins.result with
    | some v => f.valueText v ++ " = "
    | none => ""
  let args := ", ".intercalate (ins.operands.map fun (_, v) => f.valueText v)
  result ++ ins.op.name ++ (if args.isEmpty then "" else " " ++ args) ++ "\n"

/-- One block, closed by an empty line. -/
def blockText (f : Fragment) (b : BlockId) : String :=
  labelText (f.block b).label ++ ":\n" ++ String.join ((f.blockInstrs b).map f.instrText) ++ "\n"

/-- The written form of a fragment whose labels are assigned. -/
def text (f : Fragment) : String := String.join (f.order.map f.blockText)

/-- Assign labels and write. -/
def render (f : Fragment) : Fragment × String :=
  let f := f.assignLabels
  (f, f.text)

/-- A value in short: payload of a constant, label or number of a result. -/
def describe (f : Fragment) (v : ValueId) : String :=
  let val := f.value v
  match val.origin with
  | .constant (.str s) => s!"{val.ty.name} '{s}'"
  | .constant (.blk b) => s!"blk #{b.index}"
  | .constant c => s!"{val.ty.name} {Text.hex (c.bits?.getD 0).toNat}"
  | .result i =>
    match (f.instr i).label with
    | some label => s!"{val.ty.name} %{label}"
    | none => s!"{val.ty.name} v{v.index}"

end Fragment
end Recompiler.IR
