import Mathlib
import Recompiler.IR.Printer

/-!
The written form between a fragment and its text: a paragraph for each block, a line for each
instruction.
-/
namespace Recompiler.IR

/-- An argument as it is written: the payload of a constant, or the label of a result or a block. -/
inductive Operand where
  | constant (c : Constant)
  | reference (ty : Ty) (name : String)
  deriving DecidableEq, Repr

/-- An instruction as it is written. -/
structure Line where
  result : Option (Ty × String)
  op : Opcode
  args : List Operand
  deriving DecidableEq, Repr

/-- A block as it is written. -/
structure Paragraph where
  name : String
  lines : List Line
  deriving DecidableEq, Repr

/-! ### Characters -/

/-- A reference to a label. -/
def labelChars (name : String) : List Char := '%' :: name.toList

namespace Operand

def ty : Operand → Ty
  | constant c => c.ty
  | reference ty _ => ty

/-- The value without its type. -/
def payload : Operand → List Char
  | constant (.str s) => quote :: escape s.toList ++ [quote]
  | constant c => (Text.hex (c.bits?.getD 0).toNat).toList
  | reference _ name => labelChars name

def chars (o : Operand) : List Char := o.ty.name.toList ++ ' ' :: o.payload

/-- Operands separated by commas. -/
def listChars (os : List Operand) : List Char := [',', ' '].intercalate (os.map chars)

end Operand

namespace Line

/-- The result with the sign that it is assigned. -/
def resultChars : Option (Ty × String) → List Char
  | some (ty, name) => ty.name.toList ++ ' ' :: labelChars name ++ [' ', '=', ' ']
  | none => []

/-- The arguments behind the operation. -/
def argChars : List Operand → List Char
  | [] => []
  | os => ' ' :: Operand.listChars os

/-- Everything before the end of the line. -/
def chars (l : Line) : List Char :=
  resultChars l.result ++ l.op.name.toList ++ argChars l.args

end Line

/-- The heading, the lines, and an empty line. -/
def Paragraph.chars (p : Paragraph) : List Char :=
  labelChars p.name ++ [':', '\n'] ++ p.lines.flatMap (·.chars ++ ['\n']) ++ ['\n']

/-! ### Reading the written form off a fragment -/

namespace Fragment

variable (f : Fragment)

/-- How a value is written as an argument. -/
def operand (v : ValueId) : Operand :=
  match (f.value v).origin with
  | .constant (.blk b) => .reference (f.ty v) ((f.block b).label.getD "?")
  | .constant c => .constant c
  | .result i => .reference (f.ty v) ((f.instr i).label.getD "?")

/-- The type and the label of the result of an instruction. -/
def resultLabel (i : InstrId) : Option (Ty × String) :=
  (f.instr i).result.map fun v => (f.ty v, (f.instr i).label.getD "?")

/-- How an instruction is written. -/
def line (i : InstrId) : Line where
  result := f.resultLabel i
  op := (f.instr i).op
  args := (f.instr i).operands.map fun p => f.operand p.2

/-- How a block is written. -/
def paragraph (b : BlockId) : Paragraph where
  name := (f.block b).label.getD "?"
  lines := (f.blockInstrs b).map f.line

/-- The paragraphs of a fragment in program order. -/
def listing : List Paragraph := f.order.map f.paragraph

/-- A constant has the type of its payload, and a result is that of the instruction which has it. -/
structure Consistent (f : Fragment) : Prop where
  constant_ty : ∀ v c, (f.value v).origin = .constant c → f.ty v = c.ty
  result_lt : ∀ i v, (f.instr i).result = some v → v.index < f.values.size
  result_origin : ∀ i v, (f.instr i).result = some v → (f.value v).origin = .result i

/-! ### Text -/

variable {f}

theorem toList_labelText (label : Option String) :
    (labelText label).toList = labelChars (label.getD "?") := by
  simp [labelText, labelChars]

theorem toList_valueText (h : f.Consistent) (v : ValueId) :
    (f.valueText v).toList = (f.operand v).chars := by
  unfold valueText operand
  dsimp only
  split
  · next c ho =>
    have hty : (f.value v).ty = c.ty := h.constant_ty v c ho
    cases c with
    | blk b =>
      simp [ho, constantText, toList_labelText, Operand.chars, Operand.ty, Operand.payload, ty]
    | _ => simp [ho, hty, constantText, Operand.chars, Operand.ty, Operand.payload]
  · next i ho =>
    simp [ho, toList_labelText, Operand.chars, Operand.ty, Operand.payload, ty]

theorem toList_operands (h : f.Consistent) (ps : List (Slot × ValueId)) :
    (", ".intercalate (ps.map fun p => f.valueText p.2)).toList =
      Operand.listChars (ps.map fun p => f.operand p.2) := by
  rw [String.toList_intercalate, Operand.listChars, List.map_map, List.map_map]
  simp only [Function.comp_def, toList_valueText h]
  rfl

theorem listChars_ne_nil (o : Operand) (os : List Operand) : Operand.listChars (o :: os) ≠ [] := by
  cases os <;> simp [Operand.listChars, Operand.chars]

theorem toList_instrText (h : f.Consistent) (i : InstrId) :
    (f.instrText i).toList = (f.line i).chars ++ ['\n'] := by
  have hargs := toList_operands h (f.instr i).operands
  have hresult : ∀ v, (f.instr i).result = some v →
      (f.valueText v).toList = (f.ty v).name.toList ++ ' ' :: labelChars
      ((f.instr i).label.getD "?") := by
    intro v hv
    rw [toList_valueText h, operand, h.result_origin i v hv]
    rfl
  have htail :
    (if (", ".intercalate ((f.instr i).operands.map fun p => f.valueText p.2)).isEmpty then ""
      else " " ++ ", ".intercalate ((f.instr i).operands.map fun p => f.valueText p.2)).toList =
      Line.argChars (f.line i).args := by
    rw [line]
    cases ho : (f.instr i).operands with
    | nil => rfl
    | cons p ps =>
      rw [ho] at hargs
      rw [if_neg, String.toList_append, hargs]
      · rfl
      · rw [String.isEmpty_iff]
        intro he
        rw [he] at hargs
        exact listChars_ne_nil _ _ hargs.symm
  unfold instrText Line.chars
  dsimp only
  rw [String.toList_append, String.toList_append, String.toList_append, htail, line, resultLabel]
  cases hr : (f.instr i).result with
  | none => rfl
  | some v => simp [hresult v hr, Line.resultChars]

/-- The text of a fragment is its listing, written out. -/
theorem toList_text (h : f.Consistent) : f.text.toList = f.listing.flatMap Paragraph.chars := by
  have hblock : ∀ b, (f.blockText b).toList = (f.paragraph b).chars := by
    intro b
    unfold blockText Paragraph.chars paragraph
    simp only [String.toList_append, toList_labelText, String.toList_join, List.flatMap_map,
      toList_instrText h]
    rfl
  rw [text, String.toList_join, listing, List.flatMap_map, List.flatMap_map]
  simp only [hblock]

end Fragment
end Recompiler.IR
