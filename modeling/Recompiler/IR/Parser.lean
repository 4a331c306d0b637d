import Std.Data.HashMap
import Recompiler.IR.Token
import Recompiler.IR.Signature

/-!
Reading the written form. References may precede what they name, so they are resolved once the
whole text has been read. A failed read keeps the part that was built.
-/
namespace Recompiler.IR.Parser

/-- An argument that names a label. -/
structure Reference where
  instr : InstrId
  slot : Slot
  ty : Ty
  name : String

/-- The fragment so far, one token of lookahead, the tokens after it and the open references. -/
structure State where
  fragment : Fragment := .empty
  current : Token.Placed
  rest : List (Except ParseError Token.Placed)
  /-- Latest first. -/
  references : List Reference := []

/-- Why the reader stops before the end of the text. -/
inductive Stop where
  | refused (e : ParseError)
  | faulted (e : Fault)
  deriving Repr

/-- A reader step. The state survives a stop. -/
abbrev Parse := ExceptT Stop (StateM State)

/-- The text is not a fragment. -/
def refuse {α : Type} (e : ParseError) : Parse α := throw (.refused e)

/-- The token under the reader. -/
def peek : Parse Token := return (← get).current.token

/-- The line the lookahead has reached. -/
def line : Parse Nat := return (← get).current.line

/-- Move to the next token; returns the token passed. The end repeats. -/
def advance : Parse Token := do
  let s ← get
  match s.rest with
  | [] => return s.current.token
  | .error e :: _ => refuse e
  | .ok t :: rest =>
    set { s with current := t, rest }
    return s.current.token

def unexpected {α : Type} (expected : String) : Parse α := do
  refuse (.unexpectedToken (← line) expected (← peek).describe)

def expectOp (c : Char) : Parse Unit := do
  if (← peek) == .op c then
    let _ ← advance
  else unexpected s!"'{c}'"

def ident (expected : String) : Parse String := do
  match ← peek with
  | .ident s =>
    let _ ← advance
    return s
  | _ => unexpected expected

/-- The name in `%name`. -/
def labelName? (s : String) : Option String :=
  match s.toList with
  | '%' :: c :: cs => some (String.ofList (c :: cs))
  | _ => none

def label : Parse String := do
  match ← peek with
  | .ident s =>
    match labelName? s with
    | some name =>
      let _ ← advance
      return name
    | none => unexpected "%label"
  | _ => unexpected "%label"

def ty : Parse Ty := do
  let here ← line
  let name ← ident "type"
  match Ty.ofName? name with
  | some t => return t
  | none => refuse (.unknownType here name)

/-- Change the fragment. -/
def update (g : Fragment → Fragment) : Parse Unit :=
  modify fun s => { s with fragment := g s.fragment }

/-- Change the fragment, if nothing goes wrong. -/
def attempt (g : Fragment → Except Fault Fragment) : Parse Unit := do
  match g (← get).fragment with
  | .ok f => update fun _ => f
  | .error e => throw (.faulted e)

/-- Run an operation of the fragment. -/
def extend {α : Type} (g : Fragment → Fragment × α) : Parse α :=
  modifyGet fun s =>
    let (f, a) := g s.fragment
    (a, { s with fragment := f })

def block : Parse Unit := do
  let name ← label
  expectOp ':'
  let b ← extend (·.appendBlock)
  update fun f => (f.setBlockLabel b name).atEndOf b

/-- The value in position `slot`: a reference, a number or a string. -/
def value (i : InstrId) (slot : Slot) (ty : Ty) : Parse Unit := do
  let here ← line
  match ← advance with
  | .ident s =>
    match labelName? s with
    | some name => modify fun st => { st with references := ⟨i, slot, ty, name⟩ :: st.references }
    | none => refuse (.unexpectedToken here "value" (Token.ident s).describe)
  | .int bits =>
    match Constant.ofBits? ty bits with
    | some c =>
      let v ← extend (·.addConstant c)
      update (·.setArg i slot v)
    | none => refuse (.badLiteral here s!"{ty.name} {Text.hex bits.toNat}")
  | .str s =>
    if ty == .str then
      let v ← extend (·.addConstant (.str s))
      update (·.setArg i slot v)
    else refuse (.badLiteral here s!"{ty.name} '{s}'")
  | other => refuse (.unexpectedToken here "value" other.describe)

/-- The arguments from position `slot` to the end of the line. -/
def arguments (start : Nat) (i : InstrId) : List Slot → Parse (List Ty)
  | [] => do
    match ← peek with
    | .eol | .eof => return []
    | _ => refuse (.tooManyArgs start)
  | slot :: slots => do
    match ← peek with
    | .eol | .eof => return []
    | _ =>
      if slot ≠ 0 then expectOp ','
      let t ← ty
      value i slot t
      return t :: (← arguments start i slots)

/-- Recreate the slot that a local access with a constant offset names. -/
def reserveLocal (i : InstrId) (op : Opcode) (result : Option Ty) (args : List Ty) (f : Fragment) :
    Except Fault Fragment :=
  let slotTy := match op with
    | .loadLocal => result
    | .storeLocal => args[1]?
    | _ => none
  match slotTy, (f.instr i).arg 0 with
  | some ty, some v =>
    match (f.value v).constant? with
    | some (.i32 bits) => (f.reserveLocal ty bits.toInt32.toInt).map (·.1)
    | _ => .ok f
  | _, _ => .ok f

def instr : Parse Unit := do
  let start ← line
  let first ← ident "type or op"
  let (result, word) ← match Ty.ofName? first with
    | some t => do
      let name ← label
      expectOp '='
      pure (some (t, name), ← ident "op")
    | none => pure (none, first)
  match Opcode.ofName? word with
  | none => refuse (.unknownOp start word)
  | some op =>
    let resultTy := result.map (·.1)
    let i ← extend (·.appendInstr op resultTy)
    if let some (_, name) := result then update (·.setInstrLabel i name)
    let args ← arguments start i (List.finRange 3)
    match Signature.check start op resultTy args with
    | .error e => refuse e
    | .ok () => attempt (reserveLocal i op resultTy args)

/-- Blocks and instructions up to the end of the text. -/
def items : Nat → Parse Unit
  | 0 => return ()
  | fuel + 1 => do
    match ← peek with
    | .eof => return ()
    | .eol =>
      let _ ← advance
      items fuel
    | .ident s => do
      if s.startsWith "%" then block else instr
      items fuel
    | _ =>
      instr
      items fuel

/-- The blocks by label; the last of several wins. -/
def blockNames (f : Fragment) : Std.HashMap String BlockId :=
  f.order.foldl (fun m b =>
    match (f.block b).label with
    | some l => m.insert l b
    | none => m) {}

/-- The results by label; the last of several wins. -/
def resultNames (f : Fragment) : Std.HashMap String ValueId :=
  f.allInstrs.foldl (fun m i =>
    match (f.instr i).label, (f.instr i).result with
    | some l, some v => m.insert l v
    | _, _ => m) {}

/-- Fill the position of one reference. -/
def resolve (blocks : Std.HashMap String BlockId) (results : Std.HashMap String ValueId)
    (r : Reference) : Parse Unit := do
  if r.ty == .blk then
    match blocks[r.name]? with
    | none => refuse (.unresolvedReference r.name)
    | some b =>
      update fun f =>
        let ins := f.instr r.instr
        if ins.op.isBranch then f.addEdge ins.block b else f
      let v ← extend (·.addConstant (.blk b))
      update (·.setArg r.instr r.slot v)
  else
    match results[r.name]? with
    | none => refuse (.unresolvedReference r.name)
    | some v =>
      let found := (← get).fragment.ty v
      if found ≠ r.ty then refuse (.typeMismatch r.name r.ty found)
      update (·.setArg r.instr r.slot v)

def program (fuel : Nat) : Parse Unit := do
  items fuel
  let s ← get
  let blocks := blockNames s.fragment
  let results := resultNames s.fragment
  s.references.reverse.forM (resolve blocks results)

/-- Read a text. Where reading stops, the part built so far comes with the reason. -/
def parse (src : String) : Except (Stop × Fragment) Fragment :=
  let tokens := Token.scan src.toList
  match tokens with
  | [] => .ok .empty
  | .error e :: _ => .error (.refused e, .empty)
  | .ok t :: rest =>
    match (program (tokens.length + 1)).run { current := t, rest } with
    | (.ok (), s) => .ok s.fragment
    | (.error e, s) => .error (e, s.fragment)

/-- Read bytes, which must be UTF-8 text. -/
def parseBytes (bytes : ByteArray) : Except (Stop × Fragment) Fragment :=
  match String.fromUTF8? bytes with
  | some src => parse src
  | none => .error (.refused .notText, .empty)

end Recompiler.IR.Parser
