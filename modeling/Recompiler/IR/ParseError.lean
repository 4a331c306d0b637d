import Recompiler.IR.Ty
import Recompiler.IR.Opcode

/-! Why a text is not a fragment. -/
namespace Recompiler.IR

inductive ParseError where
  | unexpectedToken (line : Nat) (expected found : String)
  | unknownType (line : Nat) (name : String)
  | unknownOp (line : Nat) (name : String)
  | badLiteral (line : Nat) (text : String)
  | tooManyArgs (line : Nat)
  | arity (line : Nat) (op : Opcode) (found : Nat)
  | operandType (line : Nat) (op : Opcode) (slot : Nat) (ty : Ty)
  | missingResult (line : Nat) (op : Opcode)
  | extraResult (line : Nat) (op : Opcode)
  | unterminatedString (line : Nat)
  | unresolvedReference (name : String)
  | typeMismatch (name : String) (expected found : Ty)
  /-- The bytes are not text. -/
  | notText
  deriving Repr, Inhabited

/-- The wording of an error. -/
def ParseError.message : ParseError → String
  | unexpectedToken line expected found => s!"line {line}: expected {expected}, found {found}"
  | unknownType line name => s!"line {line}: unknown type '{name}'"
  | unknownOp line name => s!"line {line}: unknown op '{name}'"
  | badLiteral line text => s!"line {line}: bad literal '{text}'"
  | tooManyArgs line => s!"line {line}: more than 3 arguments"
  | arity line op found =>
    s!"line {line}: '{op.name}' takes {op.info.arity} arguments, found {found}"
  | operandType line op slot ty =>
    s!"line {line}: argument {slot} of '{op.name}' cannot be {ty.name}"
  | missingResult line op => s!"line {line}: '{op.name}' requires a result"
  | extraResult line op => s!"line {line}: '{op.name}' has no result"
  | unterminatedString line => s!"line {line}: unterminated string"
  | unresolvedReference name => s!"unresolved reference %{name}"
  | typeMismatch name expected found =>
    s!"%{name} is {found.name}, used as {expected.name}"
  | notText => "read failed: stream did not contain valid UTF-8"

/-- The class of an error, in one word. -/
def ParseError.kind : ParseError → String
  | unexpectedToken .. => "UnexpectedToken"
  | unknownType .. => "UnknownType"
  | unknownOp .. => "UnknownOp"
  | badLiteral .. => "BadLiteral"
  | tooManyArgs .. => "TooManyArgs"
  | arity .. => "Arity"
  | operandType .. => "OperandType"
  | missingResult .. | extraResult .. => "ResultMismatch"
  | unterminatedString .. => "UnterminatedString"
  | unresolvedReference .. => "UnresolvedReference"
  | typeMismatch .. => "TypeMismatch"
  | notText => "Io"

end Recompiler.IR
