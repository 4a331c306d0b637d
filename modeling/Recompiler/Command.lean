import Recompiler.IR.Parser
import Recompiler.IR.Printer
import Recompiler.Pass.Pipeline
import Recompiler.X64.Register

/-!
The command line tool: read a fragment in text form, run passes over it and print the result. What
the tool is going to do is a value, so that only its execution needs the outside world.
-/
namespace Recompiler.Command

open IR Pass

/-- Why there is nothing to print. -/
inductive Error where
  | unknownPass (name : String)
  | parse (e : ParseError)
  deriving Repr

def Error.message : Error → String
  | unknownPass name =>
    let known := ", ".intercalate (Name.all.map Name.text)
    s!"unknown pass '{name}' (expected one of {known})"
  | parse e => e.message

/-- The pass a word stands for. -/
def passOf (word : String) : Except Error Name :=
  match Name.ofText? word with
  | some p => .ok p
  | none => .error (.unknownPass word)

/-- Run passes over a text, for the registers of the x86-64 backend. -/
def process (src : String) (passes : List Name) (p : Pipeline) :
    Except Fault (Except Error (String × Pipeline)) := do
  match Parser.parse src with
  | .error (.refused e, _) => return .error (.parse e)
  | .error (.faulted e, _) => throw e
  | .ok f =>
    let (f, p) ← p.runAll X64.registers f passes
    return .ok (f.render.2, p)

/-! ### Arguments -/

structure Options where
  input : String
  passes : List Name
  stats : Bool
  output : Option String
  deriving DecidableEq, Repr

/-- What the arguments ask for. -/
inductive Request where
  | run (o : Options)
  | help
  | version
  /-- The arguments make no sense. -/
  | misuse
  deriving DecidableEq, Repr

/-- The arguments read so far. -/
structure Draft where
  input : Option String := none
  passes : List Name := []
  stats : Bool := false
  output : Option String := none

namespace Draft

/-- Add an operand; there is room for one, and it is not empty. -/
def operand? (d : Draft) (path : String) : Option Draft :=
  if d.input.isSome || path.isEmpty then none else some { d with input := some path }

def pass? (d : Draft) (word : String) : Option Draft :=
  (Name.ofText? word).map fun p => { d with passes := d.passes ++ [p] }

def output? (d : Draft) (path : String) : Option Draft :=
  if d.output.isSome || path.isEmpty then none else some { d with output := some path }

def stats? (d : Draft) : Option Draft := if d.stats then none else some { d with stats := true }

def finish (d : Draft) : Request :=
  match d.input with
  | some input => .run { input, passes := d.passes, stats := d.stats, output := d.output }
  | none => .misuse

end Draft

/-- Whether a word is an option rather than a value. -/
def isOption (word : String) : Bool := word.startsWith "-" && word != "-"

/-- Split a word at its first `=`. -/
def splitValue (word : List Char) : String × Option String :=
  match word.dropWhile (· ≠ '=') with
  | [] => (String.ofList word, none)
  | _ :: value => (String.ofList (word.takeWhile (· ≠ '=')), some (String.ofList value))

/-- What one word means, without regard to the words after it. -/
inductive Word where
  | operand (path : String)
  /-- All words after this one are operands. -/
  | operandsOnly
  | flag (name : String)
  /-- An option that takes a value, with the value if it is part of the word. -/
  | valued (name : String) (value : Option String)
  | unknown

namespace Word

def ofLong (word : List Char) : Word :=
  match splitValue word with
  | ("pass", v) => valued "pass" v
  | ("output", v) => valued "output" v
  | (name, none) => if name ∈ ["stats", "help", "version"] then flag name else unknown
  | _ => unknown

def ofShort : List Char → Word
  | 'o' :: [] => valued "output" none
  | 'o' :: '=' :: value => valued "output" (some (String.ofList value))
  | 'o' :: value => valued "output" (some (String.ofList value))
  | 'h' :: _ => flag "help"
  | 'V' :: _ => flag "version"
  | _ => unknown

def ofString (s : String) : Word :=
  match s.toList with
  | ['-', '-'] => operandsOnly
  | '-' :: '-' :: rest => ofLong rest
  | ['-'] => operand s
  | '-' :: rest => ofShort rest
  | _ => operand s

end Word

/-- Give an option its value. -/
def Draft.value? (d : Draft) (name value : String) : Option Draft :=
  if name = "pass" then d.pass? value else d.output? value

/-- Read the arguments from left to right; the first nonsense decides. -/
def requestFrom (d : Draft) : List String → Request
  | [] => d.finish
  | word :: rest =>
    match Word.ofString word with
    | .unknown => .misuse
    | .operandsOnly =>
      match rest.foldlM Draft.operand? d with
      | some d => d.finish
      | none => .misuse
    | .operand path =>
      match d.operand? path with
      | some d => requestFrom d rest
      | none => .misuse
    | .flag "help" => .help
    | .flag "version" => .version
    | .flag _ =>
      match d.stats? with
      | some d => requestFrom d rest
      | none => .misuse
    | .valued name (some value) =>
      match d.value? name value with
      | some d => requestFrom d rest
      | none => .misuse
    | .valued name none =>
      match rest with
      | [] => .misuse
      | value :: rest =>
        if isOption value then .misuse
        else
          match d.value? name value with
          | some d => requestFrom d rest
          | none => .misuse

/-- What the arguments ask for. -/
def request (args : List String) : Request := requestFrom {} args

/-! ### Execution -/

/-- What remains to be done once the input is read. -/
inductive Plan where
  /-- Report a failure. -/
  | fail (report : String)
  /-- Print or store the result, then print the counters. -/
  | deliver (output : Option String) (text : String) (counters : Option String)
  deriving DecidableEq, Repr

/-- The report about a file. -/
def complaint (path reason : String) : String := path ++ ": " ++ reason ++ "\n"

/-- Process the text of the input. Allocations are checked. -/
def plan (o : Options) (src : String) : Except Fault Plan := do
  match ← process src o.passes { validate := true } with
  | .error e => return .fail (complaint o.input e.message)
  | .ok (text, p) => return .deliver o.output text (if o.stats then some p.stats.table else none)

/-! Exit codes. -/

def failure : UInt8 := 1
def misuse : UInt8 := 2
def crash : UInt8 := 101

def name : String := "jit-irdump"
def versionText : String := name ++ " 0.1.0\n"

def usageText : String :=
  "Run JIT optimization passes over a textual IR file\n\n" ++
  "Usage: " ++ name ++ " [OPTIONS] <INPUT>\n\n" ++
  "Arguments:\n" ++
  "  <INPUT>  Textual IR input\n\n" ++
  "Options:\n" ++
  "      --pass <PASSES>    Pass to run: lse, cprop, esimp, dce or ra. " ++
  "Repeat to chain; passes run in the order given\n" ++
  "      --stats            Print pass statistics to stderr\n" ++
  "  -o, --output <OUTPUT>  Write the result here instead of stdout\n" ++
  "  -h, --help             Print help\n" ++
  "  -V, --version          Print version\n"

end Recompiler.Command
