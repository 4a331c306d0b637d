import Recompiler.Command

/-! The command line tool at work. -/
namespace Recompiler.Command

/-- Try an action and report its failure about `subject`. -/
def attempt (subject : String) (action : IO Unit) : IO UInt8 := do
  match ← action.toBaseIO with
  | .ok () => return 0
  | .error e => do
    IO.eprint (complaint subject e.toString)
    return failure

/-- Hand the result over, then the counters. -/
def deliver (output : Option String) (text : String) (counters : Option String) : IO UInt8 := do
  let code ← attempt "write failed" do
    match output with
    | some path => IO.FS.writeFile path text
    | none => IO.print text
  if code = 0 then
    if let some table := counters then IO.eprint table
  return code

/-- Read the input, process it and carry the plan out. -/
def execute (o : Options) : IO UInt8 := do
  match ← (IO.FS.readFile o.input).toBaseIO with
  | .error e => do
    IO.eprint (complaint o.input e.toString)
    return failure
  | .ok src =>
    match plan o src with
    | .error fault => do
      IO.eprintln fault.message
      return crash
    | .ok (.fail report) => do
      IO.eprint report
      return failure
    | .ok (.deliver output text counters) => deliver output text counters

/-- Do what the arguments ask for and return the exit code. -/
def run (args : List String) : IO UInt8 := do
  match request args with
  | .misuse => do
    IO.eprint usageText
    return misuse
  | .help => do
    IO.print usageText
    return 0
  | .version => do
    IO.print versionText
    return 0
  | .run o => execute o

end Recompiler.Command

def main (args : List String) : IO UInt32 := do
  return (← Recompiler.Command.run args).toUInt32
