/-!
Files that the recompiler writes, by path. Each write may fail, as the system wants it, and a write
that fails may leave part of the file behind.
-/
namespace Recompiler.Jit

/-- What becomes of a write. -/
inductive Answer where
  | done
  /-- The directory cannot be made. -/
  | noDirectory
  /-- The file cannot be opened. -/
  | refused
  /-- Writing stops early and leaves a file with this in it. -/
  | broken (left : String)
  deriving DecidableEq, Inhabited, Repr

structure Files where
  /-- Paths and contents, the newest first. -/
  entries : List (String × String) := []
  /-- What becomes of the writes to come, one after another. -/
  answers : Nat → Answer := fun _ => .done
  deriving Inhabited

namespace Files

def read? (f : Files) (path : String) : Option String := f.entries.lookup path

/-- The file at a path gets new contents. -/
def put (f : Files) (path content : String) : Files :=
  { f with entries := (path, content) :: f.entries.filter fun e => e.1 ≠ path }

/-- Write a file and make its directory. If that fails, the answer is the path that is to blame. -/
def write (f : Files) (dir name content : String) : Files × Except String Unit :=
  let path := dir ++ "/" ++ name
  let rest := { f with answers := fun n => f.answers (n + 1) }
  match f.answers 0 with
  | .done => (rest.put path content, .ok ())
  | .noDirectory => (rest, .error dir)
  | .refused => (rest, .error path)
  | .broken left => (rest.put path left, .error path)

end Files
end Recompiler.Jit
