import RoutePolicy.Command.Dispatch

/-!
The program: the command line on the files and variables of the machine. The machine gives no access
to a network, so a request to the analysis service fails, and it lists no directories.
-/

set_option autoImplicit false

namespace RoutePolicy.Machine

open Command

def fault (action : FileAction) (path : String) : IO.Error → FileFault
  | .noFileOrDirectory .. => .missing action path
  | .inappropriateType .. => .readingDirectory
  | e => .other (toString e)

def attempt {α : Type} (action : FileAction) (path : String) (act : IO α) :
    IO (Except FileFault α) := do
  try
    let result ← act
    pure (.ok result)
  catch e => pure (.error (fault action path e))

/-- A directory can be opened, but not read. -/
def inspect (path : String) : IO (Except FileFault FileKind) := do
  match ← attempt .inspecting path (IO.FS.readFile path) with
  | .ok _ => pure (.ok .file)
  | .error .readingDirectory => pure (.ok .directory)
  | .error found => pure (.error found)

/-- The number of whole milliseconds to sleep. -/
def milliseconds (delay : Number) : UInt32 := (delay.nearest.toNat?.getD 0).toUInt32

def randomSteps : Nat := 1000000

def host : Host IO where
  directory := do
    let directory ← IO.currentDir
    pure directory.toString
  lookupVariable := fun name => IO.getEnv name
  inspect := inspect
  read := fun path => attempt .opening path (IO.FS.readFile path)
  write := fun path text => attempt .opening path (IO.FS.writeFile path text)
  filesBelow := fun path => pure (.error (.other s!"Cannot list the directory {path}"))
  print := fun line => IO.println line
  complain := fun line => IO.eprintln line
  send := fun _ => pure (.failed "Error" "no network")
  pause := fun delay => IO.sleep (milliseconds delay)
  jitter := do
    let step ← IO.rand 0 randomSteps
    pure (.finite (mkRat step randomSteps))

end RoutePolicy.Machine

/-- Runs the command line. -/
def main (words : List String) : IO UInt32 := do
  let code ← RoutePolicy.Command.run RoutePolicy.Machine.host words
  pure code.toUInt32
