import RoutePolicy.Command.Arguments
import RoutePolicy.Json.Reader
import RoutePolicy.Service.Client
import RoutePolicy.Text.FileName

/-!
What a command needs from its surroundings: files, variables, a place to print, and a transport; and
what ends a command early.
-/

set_option autoImplicit false

namespace RoutePolicy.Command

inductive FileAction where
  | opening
  | inspecting
deriving DecidableEq

def FileAction.name : FileAction → String
  | opening => "open"
  | inspecting => "stat"

/-- A file that cannot be used. -/
inductive FileFault where
  | missing (action : FileAction) (path : String)
  /-- A component before the last one is no directory. -/
  | throughFile (action : FileAction) (path : String)
  | writingDirectory (path : String)
  | readingDirectory
  | other (reason : String)
deriving DecidableEq

def FileFault.text : FileFault → String
  | missing action path => "ENOENT: no such file or directory, " ++ action.name ++ s!" '{path}'"
  | throughFile action path => "ENOTDIR: not a directory, " ++ action.name ++ s!" '{path}'"
  | writingDirectory path => s!"EISDIR: illegal operation on a directory, open '{path}'"
  | readingDirectory => "EISDIR: illegal operation on a directory, read"
  | other reason => reason

inductive FileKind where
  | file
  | directory
deriving DecidableEq

/-- The surroundings of a command. Files go by absolute names. -/
structure Host (m : Type → Type) where
  /-- The directory that relative names start from. -/
  directory : m String
  lookupVariable : String → m (Option String)
  inspect : String → m (Except FileFault FileKind)
  read : String → m (Except FileFault String)
  write : String → String → m (Except FileFault Unit)
  /-- The components of all files below a directory, as seen from it. -/
  filesBelow : String → m (Except FileFault (List (List String)))
  print : String → m Unit
  complain : String → m Unit
  send : Service.Request → m Service.Reply
  pause : Number → m Unit
  jitter : m Number

/-- What ends a command early. -/
inductive Trouble where
  | usage (fault : UsageFault)
  | failure (failure : Failure)
  | file (fault : FileFault)
  | noDirectory (path : String)
  | notJson (path : String)

def helpHint : String := "Run \"route-condenser help\" for usage information."

namespace Trouble

/-- What is said about it. -/
def lines : Trouble → List String
  | usage fault => [fault.text, helpHint]
  | failure f => [f.describe]
  | file fault => ["error " ++ fault.text]
  | noDirectory path => [s!"error Not a directory: {path}"]
  | notJson path => [s!"error Not a JSON document: {path}"]

/-- A command line that makes no sense exits with two, any other trouble with one. -/
def exitCode : Trouble → Nat
  | usage _ => 2
  | _ => 1

end Trouble

/-- A command under way. -/
abbrev Run (m : Type → Type) := ExceptT Trouble m

namespace Run

variable {m : Type → Type} [Monad m] {α : Type}

def ofOutcome (r : Outcome α) : Run m α := ExceptT.mk (pure (r.mapError .failure))

def ofFile (act : m (Except FileFault α)) : Run m α :=
  ExceptT.mk (do
    let r ← act
    pure (r.mapError .file))

/-- An exchange with the analysis service. -/
def ofService (act : m (Outcome α)) : Run m α :=
  ExceptT.mk (do
    let r ← act
    pure (r.mapError .failure))

end Run

namespace Host

variable {m : Type → Type} [Monad m]

/-- Writes the line of a log entry, if the level tells it. -/
def tell (h : Host m) (level : LogLevel) (entry : LogEntry) : m Unit :=
  match entry.line? level with
  | some line => h.complain line
  | none => pure ()

def tellAll (h : Host m) (level : LogLevel) (entries : List LogEntry) : m Unit :=
  entries.forM (h.tell level)

/-- The transport of the host, with its log at a level. -/
def transport (h : Host m) (level : LogLevel) : Service.Transport m where
  pause := h.pause
  jitter := h.jitter
  tell := h.tell level
  send := h.send

/-- A name as seen from the directory of the host. -/
def resolve (h : Host m) (name : String) : m String := do
  let directory ← h.directory
  pure (FileName.resolve directory name)

def isThere (h : Host m) (path : String) : m Bool := do
  match ← h.inspect path with
  | .ok _ => pure true
  | .error _ => pure false

def readJson (h : Host m) (path : String) : Run m Json := do
  let text ← Run.ofFile (h.read path)
  match Json.read? text with
  | some j => pure j
  | none => throw (.notJson path)

/-- Writes a document with indentation and a line end. -/
def writeJson (h : Host m) (path : String) (j : Json) : Run m Unit :=
  Run.ofFile (h.write path (j.pretty ++ "\n"))

end Host

end RoutePolicy.Command
