import RoutePolicy.Command.Help
import RoutePolicy.Command.Preparation
import RoutePolicy.Topology.Draft

/-!
The command that has configurations analysed: it uploads the files of a directory and writes the
tables that the analysis service answers with, once they make a well-typed topology.
-/

set_option autoImplicit false

namespace RoutePolicy.Command.Build

open Service

def clientSettings (s : Settings) : ClientSettings where
  url := s.url
  timeout := .ofNat s.timeout
  retries := s.retries
  headers := []

def isHidden (component : String) : Bool := component.toList.head? = some '.'

/-- The files to upload, in the order of their directories; hidden ones stay. -/
def chosen (files : List (List String)) : List (List String) :=
  (files.filter fun components => !components.any isHidden).mergeSort FileName.componentsLe

/-- A backslash in a name is taken for a slash. -/
def uploadName (components : List String) : String :=
  String.ofList (("/".intercalate components).toList.map fun c => if c = '\\' then '/' else c)

variable {m : Type → Type} [Monad m]

def readFiles (h : Host m) (directory : String) :
    List (List String) → Run m (List SnapshotFile)
  | [] => pure []
  | components :: rest => do
    let name := "/".intercalate components
    let content ← Run.ofFile (h.read (directory ++ "/" ++ name))
    let others ← readFiles h directory rest
    pure (⟨uploadName components, content⟩ :: others)

/-- The configuration files of a directory. -/
def collectFiles (h : Host m) (directory : String) : Run m (List SnapshotFile) := do
  match ← Run.ofFile (h.inspect directory) with
  | .file => throw (.noDirectory directory)
  | .directory => do
    let files ← Run.ofFile (h.filesBelow directory)
    readFiles h directory (chosen files)

def collectedEntry (directory : String) (files : List SnapshotFile) : LogEntry :=
  .info "Collected configuration files" [("dir", .str directory), ("files", .nat files.length)]

def writtenEntry (output : String) (tables : Table (List Json)) : LogEntry :=
  .info "Wrote raw service data"
    (("output", .str output) :: tables.map fun (name, rows) => (name, .nat rows.length))

/-- Uploads files and collects the answer tables. -/
def analyse (t : Transport m) (s : ClientSettings) (name : String) (files : List SnapshotFile) :
    Run m (Table (List Json)) := do
  Run.ofService (Client.healthCheck t s)
  let snapshot ← Run.ofService (Client.upload t s name files)
  Run.ofService (Client.collect t s snapshot)

/-- Refuses tables that make no well-typed topology. -/
def checkTables (h : Host m) (level : LogLevel) (tables : Table (List Json)) : Run m Unit := do
  let (topology, log) := Topology.ofTables true (Client.tablesJson tables)
  h.tellAll level log
  let topology ← Run.ofOutcome topology
  Run.ofOutcome topology.checkTypes

def run (h : Host m) (p : Prepared) : Run m Unit := do
  let subject ← p.subject buildUsage
  let client := clientSettings p.settings
  h.tell p.level (Client.initializedEntry client)
  let directory ← h.resolve subject
  let files ← collectFiles h directory
  h.tell p.level (collectedEntry directory files)
  let name := FileName.base directory
  let tables ← analyse (h.transport p.level) client name files
  checkTables h p.level tables
  let output ← (p.outputPath h (name ++ ".json") : m String)
  h.writeJson output (Client.tablesJson tables)
  h.tell p.level (writtenEntry output tables)

end RoutePolicy.Command.Build
