import RoutePolicy.Command.Host
import RoutePolicy.Settings

/-!
What a command does before its own work: it finds its settings and how much to log.
-/

set_option autoImplicit false

namespace RoutePolicy.Command

/-- What every command of a run shares. -/
structure Prepared where
  arguments : Arguments
  settings : Settings
  level : LogLevel

/-- The settings files that are looked for, the first one that is there being used. -/
def settingsFiles : List String := ["route-condenser.yaml", "route-condenser.yml"]

/-- A word on the command line wins over the settings, and the louder word over the quieter. -/
def logLevel (a : Arguments) (s : Settings) : LogLevel :=
  if a.hasFlag "verbose" then .debug
  else if a.hasFlag "quiet" then .error
  else s.logLevel

/-- The value of an option that is not empty. -/
def Arguments.given? (a : Arguments) (name : String) : Option String :=
  (a.option? name).filter (!·.isEmpty)

/-- The document of a settings file or a query file, which may be empty. -/
def document? (text : String) : Option Json :=
  if (Text.trim text.toList).isEmpty then some .null else Json.read? text

variable {m : Type → Type} [Monad m]

def findSettings (h : Host m) (directory : String) : List String → m (Option String)
  | [] => pure none
  | name :: rest => do
    let path := FileName.resolve directory name
    if ← h.isThere path then pure (some path) else findSettings h directory rest

/-- The settings file to read: the one that is named, which must be there, or one that is found. -/
def settingsPath (h : Host m) (a : Arguments) : Run m (Option String) := do
  match a.given? "config" with
  | none => do
    let directory ← h.directory
    (findSettings h directory settingsFiles : m (Option String))
  | some name => do
    let path ← h.resolve name
    if ← h.isThere path then pure (some path)
    else throw (.failure (.ofCause (.config (.notFound path))))

def readSettings (h : Host m) (path : String) : Run m Settings := do
  match ← h.read path with
  | .error fault => throw (.failure (.ofCause (.config (.unreadable path fault.text))))
  | .ok text =>
    match document? text with
    | none => throw (.failure (.ofCause (.config (.unreadable path "not a JSON document"))))
    | some j => Run.ofOutcome (Settings.ofJson path (some j))

def readVariables (h : Host m) : m Settings.Variables := do
  let url ← h.lookupVariable Settings.Variables.urlName
  let timeout ← h.lookupVariable Settings.Variables.timeoutName
  let logLevel ← h.lookupVariable Settings.Variables.logLevelName
  pure { url, timeout, logLevel }

/-- The settings of a file, if there is one, changed by the environment. -/
def loadSettings (h : Host m) (a : Arguments) : Run m Settings := do
  let settings ← match ← settingsPath h a with
    | none => pure Settings.default
    | some path => readSettings h path
  let environment ← (readVariables h : m Settings.Variables)
  Run.ofOutcome (settings.override environment)

def prepare (h : Host m) (a : Arguments) : Run m Prepared := do
  let settings ← loadSettings h a
  pure ⟨a, settings, logLevel a settings⟩

/-- The first word after the command. -/
def Prepared.subject (p : Prepared) (usage : String) : Run m String :=
  match p.arguments.positionals with
  | word :: _ => pure word
  | [] => throw (.usage (.usage usage))

/-- Where output goes: to the named file, or to a file of the given name. -/
def Prepared.outputPath (p : Prepared) (h : Host m) (otherwise : String) : m String :=
  match p.arguments.given? "output" with
  | some name => h.resolve name
  | none => h.resolve otherwise

end RoutePolicy.Command
