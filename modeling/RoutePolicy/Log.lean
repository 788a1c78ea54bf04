import RoutePolicy.Json.Text

/-!
Log entries and the lines they make.
-/

set_option autoImplicit false

namespace RoutePolicy

/-- How much a log tells; `silent` tells nothing. -/
inductive LogLevel where
  | debug
  | info
  | warn
  | error
  | silent
deriving DecidableEq

namespace LogLevel

def name : LogLevel → String
  | debug => "debug"
  | info => "info"
  | warn => "warn"
  | error => "error"
  | silent => "silent"

def all : List LogLevel := [debug, info, warn, error, silent]

def ofName? (word : String) : Option LogLevel := all.find? (·.name = word)

def severity : LogLevel → Nat
  | debug => 10
  | info => 20
  | warn => 30
  | error => 40
  | silent => 100

end LogLevel

/-- Something worth telling. -/
structure LogEntry where
  level : LogLevel
  message : String
  context : List (String × Json)
  reason : Option String

namespace LogEntry

def debug (message : String) (context : List (String × Json)) : LogEntry :=
  ⟨.debug, message, context, none⟩

def info (message : String) (context : List (String × Json)) : LogEntry :=
  ⟨.info, message, context, none⟩

def warn (message : String) (context : List (String × Json)) : LogEntry :=
  ⟨.warn, message, context, none⟩

def error (message : String) (context : List (String × Json)) (reason : String) : LogEntry :=
  ⟨.error, message, context, some reason⟩

/-- The level in capitals, the message, the context unless it is empty, and the reason. -/
def text (e : LogEntry) : String :=
  "[route-condenser] " ++ e.level.name.toUpper ++ " " ++ e.message ++
    (if e.context.isEmpty then "" else " " ++ (Json.obj e.context).compact) ++
    (match e.reason with
      | some reason => " - " ++ reason
      | none => "")

/-- The line of an entry, if a log of the level tells it. -/
def line? (threshold : LogLevel) (e : LogEntry) : Option String :=
  if e.level.severity < threshold.severity then none else some e.text

end LogEntry

/-- The lines a log of the level has for the entries. -/
def logLines (threshold : LogLevel) (entries : List LogEntry) : List String :=
  entries.filterMap (·.line? threshold)

end RoutePolicy
