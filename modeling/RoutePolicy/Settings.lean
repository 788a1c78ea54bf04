import RoutePolicy.Failure
import RoutePolicy.Log
import RoutePolicy.Number.Reader

/-!
Settings: read from a document, with defaults for what it leaves out, and changed by variables of the
environment.
-/

set_option autoImplicit false

namespace RoutePolicy

structure Settings where
  url : String
  timeout : Nat
  retries : Nat
  maxIterations : Nat
  maxPaths : Nat
  simplify : Bool
  logLevel : LogLevel
deriving DecidableEq

namespace Settings

def default : Settings where
  url := "http://localhost:9996"
  timeout := 30000
  retries := 1
  maxIterations := 10000
  maxPaths := 1024
  simplify := false
  logLevel := .info

/-- The keys of a document. -/
def keys : List String := ["service", "query", "simplify", "logLevel"]

/-- Names that every mapping answers to; a document may use them, without effect. -/
def inheritedNames : List String :=
  ["constructor", "hasOwnProperty", "isPrototypeOf", "propertyIsEnumerable", "toLocaleString",
   "toString", "valueOf", "__defineGetter__", "__defineSetter__", "__lookupGetter__",
   "__lookupSetter__", "__proto__"]

def isKnown (key : String) : Bool := keys.contains key || inheritedNames.contains key

def refuse {α : Type} (source : String) (fault : SettingFault) : Outcome α :=
  .error (.ofCause (.config (.setting source fault)))

/-- A mapping within a document; a missing one is empty. -/
def mapping (source : String) (raw : Table Json) (key : String) : Outcome (Table Json) :=
  match raw.get? key with
  | none => .ok []
  | some .null => .ok []
  | some (.obj members) => .ok members
  | some _ => refuse source (.sectionNotMapping key)

/-- A value, `null` counting as missing. -/
def given? (members : Table Json) (key : String) : Option Json :=
  match members.get? key with
  | some .null => none
  | found => found

def isUrl (text : String) : Bool :=
  let cs := text.toList
  "http://".toList.isPrefixOf cs || "https://".toList.isPrefixOf cs

def readUrl (source : String) (service : Table Json) : Outcome String :=
  match given? service "url" with
  | none => .ok default.url
  | some (.str url) => if isUrl url then .ok url else refuse source .notUrl
  | some _ => refuse source .notUrl

def readSimplify (source : String) (raw : Table Json) : Outcome Bool :=
  match given? raw "simplify" with
  | none => .ok default.simplify
  | some (.bool value) => .ok value
  | some _ => refuse source .notBoolean

def readLevel (source : String) (raw : Table Json) : Outcome LogLevel :=
  match given? raw "logLevel" with
  | none => .ok default.logLevel
  | some j =>
    match j with
    | .str word =>
      match LogLevel.ofName? word with
      | some level => .ok level
      | none => refuse source (.unknownLevel word)
    | _ => refuse source (.unknownLevel j.plain)

/-- An integer from a least one on; a missing one has its default. -/
def readCount (source : String) (members : Table Json) (key : String) (least fallback : Nat)
    (fault : SettingFault) : Outcome Nat :=
  match members.get? key with
  | none => .ok fallback
  | some (.num n) =>
    match n.toNat? with
    | some count => if count < least then refuse source fault else .ok count
    | none => refuse source fault
  | some _ => refuse source fault

/-- The settings of a document. -/
def ofMembers (source : String) (raw : Table Json) : Outcome Settings := do
  match raw.names.find? (!isKnown ·) with
  | some key => refuse source (.unknownKey key)
  | none => do
    let service ← mapping source raw "service"
    let query ← mapping source raw "query"
    let url ← readUrl source service
    let simplify ← readSimplify source raw
    let logLevel ← readLevel source raw
    let timeout ← readCount source service "timeoutMs" 1 default.timeout
      (.notPositive "service.timeoutMs")
    let retries ← readCount source service "retries" 0 default.retries
      (.notNatural "service.retries")
    let maxIterations ← readCount source query "maxIterations" 1 default.maxIterations
      (.notPositive "query.maxIterations")
    let maxPaths ← readCount source query "maxPaths" 1 default.maxPaths
      (.notPositive "query.maxPaths")
    .ok { url, timeout, retries, maxIterations, maxPaths, simplify, logLevel }

/-- The settings of a document, which may be missing or empty. -/
def ofJson (source : String) (raw : Option Json) : Outcome Settings :=
  match raw with
  | none => .ok default
  | some .null => .ok default
  | some (.obj members) => ofMembers source members
  | some _ => refuse source .notMapping

def toJson (s : Settings) : Json :=
  .obj [("service", .obj [("url", .str s.url), ("timeoutMs", .nat s.timeout),
      ("retries", .nat s.retries)]),
    ("query", .obj [("maxIterations", .nat s.maxIterations), ("maxPaths", .nat s.maxPaths)]),
    ("simplify", .bool s.simplify), ("logLevel", .str s.logLevel.name)]

/-- Variables of the environment that change settings. -/
structure Variables where
  url : Option String
  timeout : Option String
  logLevel : Option String

namespace Variables

def urlName : String := "ROUTE_CONDENSER_SERVICE_URL"

def timeoutName : String := "ROUTE_CONDENSER_TIMEOUT_MS"

def logLevelName : String := "ROUTE_CONDENSER_LOG_LEVEL"

end Variables

/-- A variable that is set to something. -/
def present (value : Option String) : Option String := value.filter (!·.isEmpty)

def overrideTimeout (s : Settings) (text : String) : Outcome Settings :=
  match (Number.ofText text).toNat? with
  | some timeout =>
    if timeout = 0 then .error (.ofCause (.config (.timeoutVariable text)))
    else .ok { s with timeout := timeout }
  | none => .error (.ofCause (.config (.timeoutVariable text)))

def overrideLevel (s : Settings) (text : String) : Outcome Settings :=
  match LogLevel.ofName? text with
  | some level => .ok { s with logLevel := level }
  | none => .error (.ofCause (.config (.levelVariable text)))

/-- The settings with the variables applied. -/
def override (s : Settings) (v : Variables) : Outcome Settings := do
  let s := match present v.url with
    | some url => { s with url := url }
    | none => s
  let s ← match present v.timeout with
    | some text => overrideTimeout s text
    | none => .ok s
  match present v.logLevel with
    | some text => overrideLevel s text
    | none => .ok s

end Settings

end RoutePolicy
