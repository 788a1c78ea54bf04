import RoutePolicy.Failure
import RoutePolicy.Retry
import RoutePolicy.Text.Percent

/-!
The client of the analysis service: it checks that the service runs, uploads configurations, and
collects the answer tables. Requests that fail for a passing reason are repeated.
-/

set_option autoImplicit false

namespace RoutePolicy

namespace Service

inductive Method where
  | get
  | post
deriving DecidableEq

def Method.name : Method → String
  | get => "GET"
  | post => "POST"

structure Request where
  url : String
  method : Method
  headers : Table String
  body : Option Json

/-- What comes back for a request: a response, or an error of the transport by name. -/
inductive Reply where
  | response (status : Number) (body : Except String Json) (text : Except String String)
  | failed (name message : String)

/-- What the client needs from its surroundings. -/
structure Transport (m : Type → Type) extends Pacing m where
  send : Request → m Reply

structure ClientSettings where
  url : String
  timeout : Number
  retries : Int
  headers : Table String

namespace ClientSettings

/-- The address without a slash at its end. -/
def base (s : ClientSettings) : String :=
  match s.url.toList.reverse with
  | '/' :: rest => String.ofList rest.reverse
  | _ => s.url

def attempts (s : ClientSettings) : Int := 1 + s.retries

def limits (s : ClientSettings) : RetryLimits := { RetryLimits.default with attempts := s.attempts }

end ClientSettings

structure SnapshotFile where
  path : String
  content : String

/-- The questions the service is asked about a snapshot. -/
inductive Question where
  | layer3Edges
  | ipOwners
  | interfacePolicies
  | namedStructures
  | nodeProperties
  | initIssues
deriving DecidableEq

namespace Question

def name : Question → String
  | layer3Edges => "layer3Edges"
  | ipOwners => "ipOwners"
  | interfacePolicies => "interfacePolicies"
  | namedStructures => "namedStructures"
  | nodeProperties => "nodeProperties"
  | initIssues => "initIssues"

/-- The table that holds the rows of the answer. -/
def table : Question → String
  | layer3Edges => "topology"
  | ipOwners => "ips"
  | interfacePolicies => "interfaces"
  | namedStructures => "declarations"
  | nodeProperties => "nodes"
  | initIssues => "issues"

def all : List Question :=
  [layer3Edges, ipOwners, interfacePolicies, namedStructures, nodeProperties, initIssues]

def ofName? (word : String) : Option Question := all.find? (·.name = word)

end Question

/-- Statuses from 200 to 299 are successes. -/
def isSuccess (status : Number) : Bool := (200 : Number).le status && status.le 299

/-- What a reply means. A success of a `GET` has no content. -/
def Reply.content (timeout : Number) (method : Method) : Reply → Outcome (Table Json)
  | failed name message =>
    if name = "AbortError" then .error (.request (.timedOut timeout))
    else .error (.request (.failed message))
  | response status body text =>
    if isSuccess status then
      match method, body with
      | .get, _ => .ok []
      | .post, .error message => .error (.request (.failed message))
      | .post, .ok j =>
        match j.members? with
        | some ms => .ok ms
        | none => .error (.request .notAnObject)
    else
      let body := match text with
        | .ok text => text
        | .error _ => "Unable to read response body"
      .error (.request (.status status body))

/-- The status code of a failed request. -/
def statusOf (f : Failure) : Option Number :=
  match f.cause with
  | .request fault => fault.code?
  | _ => none

def reading : FailureReading Failure := ⟨statusOf, id, Failure.message⟩

namespace Client

variable {m : Type → Type} [Monad m]

def initializedEntry (s : ClientSettings) : LogEntry :=
  .debug "Analysis service client initialized"
    [("baseUrl", .str s.base), ("timeoutMs", .num s.timeout), ("maxAttempts", .int s.attempts)]

def unavailableEntry (url : String) (attempts : Int) (reason : String) : LogEntry :=
  .error "Analysis service unavailable" [("url", .str url), ("attempts", .int attempts)] reason

def buildRequest (s : ClientSettings) (method : Method) (path : String) (body : Option Json) :
    Request :=
  { url := s.base ++ path
    method := method
    headers := Table.putAll [("Content-Type", "application/json")] s.headers
    body := body }

/-- Sends a request, again after passing failures. -/
def request (t : Transport m) (s : ClientSettings) (method : Method) (path : String)
    (body : Option Json) : m (Outcome (Table Json)) := do
  let r := buildRequest s method path body
  let act : m (Outcome (Table Json)) := do
    let reply ← t.send r
    pure (reply.content s.timeout method)
  match ← Retry.run t.toPacing s.limits reading act with
  | .done content _ => pure (.ok content)
  | .fatal f => pure (.error f)
  | .exhausted attempts last => do
    let reason := Retry.lastMessage reading last
    t.tell (unavailableEntry r.url attempts reason)
    pure (.error (.ofCause (.unavailable (.down s.base reason))))

/-- Fails unless the service is ready. -/
def healthCheck (t : Transport m) (s : ClientSettings) : m (Outcome Unit) := do
  match ← request t s .get "/health" none with
  | .error f => pure (.error f)
  | .ok _ => do
    t.tell (.debug "Analysis service is ready" [("baseUrl", .str s.base)])
    pure (.ok ())

def snapshotBody (name : String) (files : List SnapshotFile) : Json :=
  .obj [("name", .str name), ("files", .arr (files.map fun file =>
    .obj [("path", .str file.path), ("content", .str file.content)]))]

/-- Uploads configurations; the service names the snapshot it makes of them. -/
def upload (t : Transport m) (s : ClientSettings) (name : String) (files : List SnapshotFile) :
    m (Outcome String) := do
  match ← request t s .post "/snapshots" (some (snapshotBody name files)) with
  | .error f => pure (.error f)
  | .ok content =>
    match content.get? "snapshot" with
    | some (.str snapshot) => do
      t.tell (.info "Uploaded snapshot"
        [("snapshot", .str snapshot), ("files", .nat files.length)])
      pure (.ok snapshot)
    | _ => pure (.error (.request .noSnapshot))

/-- The rows of an answer. -/
def answerRows (question : Question) (content : Table Json) : Outcome (List Json) :=
  match content.get? "rows" with
  | some (.arr rows) =>
    if rows.all Json.isObject then .ok rows else .error (.request (.invalidRow question.name))
  | _ => .error (.request (.noRows question.name))

/-- Asks a question about a snapshot. -/
def ask (t : Transport m) (s : ClientSettings) (snapshot : String) (question : Question) :
    m (Outcome (List Json)) := do
  let path := "/snapshots/" ++ Text.percentEncode snapshot ++ "/questions/" ++ question.name
  match ← request t s .post path (some (.obj [])) with
  | .error f => pure (.error f)
  | .ok content => pure (answerRows question content)

/-- Asks questions one after another. -/
def collectFrom (t : Transport m) (s : ClientSettings) (snapshot : String) :
    List Question → m (Outcome (Table (List Json)))
  | [] => pure (.ok [])
  | question :: rest => do
    match ← ask t s snapshot question with
    | .error f => pure (.error f)
    | .ok rows => do
      t.tell (.debug "Answered question"
        [("question", .str question.name), ("rows", .nat rows.length)])
      match ← collectFrom t s snapshot rest with
      | .error f => pure (.error f)
      | .ok tables => pure (.ok ((question.table, rows) :: tables))

/-- Asks all questions; the answer tables by name. -/
def collect (t : Transport m) (s : ClientSettings) (snapshot : String) :
    m (Outcome (Table (List Json))) :=
  collectFrom t s snapshot Question.all

def tablesJson (tables : Table (List Json)) : Json :=
  .obj (tables.map fun (name, rows) => (name, .arr rows))

end Client

end Service

end RoutePolicy
