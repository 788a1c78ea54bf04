import RoutePolicy.Command.Help
import RoutePolicy.Command.Preparation
import RoutePolicy.Command.QueryFile
import RoutePolicy.Reachability.Cache
import RoutePolicy.Topology.Draft

/-!
The command that answers queries about a topology and prints the answers.
-/

set_option autoImplicit false

namespace RoutePolicy.Command.Ask

def limits (s : Settings) : Limits := ⟨s.maxIterations, s.maxPaths⟩

/-- The query that the options of a command line ask. -/
def query (a : Arguments) (destination : String) : Query where
  destination := destination
  source := a.option? "source"
  route := none
  trace := if a.hasFlag "trace" then some true else none

/-- Whether a query was answered, and the route accepted. -/
def isAccepted (r : Outcome Answer) : Bool :=
  match r with
  | .ok answer => answer.accepted
  | .error _ => false

def startInquiry : Inquiry := ⟨some .empty, []⟩

variable {m : Type → Type} [Monad m]

/-- The topology in a file: a condensed document if it has a version, and answer tables otherwise. -/
def load (h : Host m) (p : Prepared) (name : String) : Run m Topology := do
  let path ← h.resolve name
  let j ← h.readJson path
  if (j.members?.bind (·.get? "version")).isSome then do
    h.tell p.level (.debug "Loading condensed IR" [("path", .str name)])
    Run.ofOutcome (Topology.ofJson true j)
  else do
    h.tell p.level (.debug "Loading raw service data" [("path", .str name)])
    let (topology, log) := Topology.ofTables (p.arguments.hasFlag "keep-unsupported") j
    h.tellAll p.level log
    Run.ofOutcome topology

def readQueries (h : Host m) (name : String) : Run m (List Query) := do
  let path ← h.resolve name
  let text ← Run.ofFile (h.read path)
  match document? text with
  | some j => Run.ofOutcome (QueryFile.read name j)
  | none => throw (.notJson path)

/-- Answers the queries of a file; the command succeeds if every route is accepted. -/
def askFile (h : Host m) (p : Prepared) (t : Topology) (name : String) : Run m Bool := do
  let queries ← readQueries h name
  let (entries, inquiry) := startInquiry.askAll t (limits p.settings) queries
  h.tellAll p.level inquiry.log
  h.print (Json.arr (entries.map BatchEntry.toJson)).pretty
  pure (entries.all fun entry => isAccepted entry.result)

def askOne (h : Host m) (p : Prepared) (t : Topology) (q : Query) : Run m Bool := do
  let (result, inquiry) := startInquiry.ask t (limits p.settings) q
  h.tellAll p.level inquiry.log
  let answer ← Run.ofOutcome result
  h.print answer.toJson.pretty
  pure answer.accepted

def run (h : Host m) (p : Prepared) : Run m Bool := do
  let subject ← p.subject queryUsage
  match p.arguments.given? "queries", p.arguments.given? "destination" with
  | some name, _ => do
    let topology ← load h p subject
    askFile h p topology name
  | none, some destination => do
    let topology ← load h p subject
    askOne h p topology (query p.arguments destination)
  | none, none => throw (.usage (.usage queryUsage))

end RoutePolicy.Command.Ask
