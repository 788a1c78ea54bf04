import RoutePolicy.Failure.Cause

/-!
Failures: a cause, and the node, interface, policy and statement it arose at. The innermost frame
knows best, so an outer frame only fills what is still open.
-/

set_option autoImplicit false

namespace RoutePolicy

/-- Where a failure arose, by the names of frames, in the order in which they were filled in. -/
abbrev Context := Table String

namespace Context

/-- The frames a description names, in its order. -/
def frames : List String := ["node", "interface", "policy", "statement"]

/-- Fills frames that are still open. -/
def fill (inner outer : Context) : Context :=
  frames.foldl (fun context frame =>
    match context.get? frame, outer.get? frame with
    | none, some name => context ++ [(frame, name)]
    | _, _ => context) inner

def node (name : String) : Context := [("node", name)]

def nodePolicy (node policy : String) : Context := [("node", node), ("policy", policy)]

def nodeInterface (node interface : String) : Context :=
  [("node", node), ("interface", interface)]

def policyStatement (policy statement : String) : Context :=
  [("policy", policy), ("statement", statement)]

def text (context : Context) : String :=
  let parts := frames.filterMap fun frame => (context.get? frame).map fun name => s!"{frame}={name}"
  if parts.isEmpty then "" else " (" ++ ", ".intercalate parts ++ ")"

end Context

/-- A failure of the library. -/
structure Failure where
  cause : Cause
  context : Context

namespace Failure

def ofCause (cause : Cause) : Failure := ⟨cause, []⟩

def encoding (fault : EncodingFault) : Failure := ofCause (.malformed (.encoding fault) [])

def evaluation (fault : EvaluationFault) : Failure := ofCause (.evaluation fault)

def query (fault : QueryFault) : Failure := ofCause (.query fault)

def reference (fault : ReferenceFault) : Failure := ofCause (.malformed (.reference fault) [])

def table (fault : TableFault) (place : Location) : Failure :=
  ofCause (.malformed (.table fault) place)

def condensed (fault : CondensedFault) (place : Location) : Failure :=
  ofCause (.malformed (.condensed fault) place)

def topology (fault : TopologyFault) (context : Context) : Failure :=
  ⟨.malformed (.topology fault) [], context⟩

def request (fault : RequestFault) : Failure := ofCause (.request fault)

def message (f : Failure) : String := f.cause.message

def code (f : Failure) : FailureCode := f.cause.code

/-- The failure as an outer frame sees it. -/
def fill (f : Failure) (outer : Context) : Failure := { f with context := f.context.fill outer }

/-- The failure as a reader of the enclosing value sees it. -/
def within (step : Step) (f : Failure) : Failure :=
  match f.cause with
  | .malformed fault place => { f with cause := .malformed fault (step :: place) }
  | _ => f

/-- One line for a reader: the code, the message and the frames. -/
def describe (f : Failure) : String :=
  "error [" ++ f.code.text ++ "] " ++ f.message ++ f.context.text

end Failure

/-- A result or a failure. -/
abbrev Outcome := Except Failure

namespace Outcome

variable {α : Type}

/-- Fills the open frames of a failure. -/
def inContext (context : Context) (r : Outcome α) : Outcome α := r.mapError (·.fill context)

/-- The place of a failure as seen from the enclosing value. -/
def within (step : Step) (r : Outcome α) : Outcome α := r.mapError (·.within step)

/-- The place of a failure as seen from the root, the value standing at `place`. -/
def under (place : Location) (r : Outcome α) : Outcome α := place.foldr (fun step r => within step r) r

end Outcome

end RoutePolicy
