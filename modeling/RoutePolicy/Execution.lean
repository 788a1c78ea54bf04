import RoutePolicy.Evaluation

/-!
Symbolic execution of policies. A guard that the record does not decide splits the execution; each
path carries the guards it took, the record it made and a trace. A chain of policies hands the
paths that pass from one policy to the next.
-/

set_option autoImplicit false

namespace RoutePolicy

/-- A step of a trace. -/
inductive Event where
  | branch (policy : String) (position : Position) (taken symbolic : Bool)
  | assign (policy : String) (position : Position) (target : Settable) (symbolic : Bool)
  | finish (policy : String) (position : Position) (disposition : Disposition)
  | fallOff (policy : String)

namespace Event

def toJson : Event → Json
  | branch policy position taken symbolic =>
    .obj [("policy", .str policy), ("statement", .str position.text), ("action", .str "branch"),
      ("branch", .bool taken), ("symbolic", .bool symbolic)]
  | assign policy position target symbolic =>
    .obj [("policy", .str policy), ("statement", .str position.text), ("action", .str "assign"),
      ("symbolic", .bool symbolic), ("attribute", .str target.toAttribute.name)]
  | finish policy position disposition =>
    .obj [("policy", .str policy), ("statement", .str position.text), ("action", .str "return"),
      ("disposition", .str disposition.name)]
  | fallOff policy =>
    .obj [("policy", .str policy), ("statement", .str "end"), ("action", .str "default"),
      ("disposition", .str Disposition.reject.name)]

end Event

/-- An execution under way: its record, the conditions it holds under, and what it did. -/
structure Thread where
  record : Record
  condition : List Expr
  trace : List Event

namespace Thread

def log (t : Thread) (event : Event) : Thread := { t with trace := t.trace ++ [event] }

def assuming (t : Thread) (condition : Expr) : Thread :=
  { t with condition := t.condition ++ [condition] }

end Thread

/-- A finished execution. -/
structure Path where
  disposition : Disposition
  condition : List Expr
  record : Record
  trace : List Event

/-- The common disposition of all paths, if there is one. -/
inductive Verdict where
  | settled (disposition : Disposition)
  | conditional
deriving DecidableEq

namespace Verdict

def name : Verdict → String
  | settled disposition => disposition.name
  | conditional => "conditional"

def ofPaths : List Path → Verdict
  | [] => settled .reject
  | first :: rest =>
    if rest.all (·.disposition = first.disposition) then settled first.disposition else conditional

end Verdict

/-- The condition under which an evaluation ends in a disposition. -/
def residual (paths : List Path) (disposition : Disposition) : Expr :=
  match paths.filter (·.disposition = disposition) with
  | [] => .bool false
  | matching => (Expr.any (matching.map fun p => .all p.condition)).simplify

namespace Execution

/-- The most paths a policy may have unless another limit is given. -/
def defaultLimit : Int := 1024

/-- What stays fixed while a policy runs. -/
structure Frame where
  policy : String
  limit : Int
  calls : Calls

/-- A thread that ended with a disposition, or that reached the end of its block. -/
abbrev Ended := Thread × Option Disposition

/-- The threads of a block and the number of paths the policy has by then. -/
abbrev Threads := Outcome (List Ended × Nat)

/-- The branch a guard must take under a condition, found by refuting the other one. -/
def assumed (condition : List Expr) (guard : Expr) : Option Bool :=
  if condition.isEmpty then none
  else if (Expr.all (condition ++ [guard.negate])).simplify.bool? = some false then some true
  else if (Expr.all (condition ++ [guard])).simplify.bool? = some false then some false
  else none

variable [Arithmetic]

/-- The value of a guard: a constant or an open condition. -/
def guardValue (frame : Frame) (r : Record) (guard : Expr) : Outcome Expr := do
  let value ← guard.evaluate frame.calls r
  if value.isLiteral ∧ value.bool?.isNone then .error (.evaluation (.guardLiteral value.kind))
  else .ok value

/-- Runs the rest of a block from every thread that has not ended. -/
def resume (run : Thread → Nat → Threads) : List Ended → Nat → Threads
  | [], paths => .ok ([], paths)
  | (thread, some disposition) :: others, paths => do
    let (later, paths) ← resume run others paths
    .ok ((thread, some disposition) :: later, paths)
  | (thread, none) :: others, paths => do
    let (first, paths) ← run thread paths
    let (later, paths) ← resume run others paths
    .ok (first ++ later, paths)

/-- A policy that would have more paths than its limit. -/
def exceeded (frame : Frame) (here : Position) : Failure :=
  ⟨.evaluation (.tooManyPaths frame.limit), Context.policyStatement frame.policy here.text⟩

mutual

/-- Runs a statement. -/
def runStatement (frame : Frame) (here : Position) :
    Statement → Thread → Nat → Threads
  | .finish _ disposition, thread, paths =>
    .ok ([(thread.log (.finish frame.policy here disposition), some disposition)], paths)
  | .assign _ target value, thread, paths => do
    let (value, record) ← Outcome.inContext (Context.policyStatement frame.policy here.text) do
      let value ← value.evaluate frame.calls thread.record
      let record ← thread.record.assign target.toAttribute value
      .ok (value, record)
    let thread := { thread with record := record }
    .ok ([(thread.log (.assign frame.policy here target !value.isLiteral), none)], paths)
  | .branch _ guard onTrue onFalse _, thread, paths => do
    let value ← Outcome.inContext (Context.policyStatement frame.policy here.text)
      (guardValue frame thread.record guard)
    let takeTrue (thread : Thread) (symbolic : Bool) :=
      runBlock frame (here ++ [.branch true]) 0 onTrue
        (thread.log (.branch frame.policy here true symbolic))
    let takeFalse (thread : Thread) (symbolic : Bool) :=
      runBlock frame (here ++ [.branch false]) 0 onFalse
        (thread.log (.branch frame.policy here false symbolic))
    match value.bool? with
    | some true => takeTrue thread false paths
    | some false => takeFalse thread false paths
    | none =>
      match assumed thread.condition value with
      | some true => takeTrue thread true paths
      | some false => takeFalse thread true paths
      | none =>
        if frame.limit < paths + 1 then .error (exceeded frame here)
        else do
          let (first, paths) ← takeTrue (thread.assuming value) true (paths + 1)
          let (second, paths) ← takeFalse (thread.assuming value.negate) true paths
          .ok (first ++ second, paths)

/-- Runs the statements of a block, the first of which has the given number. -/
def runBlock (frame : Frame) (above : Position) (i : Nat) :
    List Statement → Thread → Nat → Threads
  | [], thread, paths => .ok ([(thread, none)], paths)
  | s :: rest, thread, paths => do
    let (ended, paths) ← runStatement frame (above ++ [.index i]) s thread paths
    resume (runBlock frame above (i + 1) rest) ended paths

end

/-- A thread that fell off the end of its policy is rejected. -/
def toPath (policy : String) : Ended → Path
  | (thread, some disposition) => ⟨disposition, thread.condition, thread.record, thread.trace⟩
  | (thread, none) =>
    ⟨.reject, thread.condition, thread.record, thread.trace ++ [.fallOff policy]⟩

/-- The paths of a policy, given what its calls answer. -/
def runPolicy (calls : Calls) (limit : Int) (assumptions : List Expr) (p : Policy) (r : Record) :
    Outcome (List Path) := do
  let (ended, _) ← runBlock ⟨p.name, limit, calls⟩ [] 0 p.statements ⟨r, assumptions, []⟩ 1
  .ok (ended.map (toPath p.name))

/-- The policies of a table that are not being run. -/
def idle (table : Table Policy) (stack : List String) : List String :=
  table.names.filter (· ∉ stack)

omit [Arithmetic] in
theorem idle_lt {table : Table Policy} {stack : List String} {name : String} {p : Policy}
    (fresh : name ∉ stack) (found : table.get? name = some p) :
    (idle table (stack ++ [name])).length < (idle table stack).length := by
  have smaller : idle table (stack ++ [name]) = (idle table stack).filter (· ≠ name) := by
    simp only [idle, List.filter_filter]
    apply List.filter_congr
    intro x _
    by_cases h : x = name <;> simp [h]
  rw [smaller, List.length_filter_lt_length_iff_exists]
  exact ⟨name, by simp [idle, fresh, Table.mem_names_of_get? found], by simp⟩

/-- What a call answers while the policies on the stack are run: the condition under which the
called policy accepts. Its assignments are not seen by the caller. -/
def callsFrom (table : Table Policy) (limit : Int) (stack : List String) : Calls := fun name r =>
  if _fresh : name ∈ stack then .error (.evaluation (.recursiveCall name))
  else
    match _found : table.get? name with
    | none => .error (.evaluation (.undefinedCall name))
    | some p => do
      let paths ← runPolicy (callsFrom table limit (stack ++ [name])) limit [] p r
      .ok (residual paths .accept)
termination_by (idle table stack).length
decreasing_by exact idle_lt _fresh _found

end Execution

variable [Arithmetic]

/-- What an evaluation starts from, besides the policy and the record. -/
structure Assumed where
  assumptions : List Expr
  limit : Int
  table : Table Policy

/-- The paths of a policy. A path that falls off its end is rejected. -/
def evaluatePolicy (given : Assumed) (p : Policy) (r : Record) : Outcome (List Path) :=
  Execution.runPolicy (Execution.callsFrom given.table given.limit [p.name]) given.limit
    given.assumptions p r

namespace Chain

/-- The paths a policy of a chain adds to a thread that passed all policies before it. -/
def extend (given : Assumed) (p : Policy) (thread : Thread) : Outcome (List Path) := do
  let paths ← evaluatePolicy { given with assumptions := thread.condition } p thread.record
  .ok (paths.map fun path => { path with trace := thread.trace ++ path.trace })

def toThread (path : Path) : Thread := ⟨path.record, path.condition, path.trace⟩

def extendAll (given : Assumed) (p : Policy) : List Thread → Outcome (List Path)
  | [] => .ok []
  | thread :: rest => do
    let first ← extend given p thread
    let others ← extendAll given p rest
    .ok (first ++ others)

/-- A thread that passed the last policy is rejected. -/
def dropped (last : String) (thread : Thread) : Path :=
  ⟨.reject, thread.condition, thread.record, thread.trace ++ [.fallOff last]⟩

/-- Runs the policies of a chain from the threads that passed all policies before them. -/
def run (given : Assumed) (last : String) (finished : List Path) (passed : List Thread) :
    List Policy → Outcome (List Path)
  | [] => .ok (finished ++ passed.map (dropped last))
  | p :: rest => do
    let paths ← extendAll given p passed
    let finished := finished ++ paths.filter (·.disposition ≠ .pass)
    let passed := (paths.filter (·.disposition = .pass)).map toThread
    if given.limit < finished.length + passed.length then
      .error ⟨.evaluation (.tooManyChainPaths given.limit), [("policy", p.name)]⟩
    else run given p.name finished passed rest

end Chain

/-- The paths of a chain of policies. A path that passes continues in the next policy; passing the
last one rejects. An empty chain accepts the route as it is. -/
def evaluateChain (given : Assumed) (policies : List Policy) (r : Record) : Outcome (List Path) :=
  match policies with
  | [] => .ok [⟨.accept, given.assumptions, r, []⟩]
  | p :: rest => Chain.run given p.name [] [⟨r, given.assumptions, []⟩] (p :: rest)

end RoutePolicy
