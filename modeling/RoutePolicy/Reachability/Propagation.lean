import RoutePolicy.Reachability.Query

/-!
Propagation of routes. Routes for the destination start at the nodes that own it and at external
nodes, and cross directed edges through the sender's export chain and the receiver's import chain.
What arrives at a node is a variant: the condition on the starting route and the record it has
become. A node keeps one variant a condition, so that loops come to rest.
-/

set_option autoImplicit false

namespace RoutePolicy

/-- A route that reached a node. -/
structure Variant where
  node : String
  condition : Expr
  record : Record
  /-- The hops from the start, the latest first. -/
  hops : List Hop

namespace Variant

/-- Two conditions are the same when they are written in the same way. -/
def conditionKey (condition : Expr) : String := (Encoding.writeExpr condition).canonical

def key (v : Variant) : String := conditionKey v.condition

end Variant

namespace Expr

/-- The conditions a condition is the conjunction of. -/
def conjuncts : Expr → List Expr
  | junction _ .all operands => operands
  | lit _ (.bool true) => []
  | e => [e]

/-- The constant false. -/
def isFalse (e : Expr) : Bool := e.bool? = some false

end Expr

namespace Propagation

/-- What crosses an edge, or is refused there. -/
inductive Crossing where
  | refused (hop : Hop)
  | arrival (variant : Variant)

section

variable [Arithmetic]

/-- The paths of a route through a chain at an endpoint. -/
def pass (t : Topology) (paths : Int) (e : Endpoint) (chain : List Policy) (assumptions : List Expr)
    (r : Record) : Outcome (List Path) :=
  Outcome.inContext (Context.nodeInterface e.node e.interface)
    (evaluateChain ⟨assumptions, paths, t.policies e.node⟩ chain r)

def hop (edge : Edge) (direction : Direction) (chain : List Policy) (path : Path) : Hop :=
  ⟨edge, direction, chain.map Policy.name, path.disposition = .accept, path.trace⟩

/-- The receiver's part for a path of the sender: what it makes of each of its own paths. -/
def enter (v : Variant) (edge : Edge) (chain : List Policy) (left : Hop) (path : Path) :
    Option Crossing :=
  let entered := hop edge .entering chain path
  if path.disposition ≠ .accept then some (.refused entered)
  else
    let condition := (Expr.all path.condition).simplify
    if condition.isFalse then none
    else some (.arrival ⟨edge.target.node, condition, path.record, entered :: left :: v.hops⟩)

/-- The sender's part for one of its paths. -/
def leave (t : Topology) (paths : Int) (v : Variant) (edge : Edge) (path : Path) :
    Outcome (List Crossing) := do
  let left := hop edge .leaving (t.exportChain edge.source) path
  if path.disposition ≠ .accept then .ok [.refused left]
  else
    let chain := t.importChain edge.target
    let entered ← pass t paths edge.target chain path.condition path.record
    .ok (entered.filterMap (enter v edge chain left))

def leaveAll (t : Topology) (paths : Int) (v : Variant) (edge : Edge) :
    List Path → Outcome (List Crossing)
  | [] => .ok []
  | path :: rest => do
    let first ← leave t paths v edge path
    let others ← leaveAll t paths v edge rest
    .ok (first ++ others)

/-- All that a variant sends over an edge. -/
def crossings (t : Topology) (paths : Int) (v : Variant) (edge : Edge) :
    Outcome (List Crossing) := do
  let left ← pass t paths edge.source (t.exportChain edge.source) v.condition.conjuncts v.record
  leaveAll t paths v edge left

end

/-- The variants that have been sent on, those that wait, the refused hops, and the number of edges
crossed. -/
structure State where
  settled : List Variant
  waiting : List Variant
  refused : List Hop
  steps : Nat

namespace State

def variants (s : State) : List Variant := s.settled ++ s.waiting

/-- Whether a node has a variant with the same condition. -/
def knows (s : State) (v : Variant) : Bool :=
  s.variants.any fun other => other.node = v.node && other.key = v.key

/-- Adds a variant unless its node knows the condition. -/
def add (s : State) (v : Variant) : State :=
  if s.knows v then s else { s with waiting := s.waiting ++ [v] }

def record (s : State) : Crossing → State
  | .refused hop => { s with refused := s.refused ++ [hop] }
  | .arrival v => s.add v

@[simp] theorem steps_add (s : State) (v : Variant) : (s.add v).steps = s.steps := by
  unfold add
  split <;> rfl

@[simp] theorem steps_record (s : State) (c : Crossing) : (s.record c).steps = s.steps := by
  cases c <;> simp [record]

theorem steps_foldl_record (cs : List Crossing) (s : State) :
    (cs.foldl record s).steps = s.steps := by
  induction cs generalizing s with
  | nil => rfl
  | cons c rest ih => simp [ih]

end State

variable [Arithmetic]

/-- Sends a variant over an edge, unless the bound on crossings is reached. -/
def cross (t : Topology) (limits : Limits) (v : Variant) (edge : Edge) (s : State) :
    Outcome State :=
  if limits.iterations < s.steps + 1 then
    .error ⟨.cycleBound (.ofInt limits.iterations), Context.node v.node⟩
  else do
    let cs ← crossings t limits.paths v edge
    .ok (cs.foldl State.record { s with steps := s.steps + 1 })

def crossAll (t : Topology) (limits : Limits) (v : Variant) : List Edge → State → Outcome State
  | [], s => .ok s
  | edge :: rest, s => do
    let s ← cross t limits v edge s
    crossAll t limits v rest s

theorem steps_cross {t : Topology} {limits : Limits} {v : Variant} {edge : Edge} {s s' : State}
    (h : cross t limits v edge s = .ok s') :
    s'.steps = s.steps + 1 ∧ s'.steps ≤ limits.iterations := by
  unfold cross at h
  split at h
  · simp at h
  · next within =>
    cases found : crossings t limits.paths v edge with
    | error f => simp [found, bind, Except.bind] at h
    | ok cs =>
      simp only [found, bind, Except.bind, Except.ok.injEq] at h
      subst h
      rw [State.steps_foldl_record]
      exact ⟨rfl, Int.not_lt.mp within⟩

theorem steps_crossAll {t : Topology} {limits : Limits} {v : Variant} {edges : List Edge}
    {s s' : State} (h : crossAll t limits v edges s = .ok s') :
    s'.steps = s.steps + edges.length ∧ (edges ≠ [] → s'.steps ≤ limits.iterations) := by
  induction edges generalizing s with
  | nil => simp [crossAll] at h; simp [h]
  | cons edge rest ih =>
    rw [crossAll] at h
    cases first : cross t limits v edge s with
    | error f => simp [first, bind, Except.bind] at h
    | ok s₁ =>
      simp only [first, bind, Except.bind] at h
      obtain ⟨one, within⟩ := steps_cross first
      obtain ⟨others, later⟩ := ih h
      refine ⟨by simp; omega, fun _ => ?_⟩
      cases rest with
      | nil => exact others ▸ within
      | cons _ _ => exact later (by simp)

/-- The edges that leave a node. -/
def edgesFrom (t : Topology) (node : String) : List Edge := (t.outgoing node).map Prod.snd

/-- Sends waiting variants on until none waits. -/
def settle (t : Topology) (limits : Limits) (s : State) : Outcome State :=
  match _waits : s.waiting with
  | [] => .ok s
  | v :: rest =>
    match _crossed : crossAll t limits v (edgesFrom t v.node)
        { s with settled := s.settled ++ [v], waiting := rest } with
    | .error f => .error f
    | .ok s' => settle t limits s'
termination_by (limits.iterations.toNat - s.steps, s.waiting.length)
decreasing_by
  obtain ⟨counted, within⟩ := steps_crossAll _crossed
  cases edges : edgesFrom t v.node with
  | nil =>
    rw [edges] at _crossed
    simp only [crossAll, Except.ok.injEq] at _crossed
    subst _crossed
    simp [Prod.lex_def, _waits]
  | cons edge others =>
    have bounded := within (by simp [edges])
    have counted : s'.steps = s.steps + (others.length + 1) := by rw [counted, edges]; rfl
    simp only [Prod.lex_def]
    exact Or.inl (by omega)

end Propagation

namespace Query

/-- The destination as a network with its length. -/
def network (q : Query) : Outcome Network :=
  match Network.parse? q.destination with
  | some n => .ok n
  | none => .error (.query (.invalidDestination q.destination))

/-- A node that is asked about has to exist. -/
def checkSource (t : Topology) (q : Query) : Outcome Unit :=
  match q.source with
  | none => .ok ()
  | some name =>
    if (t.node? name).isSome then .ok ()
    else .error ⟨.query (.unknownSource name), Context.node name⟩

/-- A node that is not external owns a network inside one of its own. -/
def owns (n : Node) (target : Network) : Bool :=
  n.networks.any fun text => (Network.parse? text).any (·.contains target)

/-- The variant a node starts with: an arbitrary route at an external node, the route of the query
at an owner of the destination. -/
def origin? (target : Network) (announced originated : Record) (n : Node) : Option Variant :=
  if n.external then some ⟨n.name, .bool true, announced, []⟩
  else if owns n target then some ⟨n.name, .bool true, originated, []⟩
  else none

/-- The variants propagation starts from. -/
def origins (t : Topology) (q : Query) : Outcome (List Variant) := do
  q.checkSource t
  let target ← q.network
  let originated ← Record.ofGiven (Given.withNetwork (q.route.getD []) target.text) true
  let announced ← Record.ofGiven [.network target.text] true
  .ok (t.nodes.filterMap (origin? target announced originated))

end Query

namespace Propagation

def start (origins : List Variant) : State := origins.foldl State.add ⟨[], [], [], 0⟩

/-- The variants that reached a node, in the order of arrival. -/
def reached (s : State) (node : String) : List Variant := s.variants.filter (·.node = node)

/-- The condition under which a node is reached. -/
def predicate (s : State) (node : String) : Expr :=
  (Expr.any ((reached s node).map Variant.condition)).simplify

def predicates (t : Topology) (s : State) : Table Expr :=
  t.nodes.map fun n => (n.name, predicate s n.name)

/-- The hops of the first variant that reached a node. -/
def walk (s : State) (node : String) : List Hop :=
  match (reached s node).head? with
  | some v => v.hops.reverse
  | none => []

/-- The nodes that were reached, in the order of first arrival. -/
def reachedNodes (s : State) : List String := (s.variants.map Variant.node).eraseDups

/-- The refused hops of a rejected query; of an accepted one the walks to the deciding nodes. -/
def trace (s : State) (q : Query) (accepted : Bool) : List Hop :=
  if accepted then
    match q.source with
    | some node => walk s node
    | none => (reachedNodes s).flatMap (walk s)
  else s.refused

/-- The condition of the deciding node, or of all nodes together. -/
def witness (q : Query) (predicates : Table Expr) : Expr :=
  match q.source with
  | some node => (predicates.get? node).getD (.bool false)
  | none => (Expr.all predicates.values).simplify

/-- What the settled variants say about a query. -/
def answer (t : Topology) (q : Query) (s : State) : Answer :=
  let predicates := predicates t s
  let witness := witness q predicates
  let accepted := !witness.isFalse
  { query := q
    accepted := accepted
    witness := witness
    predicates := predicates
    iterations := s.steps
    trace := if q.trace = some true then some (trace s q accepted) else none }

end Propagation

variable [Arithmetic]

/-- Answers a query by letting routes propagate until nothing new arrives anywhere. -/
def Topology.ask (t : Topology) (limits : Limits) (q : Query) : Outcome Answer := do
  let origins ← q.origins t
  let s ← Propagation.settle t limits (Propagation.start origins)
  .ok (Propagation.answer t q s)

end RoutePolicy
