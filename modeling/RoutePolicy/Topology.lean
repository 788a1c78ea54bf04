import RoutePolicy.Digest.Sha256
import RoutePolicy.Encoding.Writer
import RoutePolicy.Failure
import RoutePolicy.Ipv4.Network
import RoutePolicy.Statement.Simplify
import RoutePolicy.Typing

/-!
Topologies: nodes with their networks, interfaces and policies, and directed edges between
interfaces. A topology is built from parts whose references all resolve.
-/

set_option autoImplicit false

namespace RoutePolicy

/-- An interface of a node. -/
structure Endpoint where
  node : String
  interface : String
deriving DecidableEq

/-- A directed edge between interfaces. -/
structure Edge where
  source : Endpoint
  target : Endpoint
deriving DecidableEq

/-- The names of the policies that routes pass when they enter and leave an interface, in order. -/
structure Chains where
  imports : List String
  exports : List String
deriving DecidableEq

namespace Chains

def empty : Chains := ⟨[], []⟩

def policies (c : Chains) : List String := c.imports ++ c.exports

end Chains

/-- A node. An external one stands for a peer that may announce any route. -/
structure Node where
  name : String
  asn : Option Int
  networks : List String
  interfaces : Table Chains
  policies : Table Policy
  external : Bool

namespace Node

/-- The policies that chains of the node name. -/
def bound (n : Node) : List String := n.interfaces.values.flatMap Chains.policies

/-- The policies that a policy of the node calls. -/
def callees (n : Node) (policy : String) : List String :=
  match n.policies.get? policy with
  | some p => Statement.calls p.statements
  | none => []

/-- The policies that any policy of the node calls. -/
def allCallees (n : Node) : List String := n.policies.names.flatMap n.callees

/-- The callees of known policies that are not known themselves. -/
def newCallees (n : Node) (known : List String) : List String :=
  (known.flatMap n.callees).filter (· ∉ known)

theorem mem_allCallees {n : Node} {policy callee : String} (h : callee ∈ n.callees policy) :
    callee ∈ n.allCallees := by
  have named : policy ∈ n.policies.names := by
    unfold callees at h
    split at h
    · next found => exact Table.mem_names_of_get? found
    · simp at h
  exact List.mem_flatMap.2 ⟨policy, named, h⟩

theorem unknown_lt {n : Node} {known : List String} (grows : n.newCallees known ≠ []) :
    (n.allCallees.filter (· ∉ known ++ n.newCallees known)).length <
      (n.allCallees.filter (· ∉ known)).length := by
  obtain ⟨callee, h⟩ := List.exists_mem_of_ne_nil _ grows
  have mem := h
  simp only [newCallees, List.mem_filter, List.mem_flatMap, decide_eq_true_eq] at mem
  obtain ⟨⟨policy, _, called⟩, fresh⟩ := mem
  have smaller : n.allCallees.filter (· ∉ known ++ n.newCallees known) =
      (n.allCallees.filter (· ∉ known)).filter (· ∉ n.newCallees known) := by
    simp only [List.filter_filter]
    apply List.filter_congr
    intro x _
    by_cases h₁ : x ∈ known <;> by_cases h₂ : x ∈ n.newCallees known <;> simp [h₁, h₂]
  rw [smaller, List.length_filter_lt_length_iff_exists]
  exact ⟨callee, by simp [mem_allCallees called, fresh], by simpa using h⟩

/-- The known policies and all that they reach by calls. -/
def closure (n : Node) (known : List String) : List String :=
  if _grows : n.newCallees known = [] then known
  else n.closure (known ++ n.newCallees known)
termination_by (n.allCallees.filter (· ∉ known)).length
decreasing_by exact unknown_lt _grows

/-- The policies that no chain names, but that policies named by chains reach by calls. -/
def calledOnly (n : Node) : List Policy :=
  let bound := n.bound
  let reached := (n.closure bound).filter (· ∉ bound)
  n.policies.values.filter fun p => reached.contains p.name

/-- The policies of a list of names. -/
def chain (n : Node) (names : List String) : List Policy := names.filterMap n.policies.get?

end Node

/-- Nodes and edges in a fixed order, which is also the order of exploration. -/
structure Topology where
  nodes : List Node
  edges : List Edge

namespace Topology

def node? (t : Topology) (name : String) : Option Node := t.nodes.find? (·.name = name)

def failWhen (wrong : Bool) (fault : TopologyFault) (context : Context) : Outcome Unit :=
  if wrong then .error (.topology fault context) else .ok ()

/-- Runs a check on every item, in order. -/
def checkAll {α : Type} (check : α → Outcome Unit) : List α → Outcome Unit
  | [] => .ok ()
  | item :: rest => do
    check item
    checkAll check rest

/-- The networks of a node are well formed, and its chains and calls name policies it has. -/
def checkNode (n : Node) : Outcome Unit := do
  checkAll (fun text =>
    failWhen (Network.parse? text).isNone (.invalidNetwork text) (Context.node n.name)) n.networks
  checkAll (fun (interface, chains) =>
    checkAll (fun policy => failWhen (!n.policies.has policy) .danglingPolicy
      (Context.nodeInterface n.name interface ++ [("policy", policy)])) chains.policies) n.interfaces
  checkAll (fun p =>
    checkAll (fun callee => failWhen (!n.policies.has callee) (.undefinedCallee callee)
      (Context.nodePolicy n.name p.name)) (Statement.calls p.statements)) n.policies.values

/-- No node has the name of an earlier one, and every node passes its check. -/
def checkNodes (earlier : List String) : List Node → Outcome Unit
  | [] => .ok ()
  | n :: rest => do
    failWhen (earlier.contains n.name) .duplicateNode (Context.node n.name)
    checkNode n
    checkNodes (earlier ++ [n.name]) rest

/-- An end of an edge is an interface of a node. -/
def checkEnd (t : Topology) (e : Endpoint) : Outcome Unit :=
  match t.node? e.node with
  | none => .error (.topology .unknownNode (Context.node e.node))
  | some n =>
    failWhen (!n.interfaces.has e.interface) .unknownInterface
      (Context.nodeInterface e.node e.interface)

/-- The topology of the given parts, if all their references resolve. -/
def create (nodes : List Node) (edges : List Edge) : Outcome Topology := do
  let t : Topology := ⟨nodes, edges⟩
  checkNodes [] nodes
  checkAll (fun edge => do
    t.checkEnd edge.source
    t.checkEnd edge.target) edges
  .ok t

/-- The edges that leave a node, with their numbers. -/
def outgoing (t : Topology) (node : String) : List (Nat × Edge) :=
  (t.edges.zipIdx.filter (·.1.source.node = node)).map fun (edge, i) => (i, edge)

def chains (t : Topology) (e : Endpoint) : Chains :=
  ((t.node? e.node).bind (·.interfaces.get? e.interface)).getD .empty

def chainOf (t : Topology) (e : Endpoint) (names : List String) : List Policy :=
  match t.node? e.node with
  | some n => n.chain names
  | none => []

/-- The policies for routes that leave through an interface. -/
def exportChain (t : Topology) (e : Endpoint) : List Policy := t.chainOf e (t.chains e).exports

/-- The policies for routes that enter through an interface. -/
def importChain (t : Topology) (e : Endpoint) : List Policy := t.chainOf e (t.chains e).imports

/-- The policies that may be called at a node. -/
def policies (t : Topology) (node : String) : Table Policy :=
  match t.node? node with
  | some n => n.policies
  | none => []

/-- The topology with all policies simplified. -/
def simplify (t : Topology) : Outcome Topology :=
  create (t.nodes.map fun n =>
    { n with policies := n.policies.map fun (name, p) => (name, p.simplify) }) t.edges

/-- Refuses a topology with an ill-typed policy, naming the first one. -/
def checkTypes (t : Topology) : Outcome Unit :=
  checkAll (fun n => checkAll (fun p =>
    match p.firstError? with
    | none => .ok ()
    | some found =>
      .error ⟨.malformed (.illTyped found.issue.complaint) [],
        Context.nodePolicy n.name p.name ++ [("statement", found.position.text)]⟩)
    n.policies.values) t.nodes

end Topology

end RoutePolicy
