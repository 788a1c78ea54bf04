import RoutePolicy.Log
import RoutePolicy.Topology.Tables

/-!
Drafting a topology from the analysis tables. Declarations give each node its policies, with the
node's lists and sets written out in place of their names. BGP sessions bind policies to the
interface that faces the peer; a peer whose address no node owns becomes an external node.
-/

set_option autoImplicit false

namespace RoutePolicy

/-- What is known of a node so far. -/
structure Draft where
  asn : Option Int
  external : Bool
  networks : List String
  interfaces : Table Chains
  policies : Table Policy
  definitions : Definitions

namespace Draft

def empty : Draft := ⟨none, false, [], [], [], ⟨[], []⟩⟩

/-- Whether something besides an AS number is known. -/
def isUsed (d : Draft) : Bool :=
  !d.interfaces.isEmpty || !d.policies.isEmpty || !d.networks.isEmpty

def toNode (name : String) (d : Draft) : Node :=
  ⟨name, d.asn, d.networks, d.interfaces, Table.arrange d.policies, d.external⟩

end Draft

/-- A topology in the making. Nodes stand in the order they were first named in. -/
structure Survey where
  drafts : Table Draft
  sessions : List Tables.Neighbor
  owners : Table String
  edges : List Edge
  log : List LogEntry

namespace Survey

def empty : Survey := ⟨[], [], [], [], []⟩

def draft (s : Survey) (name : String) : Draft := (s.drafts.get? name).getD .empty

end Survey

/-- A step of drafting, which keeps what was logged when it fails. -/
abbrev Drafting := ExceptT Failure (StateM Survey)

namespace Drafting

def lift {α : Type} (r : Outcome α) : Drafting α :=
  match r with
  | .ok value => pure value
  | .error f => throw f

def log (entry : LogEntry) : Drafting Unit := modify fun s => { s with log := s.log ++ [entry] }

/-- Changes the draft of a node, which comes into being when it is first named. -/
def update (name : String) (change : Draft → Draft) : Drafting Unit :=
  modify fun s => { s with drafts := s.drafts.put name (change (s.draft name)) }

def touch (name : String) : Drafting Unit := update name id

/-- Runs a step for every item and its number. -/
def forEach {α : Type} (step : Nat → α → Drafting Unit) (i : Nat) : List α → Drafting Unit
  | [] => pure ()
  | item :: rest => do
    step i item
    forEach step (i + 1) rest

def ensureInterface (e : Endpoint) : Drafting Unit :=
  update e.node fun d =>
    if d.interfaces.has e.interface then d
    else { d with interfaces := d.interfaces.put e.interface .empty }

/-- A row of the table of nodes: a name and perhaps an AS number. -/
def nodeRow (i : Nat) (row : Table Json) : Drafting Unit := do
  let name ← lift (Tables.node (row.get? "Node") [.field "nodes", .index i, .field "Node"])
  touch name
  match row.get? "AS" with
  | some (.num n) =>
    match n.toInt? with
    | some asn => update name fun d => { d with asn := some asn }
    | none => pure ()
  | _ => pure ()

/-- What a declaration adds. -/
inductive Declared where
  | policy (p : Policy)
  | list (lines : List ListLine)
  | set (members : Expr)
  | sessions (neighbors : List Tables.Neighbor)

/-- A community set has to come down to a literal. -/
def communitySet (keep : Bool) (body : Json) (place : Location) : Outcome Expr := do
  let set ← Outcome.under place (Encoding.readExpr keep body)
  match set.simplify.communities? with
  | some _ => .ok set.simplify
  | none => .error (.table .notCommunities place)

def declared (keep : Bool) (node name : String) (body : Table Json) (place : Location) :
    Tables.StructureType → Outcome Declared
  | .routingPolicy => do
    let here := place ++ [.field "statements"]
    let statements ← Outcome.under here
      (Encoding.readStatements keep ((body.get? "statements").getD .null))
    .ok (.policy ⟨name, statements⟩)
  | .routeFilterList => do
    let lines ← Tables.filterList body place
    .ok (.list lines)
  | .communitySet => do
    let set ← communitySet keep (.obj body) place
    .ok (.set set)
  | .vrf => do
    let sessions ← Tables.neighbors node body place
    .ok (.sessions sessions)

/-- Adds what a declaration declares; of two declarations of a name the later counts. -/
def declare (node name : String) : Declared → Drafting Unit
  | .policy p => update node fun d => { d with policies := d.policies.put name p }
  | .list lines => update node fun d =>
      { d with definitions := { d.definitions with lists := d.definitions.lists.put name lines } }
  | .set members => update node fun d =>
      { d with definitions := { d.definitions with sets := d.definitions.sets.put name members } }
  | .sessions neighbors => modify fun s => { s with sessions := s.sessions ++ neighbors }

def declarationRow (keep : Bool) (i : Nat) (row : Table Json) : Drafting Unit := do
  let place : Location := [.field "declarations", .index i]
  let node ← lift (Tables.node (row.get? "Node") (place ++ [.field "Node"]))
  let type ← lift (Tables.text row "Structure_Type" place)
  let name ← lift (Tables.text row "Structure_Name" place)
  touch node
  match Tables.StructureType.ofName? type with
  | none =>
    log (.debug "Skipping non-policy structure"
      [("node", .str node), ("type", .str type), ("structure", .str name)])
  | some kind =>
    let place := place ++ [.field "Structure_Definition", .field "value"]
    let definition := (row.get? "Structure_Definition").bind Json.members?
    match (definition.bind (·.get? "value")).bind Json.members? with
    | none =>
      throw ⟨.malformed (.table .missingDefinition) place, Context.nodePolicy node name⟩
    | some body =>
      let found ← lift (Outcome.inContext (Context.nodePolicy node name)
        (declared keep node name body place kind))
      declare node name found

/-- Writes the definitions of a node out in its policies. -/
def inlinePolicies (node : String) (defs : Definitions) : Table Policy → Outcome (Table Policy)
  | [] => .ok []
  | (name, p) :: rest => do
    let p ← Outcome.inContext (Context.nodePolicy node name) (p.inline defs)
    let others ← inlinePolicies node defs rest
    .ok ((name, p) :: others)

def inlineDraft (_ : Nat) (entry : String × Draft) : Drafting Unit := do
  let (name, d) := entry
  let policies ← lift (inlinePolicies name d.definitions d.policies)
  update name fun d => { d with policies := policies }

/-- A row of the table of interfaces: the chains that are bound directly. -/
def interfaceRow (i : Nat) (row : Table Json) : Drafting Unit := do
  let place : Location := [.field "interfaces", .index i]
  let e ← lift (Tables.endpoint (row.get? "Interface") (place ++ [.field "Interface"]))
  touch e.node
  let imports ← lift
    (Tables.policyNames (row.get? "Import_Policy") (place ++ [.field "Import_Policy"]))
  let exports ← lift
    (Tables.policyNames (row.get? "Export_Policy") (place ++ [.field "Export_Policy"]))
  update e.node fun d => { d with interfaces := d.interfaces.put e.interface ⟨imports, exports⟩ }

/-- The network of an address and a mask length. -/
def interfaceNetwork (address : String) (mask : Option Json) : Option Network :=
  match mask with
  | some (.num n) => n.toNat?.bind (Network.ofInterface? address)
  | _ => none

/-- A row of the table of addresses. An address that is not in use counts for nothing. -/
def addressRow (i : Nat) (row : Table Json) : Drafting Unit := do
  let place : Location := [.field "ips", .index i]
  match row.get? "Active" with
  | some (.bool false) => pure ()
  | _ => do
    let name ← lift (Tables.node (row.get? "Node") (place ++ [.field "Node"]))
    let address ← lift (Tables.text row "IP" place)
    match interfaceNetwork address (row.get? "Mask") with
    | none => throw ⟨.malformed (.table .invalidAddress) place, Context.node name⟩
    | some network => do
      modify fun s => { s with owners := s.owners.put address name }
      update name fun d =>
        if d.networks.contains network.text then d
        else { d with networks := d.networks ++ [network.text] }

/-- A row of the table of links. -/
def linkRow (i : Nat) (row : Table Json) : Drafting Unit := do
  let place : Location := [.field "topology", .index i]
  let source ← lift (Tables.endpoint (row.get? "Interface") (place ++ [.field "Interface"]))
  let target ← lift
    (Tables.endpoint (row.get? "Remote_Interface") (place ++ [.field "Remote_Interface"]))
  ensureInterface source
  ensureInterface target
  modify fun s => { s with edges := s.edges ++ [⟨source, target⟩] }

/-- A chain with one more policy, unless there is none or the chain has it. -/
def appendPolicy (chain : List String) : Option String → List String
  | none => chain
  | some policy => if chain.contains policy then chain else chain ++ [policy]

/-- Binds the policies of a session to an interface. -/
def bind (e : Endpoint) (n : Tables.Neighbor) : Drafting Unit :=
  update e.node fun d =>
    let old := (d.interfaces.get? e.interface).getD .empty
    let chains : Chains :=
      ⟨appendPolicy old.imports n.importPolicy, appendPolicy old.exports n.exportPolicy⟩
    { d with interfaces := d.interfaces.put e.interface chains }

/-- The AS number a session gives its own node; the first one counts. -/
def localAsn (n : Tables.Neighbor) : Drafting Unit := do
  touch n.node
  match n.localAs, ((← get).draft n.node).asn with
  | some asn, none => update n.node fun d => { d with asn := some asn }
  | some asn, some known =>
    if known = asn then pure ()
    else log (.warn "Node has more than one AS number"
      [("node", .str n.node), ("asn", .int known), ("other", .nat asn)])
  | none, _ => pure ()

/-- The name of a peer outside: its AS number, else its address. -/
def peerName (n : Tables.Neighbor) : String :=
  match n.remoteAs with
  | some asn => (Number.ofNat asn).text
  | none => n.peer

/-- A session with a peer outside gets an external node and edges both ways. -/
def externalSession (n : Tables.Neighbor) : Drafting Unit := do
  let name := peerName n
  touch name
  let peer := (← get).draft name
  if !peer.external && peer.isUsed then
    throw ⟨.malformed (.table .peerNamedLikeNode) [], Context.node name⟩
  else do
    update name fun d =>
      { d with external := true, asn := (n.remoteAs.map Int.ofNat).or d.asn }
    let near : Endpoint := ⟨n.node, "bgp-" ++ n.peer⟩
    let far : Endpoint := ⟨name, "bgp-" ++ n.localIp.getD n.node⟩
    bind near n
    ensureInterface far
    modify fun s => { s with edges := s.edges ++ [⟨near, far⟩, ⟨far, near⟩] }

/-- A session with a node inside is bound to the first link that leads there. -/
def session (_ : Nat) (n : Tables.Neighbor) : Drafting Unit := do
  localAsn n
  let s ← get
  match s.owners.get? n.peer with
  | none => externalSession n
  | some owner =>
    match s.edges.find? fun e => e.source.node = n.node && e.target.node = owner with
    | some link => bind link.source n
    | none =>
      log (.warn "BGP neighbor has no link" [("node", .str n.node), ("peer", .str n.peer)])

/-- Drafts all parts and checks that they make a topology. -/
def topology (keep : Bool) (raw : Json) : Drafting Topology := do
  match raw.members? with
  | none => throw (.table .expectedTables [])
  | some raw => do
    let table (name : String) (required : Bool) : Drafting (List (Table Json)) :=
      lift (Tables.rows raw name required)
    forEach nodeRow 0 (← table "nodes" false)
    forEach (declarationRow keep) 0 (← table "declarations" true)
    forEach inlineDraft 0 (← get).drafts
    forEach interfaceRow 0 (← table "interfaces" true)
    forEach addressRow 0 (← table "ips" true)
    forEach linkRow 0 (← table "topology" true)
    forEach session 0 (← get).sessions
    let issues ← table "issues" false
    if issues.isEmpty then pure ()
    else log (.warn "Analysis service reported initialization issues"
      [("count", .nat issues.length)])
    let s ← get
    log (.debug "Built topology"
      [("nodes", .nat s.drafts.length), ("edges", .nat s.edges.length)])
    lift (Topology.create (s.drafts.map fun (name, d) => d.toNode name) s.edges)

end Drafting

/-- The topology of analysis tables, and what there was to tell about them. -/
def Topology.ofTables (keep : Bool) (raw : Json) : Outcome Topology × List LogEntry :=
  let (result, s) := (Drafting.topology keep raw).run.run .empty
  (result, s.log)

end RoutePolicy
