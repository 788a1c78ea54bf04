import RoutePolicy.Definitions
import RoutePolicy.Encoding.Reader
import RoutePolicy.Text.Lower
import RoutePolicy.Topology

/-!
The answer tables of the analysis service: rows, cells, and the structures that declarations hold.
-/

set_option autoImplicit false

namespace RoutePolicy.Tables

/-- The rows of a table, from a position on. -/
def rowsFrom (table : String) (i : Nat) : List Json → Outcome (List (Table Json))
  | [] => .ok []
  | j :: rest =>
    match j.members? with
    | none => .error (.table .expectedRow [.field table, .index i])
    | some row => do
      let others ← rowsFrom table (i + 1) rest
      .ok (row :: others)

/-- The rows of a table. Only an optional one may be missing. -/
def rows (raw : Table Json) (table : String) (required : Bool) : Outcome (List (Table Json)) :=
  match raw.get? table with
  | some (.arr items) => rowsFrom table 0 items
  | none => if required then .error (.table (.notArray table) [.field table]) else .ok []
  | some _ => .error (.table (.notArray table) [.field table])

def text (row : Table Json) (key : String) (place : Location) : Outcome String :=
  match row.get? key with
  | some (.str text) => .ok text
  | _ => .error (.table (.notString key) (place ++ [.field key]))

/-- A cell that names a node, by itself or in an object. -/
def node (cell : Option Json) (place : Location) : Outcome String :=
  match cell with
  | some (.str name) => .ok name
  | some j =>
    match (j.members?).bind (·.get? "name") with
    | some (.str name) => .ok name
    | _ => .error (.table .expectedNode place)
  | none => .error (.table .expectedNode place)

/-- A cell that names an interface of a node. -/
def endpoint (cell : Option Json) (place : Location) : Outcome Endpoint :=
  match cell.bind Json.members? with
  | some ms =>
    match ms.get? "hostname", ms.get? "interface" with
    | some (.str node), some (.str interface) => .ok ⟨node, interface⟩
    | _, _ => .error (.table .expectedInterface place)
  | none => .error (.table .expectedInterface place)

def optionalText (row : Table Json) (key : String) (place : Location) : Outcome (Option String) :=
  match row.get? key with
  | none => .ok none
  | some .null => .ok none
  | some (.str text) => .ok (some text)
  | some _ => .error (.table (.notString key) (place ++ [.field key]))

/-- An AS number, as a number or as its decimal text. -/
def asn? : Json → Option Nat
  | .num n => n.toNat?
  | .str text =>
    let digits := text.toList
    if digits ≠ [] ∧ digits.all Text.isDigit then
      (Number.ofScientific false (Text.digitsValue digits) 0).toNat?
    else none
  | _ => none

def optionalAsn (row : Table Json) (key : String) (place : Location) : Outcome (Option Nat) :=
  match row.get? key with
  | none => .ok none
  | some .null => .ok none
  | some j =>
    match asn? j with
    | some asn => .ok (some asn)
    | none => .error (.table (.notAsn key) (place ++ [.field key]))

/-- A cell that lists policies; a missing one lists none. -/
def policyNames (cell : Option Json) (place : Location) : Outcome (List String) :=
  match cell with
  | none => .ok []
  | some .null => .ok []
  | some (.arr items) => names 0 items
  | some _ => .error (.table .expectedPolicyList place)
where
  names (i : Nat) : List Json → Outcome (List String)
    | [] => .ok []
    | .str name :: rest => do
      let others ← names (i + 1) rest
      .ok (name :: others)
    | _ :: _ => .error (.table .expectedPolicyName (place ++ [.index i]))

/-- A line of a route filter list: an action in any case, a network and the lengths it matches. -/
def listLine (j : Json) (place : Location) : Outcome ListLine :=
  match j.members? with
  | none => .error (.table .expectedLine place)
  | some line => do
    let word := Text.lower (← text line "action" place)
    match Action.ofName? word with
    | none => .error (.table (.unknownAction word) (place ++ [.field "action"]))
    | some action => do
      let lengths ← text line "lengthRange" place
      let network ← text line "ipWildcard" place
      let bounds := if lengths.toList.contains '-' then lengths else s!"{lengths}-{lengths}"
      let range := s!"{network}:{bounds}"
      if (NetworkRange.parse? range).isSome then .ok ⟨action, range⟩
      else .error (.table (.invalidRange range) place)

def listLines (place : Location) (i : Nat) : List Json → Outcome (List ListLine)
  | [] => .ok []
  | j :: rest => do
    let line ← listLine j (place ++ [.index i])
    let others ← listLines place (i + 1) rest
    .ok (line :: others)

/-- The lines of a route filter list. -/
def filterList (body : Table Json) (place : Location) : Outcome (List ListLine) :=
  match body.get? "lines" with
  | some (.arr items) => listLines (place ++ [.field "lines"]) 0 items
  | _ => .error (.table .expectedLines (place ++ [.field "lines"]))

/-- A BGP session as one of its nodes configures it. -/
structure Neighbor where
  node : String
  peer : String
  localIp : Option String
  localAs : Option Nat
  remoteAs : Option Nat
  importPolicy : Option String
  exportPolicy : Option String

/-- The policies of the address family, if the session has one. -/
def familyPolicies (config : Table Json) (place : Location) :
    Outcome (Option String × Option String) :=
  match (config.get? "ipv4UnicastAddressFamily").bind Json.members? with
  | none => .ok (none, none)
  | some family => do
    let place := place ++ [.field "ipv4UnicastAddressFamily"]
    let importPolicy ← optionalText family "importPolicy" place
    let exportPolicy ← optionalText family "exportPolicy" place
    .ok (importPolicy, exportPolicy)

/-- The part of a key before a slash. -/
def beforeSlash (key : String) : String :=
  match Text.cut '/' key.toList with
  | some (before, _) => String.ofList before
  | none => key

/-- A session. Its peer's address is given, or else is the key, which may carry a length. -/
def neighbor (node key : String) (j : Json) (place : Location) : Outcome Neighbor :=
  match j.members? with
  | none => .error (.table .expectedNeighbor place)
  | some config => do
    let peer ← optionalText config "peerAddress" place
    let peer := peer.getD (beforeSlash key)
    if (Address.parse? peer).isNone then .error (.table (.invalidPeer peer) place)
    else do
      let localIp ← optionalText config "localIp" place
      let localAs ← optionalAsn config "localAs" place
      let remoteAs ← optionalAsn config "remoteAsns" place
      let (importPolicy, exportPolicy) ← familyPolicies config place
      .ok ⟨node, peer, localIp, localAs, remoteAs, importPolicy, exportPolicy⟩

def neighborTable (node : String) (place : Location) : Table Json → Outcome (List Neighbor)
  | [] => .ok []
  | (key, j) :: rest => do
    let first ← neighbor node key j (place ++ [.field key])
    let others ← neighborTable node place rest
    .ok (first :: others)

/-- The sessions of a routing instance, which need not run BGP. -/
def neighbors (node : String) (body : Table Json) (place : Location) : Outcome (List Neighbor) :=
  match body.get? "bgpProcess" with
  | none => .ok []
  | some .null => .ok []
  | some process =>
    let place := place ++ [.field "bgpProcess"]
    match process.members? with
    | none => .error (.table .expectedProcess place)
    | some process =>
      let place := place ++ [.field "neighbors"]
      match process.get? "neighbors" with
      | none => .ok []
      | some .null => .ok []
      | some table =>
        match table.members? with
        | none => .error (.table .expectedNeighbors place)
        | some table => neighborTable node place table

/-- The kinds of declarations that matter. -/
inductive StructureType where
  | routingPolicy
  | routeFilterList
  | communitySet
  | vrf
deriving DecidableEq

def StructureType.ofName? (word : String) : Option StructureType :=
  if word = "Routing_Policy" then some routingPolicy
  else if word = "Route_Filter_List" then some routeFilterList
  else if word = "Community_Set" then some communitySet
  else if word = "VRF" then some vrf
  else none

end RoutePolicy.Tables
