import RoutePolicy.Encoding.Reader
import RoutePolicy.Topology

/-!
The condensed document of a topology: all nodes with the chains of their interfaces written out, and
the edges. Policies that are only called are listed apart. The digest of its canonical text
identifies a topology.
-/

set_option autoImplicit false

namespace RoutePolicy

namespace Condensed

def version : Nat := 1

/-- An interface: its import chain and its export chain. -/
def writeChains (n : Node) (c : Chains) : Json :=
  .obj [("import", .arr ((n.chain c.imports).map Encoding.writePolicy)),
    ("export", .arr ((n.chain c.exports).map Encoding.writePolicy))]

def writeNode (n : Node) : Json :=
  let called := n.calledOnly
  .obj ([("prefixes", .strs n.networks),
      ("interfaces", .object (n.interfaces.map fun (name, c) => (name, writeChains n c)))] ++
    (n.asn.toList.map fun asn => ("asn", .int asn)) ++
    (if n.external then [("external", .bool true)] else []) ++
    (if called.isEmpty then []
     else [("policies", .object (called.map fun p => (p.name, Encoding.writePolicy p)))]))

def writeEndpoint (e : Endpoint) : Json := .strs [e.node, e.interface]

def writeEdge (e : Edge) : Json := .arr [writeEndpoint e.source, writeEndpoint e.target]

end Condensed

namespace Topology

/-- The condensed document. -/
def toJson (t : Topology) : Json :=
  .obj [("version", .nat Condensed.version),
    ("nodes", .object (t.nodes.map fun n => (n.name, Condensed.writeNode n))),
    ("edges", .arr (t.edges.map Condensed.writeEdge))]

/-- The text two topologies share when they may share answers. -/
def canonical (t : Topology) : String := t.toJson.canonical

def fingerprint (t : Topology) : String := Digest.sha256 t.canonical

end Topology

namespace Condensed

def object (j : Option Json) (place : Location) : Outcome (Table Json) :=
  match j.bind Json.members? with
  | some ms => .ok ms
  | none => .error (.condensed .expectedObject place)

def array (j : Option Json) (place : Location) : Outcome (List Json) :=
  match j with
  | some (.arr items) => .ok items
  | _ => .error (.condensed .expectedArray place)

def readEndpoint (place : Location) : Json → Outcome Endpoint
  | .arr [.str node, .str interface] => .ok ⟨node, interface⟩
  | _ => .error (.condensed .expectedEndpoint place)

def readEdge (place : Location) : Json → Outcome Edge
  | .arr [source, target] => do
    let source ← readEndpoint (place ++ [.index 0]) source
    let target ← readEndpoint (place ++ [.index 1]) target
    .ok ⟨source, target⟩
  | _ => .error (.condensed .expectedEdge place)

/-- Reads a policy into the table of its node. A name must always stand for the same statements. -/
def readPolicy (keep : Bool) (place : Location) (known : Table Policy) (j : Json) :
    Outcome (String × Table Policy) := do
  let p ← Outcome.under place (Encoding.readPolicy keep j)
  match known.get? p.name with
  | none => .ok (p.name, known ++ [(p.name, p)])
  | some other =>
    if Statement.sameAll other.statements p.statements then .ok (p.name, known)
    else .error ⟨.malformed (.condensed .conflictingPolicies) place, [("policy", p.name)]⟩

def readPolicies (keep : Bool) (place : Location) (i : Nat) (known : Table Policy) :
    List Json → Outcome (List String × Table Policy)
  | [] => .ok ([], known)
  | j :: rest => do
    let (name, known) ← readPolicy keep (place ++ [.index i]) known j
    let (names, known) ← readPolicies keep place (i + 1) known rest
    .ok (name :: names, known)

def readChain (keep : Bool) (place : Location) (known : Table Policy) (j : Option Json) :
    Outcome (List String × Table Policy) := do
  let items ← array j place
  readPolicies keep place 0 known items

def readInterface (keep : Bool) (place : Location) (known : Table Policy) (j : Json) :
    Outcome (Chains × Table Policy) := do
  let ms ← object (some j) place
  let (imports, known) ← readChain keep (place ++ [.field "import"]) known (ms.get? "import")
  let (exports, known) ← readChain keep (place ++ [.field "export"]) known (ms.get? "export")
  .ok (⟨imports, exports⟩, known)

def readInterfaces (keep : Bool) (node : String) (place : Location) (known : Table Policy) :
    Table Json → Outcome (Table Chains × Table Policy)
  | [] => .ok ([], known)
  | (name, j) :: rest => do
    let (chains, known) ← Outcome.inContext (Context.nodeInterface node name)
      (readInterface keep (place ++ [.field name]) known j)
    let (others, known) ← readInterfaces keep node place known rest
    .ok ((name, chains) :: others, known)

/-- Reads the policies that are listed by name. -/
def readListed (keep : Bool) (node : String) (place : Location) (known : Table Policy) :
    Table Json → Outcome (Table Policy)
  | [] => .ok known
  | (name, j) :: rest => do
    let here := place ++ [.field name]
    let (own, known) ← readPolicy keep here known j
    if own = name then readListed keep node place known rest
    else .error ⟨.malformed (.condensed .misnamedPolicy) here, Context.nodePolicy node name⟩

def readAsn (place : Location) : Option Json → Outcome (Option Int)
  | none => .ok none
  | some (.num n) =>
    match n.toNat? with
    | some asn => .ok (some asn)
    | none => .error (.condensed .invalidAsn place)
  | some _ => .error (.condensed .invalidAsn place)

def readNetworks (place : Location) (i : Nat) : List Json → Outcome (List String)
  | [] => .ok []
  | .str text :: rest => do
    let others ← readNetworks place (i + 1) rest
    .ok (text :: others)
  | _ :: _ => .error (.condensed .expectedNetwork (place ++ [.index i]))

def readExternal (place : Location) : Option Json → Outcome Bool
  | none => .ok false
  | some (.bool external) => .ok external
  | some _ => .error (.condensed .invalidExternal place)

def readNode (keep : Bool) (name : String) (j : Json) : Outcome Node := do
  let place : Location := [.field "nodes", .field name]
  let ms ← object (some j) place
  let asn ← readAsn (place ++ [.field "asn"]) (ms.get? "asn")
  let networks ← array (ms.get? "prefixes") (place ++ [.field "prefixes"])
  let networks ← readNetworks (place ++ [.field "prefixes"]) 0 networks
  let interfaces ← object (ms.get? "interfaces") (place ++ [.field "interfaces"])
  let (interfaces, known) ←
    readInterfaces keep name (place ++ [.field "interfaces"]) [] interfaces
  let known ← match ms.get? "policies" with
    | none => .ok known
    | some listed => do
      let listed ← object (some listed) (place ++ [.field "policies"])
      readListed keep name (place ++ [.field "policies"]) known listed
  let external ← readExternal (place ++ [.field "external"]) (ms.get? "external")
  .ok ⟨name, asn, networks, interfaces, Table.arrange known, external⟩

def readNodes (keep : Bool) : Table Json → Outcome (List Node)
  | [] => .ok []
  | (name, j) :: rest => do
    let n ← readNode keep name j
    let others ← readNodes keep rest
    .ok (n :: others)

def readEdges (i : Nat) : List Json → Outcome (List Edge)
  | [] => .ok []
  | j :: rest => do
    let edge ← readEdge [.field "edges", .index i] j
    let others ← readEdges (i + 1) rest
    .ok (edge :: others)

/-- The parts a condensed document holds. -/
def readParts (keep : Bool) (j : Json) : Outcome (List Node × List Edge) := do
  match j.members? with
  | none => .error (.condensed .expectedDocument [])
  | some ms =>
    let found := (ms.get? "version").getD .null
    if found.chars = (Json.nat version).chars then do
      let nodes ← object (ms.get? "nodes") [.field "nodes"]
      let nodes ← readNodes keep nodes
      let edges ← array (ms.get? "edges") [.field "edges"]
      let edges ← readEdges 0 edges
      .ok (nodes, edges)
    else .error (.condensed (.unsupportedVersion found) [.field "version"])

end Condensed

/-- The topology of a condensed document. -/
def Topology.ofJson (keep : Bool) (j : Json) : Outcome Topology := do
  let (nodes, edges) ← Condensed.readParts keep j
  create nodes edges

end RoutePolicy
