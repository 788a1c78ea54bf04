import RoutePolicy.Execution
import RoutePolicy.Topology

/-!
Reachability queries and their answers.
-/

set_option autoImplicit false

namespace RoutePolicy

/-- Which routes for a destination reach the nodes of a topology. -/
structure Query where
  /-- An address or a network. -/
  destination : String
  /-- The node that decides the answer; all nodes decide it when none is named. -/
  source : Option String
  /-- Attributes of the route that is originated, in the order given. -/
  route : Option (List Given)
  trace : Option Bool
  /-- What the route was given besides; it decides nothing and is only repeated with the query. -/
  remarks : Table Json := []

namespace Query

def routeJson (values : List Given) (remarks : Table Json) : Json :=
  .obj ((values.map fun given => (given.name.name, given.toJson)) ++ remarks)

def toJson (q : Query) : Json :=
  .obj ([("kind", .str "reachable"), ("destination", .str q.destination)] ++
    (q.source.toList.map fun node => ("source", .str node)) ++
    (q.route.toList.map fun values => ("route", routeJson values q.remarks)) ++
    (q.trace.toList.map fun trace => ("trace", .bool trace)))

/-- One text for all ways to give the route's attributes. -/
def canonical (q : Query) : String := q.toJson.canonical

end Query

/-- Whether a hop is the sender's or the receiver's part of crossing an edge. -/
inductive Direction where
  | leaving
  | entering
deriving DecidableEq

def Direction.name : Direction → String
  | leaving => "export"
  | entering => "import"

/-- A chain of policies a route went through on its way over an edge. -/
structure Hop where
  edge : Edge
  direction : Direction
  policies : List String
  accepted : Bool
  events : List Event

namespace Hop

def endpointJson (e : Endpoint) : Json := .strs [e.node, e.interface]

def toJson (h : Hop) : Json :=
  .obj [("from", endpointJson h.edge.source), ("to", endpointJson h.edge.target),
    ("direction", .str h.direction.name), ("policies", .strs h.policies),
    ("disposition", .str (if h.accepted then "accept" else "reject")),
    ("steps", .arr (h.events.map Event.toJson))]

end Hop

/-- The answer to a query. -/
structure Answer where
  query : Query
  accepted : Bool
  /-- The condition under which the deciding nodes are reached. -/
  witness : Expr
  /-- For every node the condition under which it is reached. -/
  predicates : Table Expr
  iterations : Nat
  trace : Option (List Hop)

namespace Answer

def disposition (a : Answer) : Disposition := if a.accepted then .accept else .reject

def toJson (a : Answer) : Json :=
  .obj ([("query", a.query.toJson), ("disposition", .str a.disposition.name),
      ("witness", Encoding.writeExpr a.witness),
      ("nodes", .object (a.predicates.map fun (name, e) => (name, Encoding.writeExpr e))),
      ("iterations", .nat a.iterations)] ++
    (a.trace.toList.map fun hops => ("trace", .arr (hops.map Hop.toJson))))

end Answer

/-- The bounds of a query. -/
structure Limits where
  iterations : Int
  paths : Int

namespace Limits

def default : Limits := ⟨10000, Execution.defaultLimit⟩

end Limits

/-- One answer of several. -/
structure BatchEntry where
  query : Query
  result : Outcome Answer

namespace BatchEntry

def status (e : BatchEntry) : String :=
  match e.result with
  | .ok _ => "ok"
  | .error f => if f.code = .cycleBound then "inconclusive" else "error"

def toJson (e : BatchEntry) : Json :=
  .obj ([("query", e.query.toJson), ("status", .str e.status)] ++
    match e.result with
    | .ok answer => [("result", answer.toJson)]
    | .error f =>
      [("error", .obj [("code", .str f.code.text), ("message", .str f.message),
        ("context", .object (f.context.map fun (frame, name) => (frame, .str name)))])])

end BatchEntry

end RoutePolicy
