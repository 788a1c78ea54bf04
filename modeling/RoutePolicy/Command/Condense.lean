import RoutePolicy.Command.Help
import RoutePolicy.Command.Preparation
import RoutePolicy.Topology.Condensed
import RoutePolicy.Topology.Draft

/-!
The command that writes the condensed document of a topology, with simplified policies if asked to.
-/

set_option autoImplicit false

namespace RoutePolicy

/-- The policies of all nodes. -/
def Topology.allPolicies (t : Topology) : List Policy := t.nodes.flatMap (·.policies.values)

/-- The statements and expression nodes of all policies. -/
def Topology.size (t : Topology) : Nat :=
  t.allPolicies.foldr (fun p others => Statement.sizeAll p.statements + others) 0

namespace Command.Condense

def writtenEntry (output : String) (t : Topology) (simplified : Bool) (before : Nat) : LogEntry :=
  .info "Wrote condensed IR"
    [("output", .str output), ("nodes", .nat t.nodes.length), ("edges", .nat t.edges.length),
      ("policies", .nat t.allPolicies.length), ("simplified", .bool simplified),
      ("sizeBefore", .nat before), ("sizeAfter", .nat t.size)]

def simplifies (p : Prepared) : Bool :=
  p.arguments.hasFlag "simplify-bools" || p.settings.simplify

variable {m : Type → Type} [Monad m]

/-- The well-typed topology of the tables in a file. -/
def load (h : Host m) (p : Prepared) (input : String) : Run m Topology := do
  let raw ← h.readJson input
  let (topology, log) := Topology.ofTables (p.arguments.hasFlag "keep-unsupported") raw
  h.tellAll p.level log
  let topology ← Run.ofOutcome topology
  Run.ofOutcome topology.checkTypes
  pure topology

def run (h : Host m) (p : Prepared) : Run m Unit := do
  let subject ← p.subject simplifyUsage
  let input ← h.resolve subject
  let loaded ← load h p input
  let topology ← if simplifies p then Run.ofOutcome loaded.simplify else pure loaded
  let output ← (p.outputPath h (FileName.condensed input) : m String)
  h.writeJson output topology.toJson
  h.tell p.level (writtenEntry output topology (simplifies p) loaded.size)

end Command.Condense

end RoutePolicy
