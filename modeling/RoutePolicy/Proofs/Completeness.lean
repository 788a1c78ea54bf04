import Mathlib.Logic.Relation
import RoutePolicy.Proofs.Concrete
import RoutePolicy.Proofs.ConditionKeys
import RoutePolicy.Proofs.Saturation

/-!
Walks that propagation follows. A record that walks to a node is described by a variant that arrives
there, as long as at every node that it leaves a variant is kept that describes it.
-/

set_option autoImplicit false

namespace RoutePolicy

/-- The run of propagation for a query: the variants it starts from and the state it rests in. -/
structure Topology.Propagates [Arithmetic] (t : Topology) (limits : Limits) (q : Query)
    (origins : List Variant) (s : Propagation.State) : Prop where
  starts : q.origins t = .ok origins
  rests : Propagation.settle t limits (Propagation.start origins) = .ok s

/-- The integers of a condition are all in the range in which no number is rounded. -/
def Expr.IsSafe (e : Expr) : Prop :=
  e.Each fun c => ∀ i ∈ c.ownIntegers, i.natAbs ≤ Number.maxSafe

theorem Expr.IsSafe.printed {e : Expr} {expected : ValueType} (safe : e.IsSafe)
    (residual : e.ResidualOf expected) : e.Each Printed :=
  fun c member => ⟨(residual.1 c member).proper.supported, safe c member⟩

/-- Edges lead from a node to another one, or nowhere. -/
def Edge.Leads (edges : List Edge) : String → String → Prop :=
  Relation.ReflTransGen fun node next =>
    ∃ edge ∈ edges, edge.source.node = node ∧ edge.target.node = next

namespace Topology

variable [Arithmetic] (t : Topology) (limits : Limits) (q : Query)

/-- A variant that arrives at its node while the query is answered. -/
def Arrives (w : Variant) : Prop :=
  ∃ origins s, t.Propagates limits q origins s ∧ Propagation.Arrives t limits origins s w

/-- A record is overtaken at a node: a variant that describes it arrives, but all variants that the
node keeps describe other records. -/
def Overtaken (route : Route) (node : String) (r : Record) : Prop :=
  ∃ origins s, t.Propagates limits q origins s ∧
    (∃ w, Propagation.Arrives t limits origins s w ∧ w.node = node ∧ w.Describes route r) ∧
    ∀ kept ∈ s.variants, kept.node = node → ¬kept.Describes route r

/-- No record of a route is overtaken at a node or where edges lead to the node from. -/
def ClearAt (route : Route) (node : String) : Prop :=
  ∀ mid r, Edge.Leads t.edges mid node → ¬t.Overtaken limits q route mid r

/-- A walk that leaves nodes only with records that have a property. -/
inductive WalkWithin (limit : Int) (inside : String → Record → Prop) (origin : String)
    (start : Record) : String → Record → Prop where
  | here : WalkWithin limit inside origin start origin start
  | hop {node : String} {r s : Record} {edge : Edge}
      (before : WalkWithin limit inside origin start node r) (within : inside node r)
      (known : edge ∈ t.edges) (leaves : edge.source.node = node)
      (crosses : t.Crosses limit edge r s) :
      WalkWithin limit inside origin start edge.target.node s

/-- What chains that do not fail make of a record at an edge: they accept it, and it becomes what
another record is at the route. -/
def Passes (limit : Int) (route : Route) (edge : Edge) (r s : Record) : Prop :=
  ∀ left, evaluateChain ⟨[], limit, t.policies edge.source.node⟩ (t.exportChain edge.source) r =
      .ok [left] →
    left.disposition = .accept ∧
    ∀ entered, evaluateChain ⟨[], limit, t.policies edge.target.node⟩ (t.importChain edge.target)
        left.record = .ok [entered] →
      entered.disposition = .accept ∧
      ∀ v : Record, v.ComesTo route entered.record → v.ComesTo route s

variable {t limits q} {answer : Answer}

theorem ask_ok : t.ask limits q = .ok answer ↔
    ∃ origins s, t.Propagates limits q origins s ∧ answer = Propagation.answer t q s := by
  constructor
  · intro asked
    obtain ⟨origins, starts, asked⟩ := Outcome.bind_ok.mp asked
    obtain ⟨s, rests, same⟩ := Outcome.bind_ok.mp asked
    cases same
    exact ⟨origins, s, ⟨starts, rests⟩, rfl⟩
  · rintro ⟨origins, s, ran, rfl⟩
    exact Outcome.bind_ok.mpr ⟨origins, ran.starts, Outcome.bind_ok.mpr ⟨s, ran.rests, rfl⟩⟩

theorem Propagates.unique {origins others : List Variant} {s s' : Propagation.State}
    (ran : t.Propagates limits q origins s) (other : t.Propagates limits q others s') :
    others = origins ∧ s' = s := by
  obtain ⟨starts, rests⟩ := other
  rw [ran.starts] at starts
  cases starts
  rw [ran.rests] at rests
  cases rests
  exact ⟨rfl, rfl⟩

/-- A record that crosses an edge passes it. -/
theorem Crosses.passes {limit : Int} {route : Route} {edge : Edge} {r s : Record}
    (crosses : t.Crosses limit edge r s) : t.Passes limit route edge r s := by
  obtain ⟨gone, arrived, exported, accepted, imported, admitted, same⟩ := crosses
  intro left ran
  rw [exported] at ran
  cases ran
  refine ⟨accepted, fun entered reran => ?_⟩
  rw [imported] at reran
  cases reran
  exact ⟨admitted, fun v comes => same ▸ comes⟩

/-- A walk is within what holds of all records at the nodes from which edges lead to its end. -/
theorem Walk.within {limit : Int} {inside : String → Record → Prop} {origin node : String}
    {start last : Record} (walk : t.Walk limit origin start node last)
    (upstream : ∀ mid r, Edge.Leads t.edges mid node → inside mid r) :
    t.WalkWithin limit inside origin start node last := by
  induction walk with
  | here => exact .here
  | @hop node r _ edge before known leaves crosses within =>
      have next : Edge.Leads t.edges node edge.target.node :=
        .single ⟨edge, known, leaves, rfl⟩
      refine .hop (within fun mid r leads => upstream mid r (leads.trans next)) ?_ known leaves
        crosses
      exact upstream node r next

end Topology

namespace Query

variable {t : Topology} {q : Query} {target : Network} {route : Route}

/-- A node at which a route begins has an origin that describes its record. -/
theorem origins_describe {origins : List Variant} (found : q.network = .ok target)
    (starts : q.origins t = .ok origins) {n : Node} (listed : n ∈ t.nodes) {start : Record}
    (begins : q.Begins target route n start) :
    ∃ v ∈ origins, v.node = n.name ∧ v.Describes route start := by
  obtain ⟨_, _, starts⟩ := Outcome.bind_ok.mp starts
  obtain ⟨target', found', starts⟩ := Outcome.bind_ok.mp starts
  rw [found] at found'
  cases found'
  obtain ⟨originated, given, starts⟩ := Outcome.bind_ok.mp starts
  obtain ⟨announced, arbitrary, same⟩ := Outcome.bind_ok.mp starts
  cases same
  cases begins with
  | announced external =>
      have origin : origin? target announced originated n =
          some ⟨n.name, .bool true, announced, []⟩ := by simp [origin?, external]
      exact ⟨_, List.mem_filterMap.mpr ⟨n, listed, origin⟩, rfl, rfl,
        (Record.ofGiven_ok arbitrary).2 route⟩
  | originated inside owned =>
      have origin : origin? target announced originated n =
          some ⟨n.name, .bool true, originated, []⟩ := by simp [origin?, inside, owned]
      exact ⟨_, List.mem_filterMap.mpr ⟨n, listed, origin⟩, rfl, rfl,
        (Record.ofGiven_ok given).2 route⟩

end Query

namespace Topology.Propagates

variable [Arithmetic] {t other : Topology} {limits : Limits} {q : Query} {target : Network}
  {origins : List Variant} {s : Propagation.State} {route : Route} {limit : Int}

/-- A kept variant sends one over an edge that describes what a record becomes there. -/
theorem arrives_of_passes (exact : ∀ i : Int, Arithmetic.round i = i) (usable : t.Usable)
    (ran : t.Propagates limits q origins s) (found : q.network = .ok target) (room : 1 ≤ limit)
    {v : Variant} (kept : v ∈ s.variants) {edge : Edge} (known : edge ∈ t.edges)
    (leaves : edge.source.node = v.node) {r last : Record} (describes : v.Describes route r)
    (passes : t.Passes limit route edge r last) :
    ∃ w, Propagation.Arrives t limits origins s w ∧ w.node = edge.target.node ∧
      w.Describes route last := by
  have justified := Propagation.settle_justified exact usable found ran.starts ran.rests v kept
  have inside := Propagation.mem_edgesFrom.mpr ⟨known, leaves⟩
  obtain ⟨cs, crossed, _⟩ := Propagation.settle_sent ran.rests kept inside
  obtain ⟨left, exported, leaving⟩ := justified.follows exact usable crossed describes room
  obtain ⟨accepted, entering⟩ := passes left exported
  obtain ⟨entered, imported, arriving⟩ := leaving accepted
  obtain ⟨admitted, resembles⟩ := entering entered imported
  obtain ⟨w, arrived, node, holds, comes⟩ := arriving admitted
  exact ⟨w, .inr ⟨v, kept, edge, inside, cs, crossed, arrived⟩, node, holds, resembles _ comes⟩

/-- Where a record is not overtaken, the node keeps a variant that describes it. -/
theorem kept_of_not_overtaken (ran : t.Propagates limits q origins s) {node : String} {r : Record}
    (arrives : ∃ w, Propagation.Arrives t limits origins s w ∧ w.node = node ∧ w.Describes route r)
    (within : ¬t.Overtaken limits q route node r) :
    ∃ v ∈ s.variants, v.node = node ∧ v.Describes route r := by
  by_contra nothing
  push Not at nothing
  exact within ⟨origins, s, ran, arrives, nothing⟩

/-- Along a walk of another topology, the crossings of which this one lets pass, a variant arrives
at every node, unless the record is overtaken at a node that it leaves. -/
theorem arrives_of_walk (exact : ∀ i : Int, Arithmetic.round i = i) (usable : t.Usable)
    (ran : t.Propagates limits q origins s) (found : q.network = .ok target) (room : 1 ≤ limit)
    (edges : other.edges = t.edges)
    (passes : ∀ edge r s, r.Concrete → other.Crosses limit edge r s →
      t.Passes limit route edge r s)
    {n : Node} (listed : n ∈ t.nodes) {start : Record} (begins : q.Begins target route n start)
    {node : String} {last : Record}
    (walk : other.WalkWithin limit (fun node r => ¬t.Overtaken limits q route node r) n.name start
      node last) :
    ∃ w, Propagation.Arrives t limits origins s w ∧ w.node = node ∧ w.Describes route last := by
  induction walk with
  | here =>
      obtain ⟨v, member, node, describes⟩ :=
        Query.origins_describe found ran.starts listed begins
      exact ⟨v, .inl member, node, describes⟩
  | @hop node r _ edge before within known leaves crosses ih =>
      obtain ⟨v, member, here, describes⟩ := ran.kept_of_not_overtaken ih within
      have justified := Propagation.settle_justified exact usable found ran.starts ran.rests v member
      have concrete := describes.comes.concrete justified.record
      exact ran.arrives_of_passes exact usable found room member (edges ▸ known)
        (leaves.trans here.symm) describes (passes edge r _ concrete crosses)

/-- Where a variant arrives whose condition is true of a route, the node's condition is true of it.
The node may keep another variant, but only one with the same condition. -/
theorem predicate_of_arrives (exact : ∀ i : Int, Arithmetic.round i = i) (usable : t.Usable)
    (ran : t.Propagates limits q origins s) (found : q.network = .ok target)
    (safe : ∀ w, t.Arrives limits q w → w.condition.IsSafe) {w : Variant}
    (arrives : Propagation.Arrives t limits origins s w) (holds : w.condition.holdsAt route = true) :
    (Propagation.predicate s w.node).holdsAt route = true := by
  have justified := Propagation.settle_justified exact usable found ran.starts ran.rests
  obtain ⟨kept, member, node, key⟩ := Propagation.settle_keeps ran.rests arrives
  have keptArrives : t.Arrives limits q kept :=
    ⟨origins, s, ran, Propagation.arrives_of_kept ran.rests member⟩
  have residual : w.condition.ResidualOf .boolean := by
    rcases arrives with first | ⟨v, before, edge, inside, cs, crossed, arrived⟩
    · exact (Query.origins_justified found ran.starts w first).condition
    · obtain ⟨known, leaves⟩ := Propagation.mem_edgesFrom.mp inside
      exact ((justified v before).arrival exact usable known leaves crossed arrived).condition
  have same : Expr.same kept.condition w.condition = true :=
    Expr.same_of_key ((safe kept keptArrives).printed (justified kept member).condition)
      ((safe w ⟨origins, s, ran, arrives⟩).printed residual) key
  refine (Propagation.predicate_holds fun v member => (justified v member).condition).mpr
    ⟨kept, member, node, ?_⟩
  rw [Expr.holdsAt, Expr.valueAt, Expr.same_value same]
  exact holds

end Topology.Propagates

end RoutePolicy
