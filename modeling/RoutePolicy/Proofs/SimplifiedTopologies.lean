import RoutePolicy.Proofs.ReachabilityComplete
import RoutePolicy.Proofs.SimplifiedPolicies

/-!
Simplification of topologies. Concrete records cross the same edges after it, so propagation finds
the same routes, as long as no record is overtaken by another one under the same condition.
-/

set_option autoImplicit false

namespace RoutePolicy

/-- A node with all policies simplified. -/
def Node.simplified (n : Node) : Node := { n with policies := n.policies.simplified }

namespace Topology

/-! ### Simplified topologies -/

/-- A topology with all policies simplified. -/
def simplified (t : Topology) : Topology := ⟨t.nodes.map Node.simplified, t.edges⟩

theorem simplify_ok {t u : Topology} (done : t.simplify = .ok u) : u = t.simplified :=
  create_ok done

theorem node?_simplified (t : Topology) (name : String) :
    t.simplified.node? name = (t.node? name).map Node.simplified := by
  unfold node? simplified
  rw [List.find?_map]
  rfl

theorem chains_simplified (t : Topology) (e : Endpoint) : t.simplified.chains e = t.chains e := by
  unfold chains
  rw [node?_simplified]
  cases t.node? e.node <;> rfl

theorem policies_simplified (t : Topology) (node : String) :
    t.simplified.policies node = (t.policies node).simplified := by
  unfold policies
  rw [node?_simplified]
  cases t.node? node <;> rfl

theorem chainOf_simplified (t : Topology) (e : Endpoint) (names : List String) :
    t.simplified.chainOf e names = (t.chainOf e names).map Policy.simplify := by
  unfold chainOf
  rw [node?_simplified]
  cases t.node? e.node with
  | none => rfl
  | some n =>
      change names.filterMap n.policies.simplified.get? =
        (names.filterMap n.policies.get?).map Policy.simplify
      rw [List.map_filterMap]
      congr 1
      funext name
      exact Table.get?_simplified n.policies name

/-- A topology all policies of which are checked. -/
def Checked (t : Topology) : Prop := ∀ n ∈ t.nodes, n.policies.Checked

theorem checked_of_loaded {t : Topology} (loaded : t.Loaded) (typed : t.WellTyped) :
    t.Checked := by
  intro n listed name p found
  have member := Table.mem_of_get? found
  exact (loaded.foldable n listed _ member).checked (typed n listed p (List.mem_map_of_mem member))

theorem Checked.usable {t : Topology} (checked : t.Checked) : t.Usable :=
  fun n listed => (checked n listed).usable

theorem Checked.simplified {t : Topology} (checked : t.Checked) : t.simplified.Checked :=
  List.forall_mem_map.mpr fun n listed => (checked n listed).simplified

end Topology

/-! ### Chains at edges -/

section

variable [Arithmetic] {route : Route}

/-- Alike records take one path each through a chain and the simplified one, to alike records. -/
theorem evaluateChain_alike (exact : ∀ i : Int, Arithmetic.round i = i) {table : Table Policy}
    (checkedTable : table.Checked) {policies : List Policy} (checked : ∀ p ∈ policies, p.Checked)
    {r c : Record} (alike : r.Alike route c) {limit : Int} (room : 1 ≤ limit) {path : Path}
    (run : evaluateChain ⟨[], limit, table⟩ policies r = .ok [path]) :
    ∃ known, evaluateChain ⟨[], limit, table.simplified⟩ (policies.map Policy.simplify) c =
      .ok [known] ∧ known.disposition = path.disposition ∧
        path.record.Alike route known.record := by
  have certain : ∀ e ∈ ([] : List Expr), e.ResidualOf .boolean := by simp
  have usable : ∀ p ∈ policies, p.Usable := fun p member => (checked p member).usable
  have partition := evaluateChain_partition ⟨[], limit, table⟩ certain checkedTable.usable usable
    alike.concrete.residual run
  have satisfied : ([] : List Expr).all (·.holdsAt route) = true := rfl
  obtain ⟨taken, single⟩ := partition.exactlyOne satisfied
  obtain ⟨member, holds⟩ := List.mem_filter.mp (single ▸ List.mem_singleton_self taken)
  cases List.mem_singleton.mp member
  obtain ⟨own, again, follows⟩ := evaluateChain_agrees exact ⟨[], limit, table⟩ certain
    checkedTable.usable usable alike.concrete.residual (alike.concrete.comesTo route) run member
    holds room
  rw [run] at again
  cases again
  obtain ⟨known, ran, ends⟩ := evaluateChain_simplified exact ⟨[], limit, table⟩ certain
    checkedTable checked alike.concrete.residual alike.comes run member holds room
  have concrete := follows.record.concrete (partition.sound path member).record
  exact ⟨known, ran, ends.disposition, concrete, ends.record⟩

end

namespace Topology

variable [Arithmetic] {t : Topology} {route : Route} {limit : Int} {edge : Edge} {r c s : Record}

/-- Alike records take one path each through the chain of an interface before and after
simplification. -/
theorem chain_alike (exact : ∀ i : Int, Arithmetic.round i = i) (checked : t.Checked)
    (e : Endpoint) (side : Chains → List String) (alike : r.Alike route c) (room : 1 ≤ limit)
    {path : Path} (run : evaluateChain ⟨[], limit, t.policies e.node⟩
      (t.chainOf e (side (t.chains e))) r = .ok [path]) :
    ∃ known, evaluateChain ⟨[], limit, t.simplified.policies e.node⟩
      (t.simplified.chainOf e (side (t.simplified.chains e))) c = .ok [known] ∧
        known.disposition = path.disposition ∧ path.record.Alike route known.record := by
  rw [policies_simplified, chains_simplified, chainOf_simplified]
  exact evaluateChain_alike exact (forall_policies checked e.node) (forall_chainOf checked e _)
    alike room run

/-- What crosses an edge passes it after simplification. -/
theorem Crosses.passes_simplified (exact : ∀ i : Int, Arithmetic.round i = i) (checked : t.Checked)
    (room : 1 ≤ limit) (concrete : r.Concrete) (crosses : t.Crosses limit edge r s) :
    t.simplified.Passes limit route edge r s := by
  obtain ⟨gone, arrived, exported, accepted, imported, admitted, rfl⟩ := crosses
  obtain ⟨left, leaves, sameEnd, between⟩ := chain_alike exact checked edge.source
    Chains.exports ⟨concrete, concrete.comesTo route⟩ room exported
  obtain ⟨entered, enters, sameLast, alike⟩ :=
    chain_alike exact checked edge.target Chains.imports between room imported
  intro found ran
  cases leaves.symm.trans ran
  refine ⟨sameEnd.trans accepted, fun last reran => ?_⟩
  cases enters.symm.trans reran
  exact ⟨sameLast.trans admitted, fun v comes => comes.back alike.comes alike.concrete⟩

/-- What crosses an edge after simplification passes it before. -/
theorem Crosses.passes_of_simplified (exact : ∀ i : Int, Arithmetic.round i = i)
    (checked : t.Checked) (room : 1 ≤ limit) (concrete : r.Concrete)
    (crosses : t.simplified.Crosses limit edge r s) : t.Passes limit route edge r s := by
  obtain ⟨gone, arrived, exported, accepted, imported, admitted, rfl⟩ := crosses
  intro left ran
  obtain ⟨own, leaves, sameEnd, between⟩ := chain_alike exact checked edge.source
    Chains.exports ⟨concrete, concrete.comesTo route⟩ room ran
  cases exported.symm.trans leaves
  refine ⟨sameEnd.symm.trans accepted, fun entered reran => ?_⟩
  obtain ⟨last, enters, sameLast, alike⟩ :=
    chain_alike exact checked edge.target Chains.imports between room reran
  cases imported.symm.trans enters
  exact ⟨sameLast.symm.trans admitted, fun v comes => comes.trans alike.comes⟩

/-! ### Propagation -/

variable {u : Topology} {limits : Limits} {q : Query} {origins others : List Variant}
  {now later : Propagation.State}

/-- Propagation starts for a destination. -/
theorem Propagates.network (ran : t.Propagates limits q origins now) :
    ∃ target, q.network = .ok target := by
  obtain ⟨_, _, starts⟩ := Outcome.bind_ok.mp ran.starts
  obtain ⟨target, found, _⟩ := Outcome.bind_ok.mp starts
  exact ⟨target, found⟩

/-- Where a topology has the nodes and edges of another one and lets pass what crosses there, a node
is reached under a condition that is true of a route if it is in the other one. -/
theorem Propagates.predicate_transfers (exact : ∀ i : Int, Arithmetic.round i = i)
    (usable : t.Usable) (usableToo : u.Usable) (ran : t.Propagates limits q origins now)
    (ranToo : u.Propagates limits q others later) (edges : t.edges = u.edges)
    (nodes : ∀ n ∈ t.nodes, ∃ m ∈ u.nodes, m.name = n.name ∧ m.external = n.external ∧
      m.networks = n.networks)
    (passes : ∀ edge r s, r.Concrete → t.Crosses Execution.defaultLimit edge r s →
      u.Passes Execution.defaultLimit route edge r s)
    {node : String} (clear : u.ClearAt limits q route node)
    (holds : (Propagation.predicate now node).holdsAt route = true) :
    (Propagation.predicate later node).holdsAt route = true := by
  have room : 1 ≤ Execution.defaultLimit := by decide
  obtain ⟨target, found⟩ := ran.network
  have before := Propagation.settle_justified exact usable found ran.starts ran.rests
  have after := Propagation.settle_justified exact usableToo found ranToo.starts ranToo.rests
  obtain ⟨v, member, here, holdsThere⟩ :=
    (Propagation.predicate_holds fun v member => (before v member).condition).mp holds
  obtain ⟨n, listed, start, last, begins, walk, _⟩ :=
    (before v member).walk route holdsThere Execution.defaultLimit room
  obtain ⟨m, known, name, external, networks⟩ := nodes n listed
  have begins' : q.Begins target route m start := by
    cases begins with
    | announced open' => exact .announced (external.trans open')
    | originated inside owned =>
        refine .originated (external.trans inside) ?_
        unfold Query.owns at owned ⊢
        rwa [networks]
  rw [here] at walk
  have upstream : ∀ mid r, Edge.Leads t.edges mid node → ¬u.Overtaken limits q route mid r := by
    rw [edges]
    exact clear
  have within := name ▸ walk.within upstream
  have arrives := ranToo.arrives_of_walk exact usableToo found room edges passes known begins' within
  obtain ⟨kept, inside, there, describes⟩ :=
    ranToo.kept_of_not_overtaken arrives (clear node last .refl)
  exact (Propagation.predicate_holds fun v member => (after v member).condition).mpr
    ⟨kept, inside, there, describes.holds⟩

/-- A node is reached by the same routes before and after simplification, where no record is
overtaken. -/
theorem predicate_simplified (exact : ∀ i : Int, Arithmetic.round i = i) (checked : t.Checked)
    (ran : t.Propagates limits q origins now)
    (ranToo : t.simplified.Propagates limits q others later) {node : String}
    (clear : t.ClearAt limits q route node) (clearToo : t.simplified.ClearAt limits q route node) :
    (Propagation.predicate now node).holdsAt route =
      (Propagation.predicate later node).holdsAt route := by
  have room : 1 ≤ Execution.defaultLimit := by decide
  have usable := checked.usable
  have usableToo := checked.simplified.usable
  rw [Bool.eq_iff_iff]
  constructor
  · refine ran.predicate_transfers exact usable usableToo ranToo rfl ?_ ?_ clearToo
    · intro n listed
      exact ⟨n.simplified, List.mem_map_of_mem listed, rfl, rfl, rfl⟩
    · intro edge r s concrete crosses
      exact crosses.passes_simplified exact checked room concrete
  · refine ranToo.predicate_transfers exact usableToo usable ran rfl ?_ ?_ clear
    · intro m listed
      obtain ⟨n, inside, rfl⟩ := List.mem_map.mp listed
      exact ⟨n, inside, rfl, rfl, rfl⟩
    · intro edge r s concrete crosses
      exact crosses.passes_of_simplified exact checked room concrete

end Topology

end RoutePolicy
