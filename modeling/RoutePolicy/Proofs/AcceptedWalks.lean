import RoutePolicy.Proofs.References
import RoutePolicy.Proofs.Verdicts
import RoutePolicy.Proofs.Worklist

/-!
The trace of an accepted query. Every variant remembers the hops that brought it to its node: they
lead along edges, from a node where routes start, and each of them was accepted. The trace follows
the first variant that reached a node.
-/

set_option autoImplicit false

namespace RoutePolicy

/-- A hop over an edge that the policies of a chain accepted. -/
structure Hop.Accepts (edge : Edge) (direction : Direction) (chain : List Policy) (h : Hop) :
    Prop where
  edge : h.edge = edge
  direction : h.direction = direction
  policies : h.policies = chain.map Policy.name
  accepted : h.accepted = true

/-- Accepted hops that lead from a node to another one: for every edge the sender's part and then the
receiver's, the next edge leaving the node that the edge leads to. -/
inductive Topology.Trail (t : Topology) : String → List Hop → String → Prop where
  | here {node : String} : Trail t node [] node
  | cross {edge : Edge} {left entered : Hop} {hops : List Hop} {target : String}
      (known : edge ∈ t.edges) (leaves : left.Accepts edge .leaving (t.exportChain edge.source))
      (enters : entered.Accepts edge .entering (t.importChain edge.target))
      (further : Trail t edge.target.node hops target) :
      Trail t edge.source.node (left :: entered :: hops) target

/-- A node that routes for the destination of a query start from: an external one, or an owner of the
destination. -/
def Query.StartsFrom (q : Query) (t : Topology) (name : String) : Prop :=
  ∃ target, q.network = .ok target ∧
    ∃ n ∈ t.nodes, n.name = name ∧ (n.external = true ∨ owns n target = true)

namespace Topology

variable {t : Topology}

/-- A trail goes on over an edge that leaves its end. -/
theorem Trail.snoc {origin node : String} {hops : List Hop} (trail : t.Trail origin hops node)
    {edge : Edge} {left entered : Hop} (known : edge ∈ t.edges) (meets : edge.source.node = node)
    (leaves : left.Accepts edge .leaving (t.exportChain edge.source))
    (enters : entered.Accepts edge .entering (t.importChain edge.target)) :
    t.Trail origin (hops ++ [left, entered]) edge.target.node := by
  induction trail with
  | here => exact meets ▸ .cross known leaves enters .here
  | cross first out into _ ih => exact .cross first out into (ih meets)

end Topology

namespace Propagation

variable {t : Topology} {limits : Limits} {q : Query} {origins : List Variant} {s : State}

/-! ### Variants and their hops -/

/-- The hops of a variant lead from a node where routes start to its node, and only the variants that
routes start as have none. -/
structure Traced (t : Topology) (q : Query) (origins : List Variant) (v : Variant) : Prop where
  trail : ∃ origin, q.StartsFrom t origin ∧ t.Trail origin v.hops.reverse v.node
  listed : v.node ∈ t.nodes.map Node.name
  initial : v.hops = [] ↔ v ∈ origins

/-- The variants that propagation starts from have come over no edge. -/
theorem origins_traced (starts : q.origins t = .ok origins) :
    ∀ v ∈ origins, Traced t q origins v := by
  obtain ⟨_, -, starts⟩ := Outcome.bind_ok.mp starts
  obtain ⟨target, found, starts⟩ := Outcome.bind_ok.mp starts
  obtain ⟨originated, -, starts⟩ := Outcome.bind_ok.mp starts
  obtain ⟨announced, -, same⟩ := Outcome.bind_ok.mp starts
  cases same
  intro v member
  obtain ⟨n, inside, begun⟩ := List.mem_filterMap.mp member
  have begins : v.hops = [] ∧ v.node = n.name ∧ (n.external = true ∨ Query.owns n target = true) := by
    unfold Query.origin? at begun
    split at begun
    · rename_i external
      cases begun
      exact ⟨rfl, rfl, .inl external⟩
    · split at begun
      · rename_i owned
        cases begun
        exact ⟨rfl, rfl, .inr owned⟩
      · cases begun
  obtain ⟨none, home, starts⟩ := begins
  refine ⟨⟨n.name, ⟨target, found, n, inside, rfl, starts⟩, ?_⟩, ?_, iff_of_true none member⟩
  · rw [none, home]
    exact .here
  · rw [home]
    exact List.mem_map_of_mem inside

section

variable [Arithmetic]

/-- What a variant sends over an edge goes on with its trail. -/
theorem Traced.arrival {v w : Variant} (traced : Traced t q origins v) (ends : t.Resolved)
    (initial : ∀ o ∈ origins, o.hops = []) {edge : Edge} (known : edge ∈ t.edges)
    (leaves : edge.source.node = v.node) {paths : Int} {cs : List Crossing}
    (crossed : crossings t paths v edge = .ok cs) (arrived : .arrival w ∈ cs) :
    Traced t q origins w := by
  obtain ⟨left, -, path, -, accepted, entered, -, last, -, admitted, -, rfl⟩ :=
    arrival_paths crossed arrived
  obtain ⟨origin, starts, trail⟩ := traced.trail
  refine ⟨⟨origin, starts, ?_⟩, ?_, iff_of_false (by simp) fun member => ?_⟩
  · have sent : (hop edge .leaving (t.exportChain edge.source) path).Accepts edge .leaving
        (t.exportChain edge.source) := ⟨rfl, rfl, rfl, decide_eq_true accepted⟩
    have received : (hop edge .entering (t.importChain edge.target) last).Accepts edge .entering
        (t.importChain edge.target) := ⟨rfl, rfl, rfl, decide_eq_true admitted⟩
    -- hops are kept in reverse order, so the two new ones stand first
    have further := trail.snoc known leaves sent received
    simpa using further
  · obtain ⟨n, found, -⟩ := (ends.ends edge known).2
    obtain ⟨inside, same⟩ := (Topology.node?_iff ends.distinct).mp found
    exact List.mem_map.mpr ⟨n, inside, same⟩
  · cases initial _ member

/-- Every variant of a query remembers how it came to its node. -/
theorem settle_traced (resolved : t.Resolved) (ran : t.Propagates limits q origins s) :
    ∀ v ∈ s.variants, Traced t q origins v := by
  have start := origins_traced ran.starts
  refine forall_settle ?_ (forall_start start) ran.rests
  intro v edge cs traced known leaves crossed w arrived
  exact traced.arrival resolved (fun o member => (start o member).initial.mpr member) known leaves
    crossed arrived

end

/-! ### Traces -/

/-- The hops of a walk to a node: they lead there from a node where routes start, and there are none
exactly if the first variant that reached the node is one that routes start as. -/
structure WalksTo (t : Topology) (q : Query) (origins : List Variant) (s : State) (node : String)
    (hops : List Hop) : Prop where
  trail : ∃ origin, q.StartsFrom t origin ∧ t.Trail origin hops node
  first : ∃ v, (reached s node).head? = some v ∧ (hops = [] ↔ v ∈ origins)

theorem walksTo_walk (traced : ∀ v ∈ s.variants, Traced t q origins v) {node : String}
    (found : reached s node ≠ []) : WalksTo t q origins s node (walk s node) := by
  obtain ⟨v, first⟩ := Option.isSome_iff_exists.mp (List.isSome_head?.mpr found)
  obtain ⟨kept, here⟩ := List.mem_filter.mp (List.mem_of_head? first)
  have own := traced v kept
  have hops : walk s node = v.hops.reverse := by rw [walk, first]
  have home : v.node = node := of_decide_eq_true here
  refine ⟨hops ▸ home ▸ own.trail, v, first, ?_⟩
  rw [hops, List.reverse_eq_nil_iff]
  exact own.initial

/-- A node that no variant reached is reported under the constant false. -/
theorem reached_of_predicate {node : String} (open' : (predicate s node).isFalse = false) :
    reached s node ≠ [] := by
  intro none
  rw [predicate, none] at open'
  cases open'

theorem mem_reachedNodes {node : String} : node ∈ reachedNodes s ↔ reached s node ≠ [] := by
  rw [reachedNodes, List.mem_eraseDups, List.mem_map, ne_eq, reached, List.filter_eq_nil_iff]
  simp

/-- A node that decides an accepted query is reached. -/
theorem reached_of_source {node : String} (checked : q.checkSource t = .ok ())
    (source : q.source = some node) (accepted : (answer t q s).accepted = true) :
    reached s node ≠ [] := by
  have known := Query.source_listed checked source
  obtain ⟨e, reports, decides⟩ := accepted_of_source (s := s) source known
  have reports : (predicates t s).get? node = some e := reports
  rw [get?_predicates, if_pos known] at reports
  cases reports
  exact reached_of_predicate (decides.mp accepted)

/-- Every node is reached when an accepted query names none. -/
theorem reached_everywhere (source : q.source = none) (accepted : (answer t q s).accepted = true) :
    ∀ n ∈ t.nodes, reached s n.name ≠ [] := by
  intro n listed
  have conditions := ((accepted_everywhere_iff source).mp accepted).1
  apply reached_of_predicate
  apply conditions
  exact List.mem_map_of_mem (List.mem_map_of_mem listed)

theorem nodup_eraseDups (names : List String) : names.eraseDups.Nodup := by
  cases names with
  | nil => exact .nil
  | cons name rest =>
      have shorter : (rest.filter fun other => !other == name).length < rest.length + 1 :=
        Nat.lt_succ_of_le (List.length_filter_le _ _)
      rw [List.eraseDups_cons, List.nodup_cons, List.mem_eraseDups]
      exact ⟨by simp, nodup_eraseDups _⟩
termination_by names.length

/-- When every node is reached, the reached nodes are the nodes of the topology in another order. -/
theorem reachedNodes_perm (distinct : (t.nodes.map Node.name).Nodup)
    (traced : ∀ v ∈ s.variants, Traced t q origins v)
    (all : ∀ n ∈ t.nodes, reached s n.name ≠ []) :
    (reachedNodes s).Perm (t.nodes.map Node.name) := by
  refine (List.perm_ext_iff_of_nodup (nodup_eraseDups _) distinct).mpr fun node => ?_
  constructor
  · intro member
    obtain ⟨v, kept, rfl⟩ := List.mem_map.mp (List.mem_eraseDups.mp member)
    exact (traced v kept).listed
  · intro member
    obtain ⟨n, listed, rfl⟩ := List.mem_map.mp member
    exact mem_reachedNodes.mpr (all n listed)

end Propagation

/-- The trace of an accepted query is a walk from a node where routes start to the node that is asked
about. When no node is named it joins one such walk for each node of the topology. -/
theorem accepted_trace_walks [Arithmetic] {t : Topology} {limits : Limits} {q : Query} {a : Answer}
    (created : Topology.create t.nodes t.edges = .ok t) (asked : t.ask limits q = .ok a)
    (traced : q.trace = some true) (accepted : a.disposition = .accept) :
    ∃ origins s hops, t.Propagates limits q origins s ∧ a.trace = some hops ∧
      (∀ node, q.source = some node → Propagation.WalksTo t q origins s node hops) ∧
      (q.source = none → ∃ walks : List (String × List Hop),
        (walks.map Prod.fst).Perm (t.nodes.map Node.name) ∧ hops = walks.flatMap Prod.snd ∧
        ∀ entry ∈ walks, Propagation.WalksTo t q origins s entry.1 entry.2) := by
  obtain ⟨-, resolved⟩ := Topology.create_iff.mp created
  obtain ⟨origins, s, ran, rfl⟩ := Topology.ask_ok.mp asked
  rw [Answer.disposition_eq_accept] at accepted
  have kept := Propagation.settle_traced resolved ran
  have trace : (Propagation.answer t q s).trace = some (Propagation.trace s q true) := by
    rw [← accepted]
    exact if_pos traced
  obtain ⟨_, checked, -⟩ := Outcome.bind_ok.mp ran.starts
  refine ⟨origins, s, _, ran, trace, fun node source => ?_, fun source => ?_⟩
  · have found := Propagation.reached_of_source checked source accepted
    rw [Propagation.trace, if_pos rfl, source]
    exact Propagation.walksTo_walk kept found
  · have all := Propagation.reached_everywhere source accepted
    refine ⟨(Propagation.reachedNodes s).map fun node => (node, Propagation.walk s node), ?_, ?_, ?_⟩
    · rw [List.map_map]
      exact (List.map_id _).symm ▸ Propagation.reachedNodes_perm resolved.distinct kept all
    · rw [Propagation.trace, if_pos rfl, source, List.flatMap_map]
    · rw [List.forall_mem_map]
      intro node member
      exact Propagation.walksTo_walk kept (Propagation.mem_reachedNodes.mp member)

namespace Loop

open Propagation

/-- How does what `a` owns reach `b`? -/
def tracing : Query := ⟨"10.0.0.0/8", some "b", none, some true, []⟩

theorem created : Topology.create (loop [forth, back]).nodes (loop [forth, back]).edges =
    .ok (loop [forth, back]) := by
  with_unfolding_all rfl

theorem traced [Arithmetic] : ∃ a, (loop [forth, back]).ask .default tracing = .ok a ∧
    a.disposition = .accept := by
  obtain ⟨o, origins, home, first⟩ : ∃ o, tracing.origins (loop [forth, back]) = .ok [o] ∧
      o.node = "a" ∧ o.condition = .bool true := ⟨_, by with_unfolding_all rfl, rfl, rfl⟩
  obtain ⟨w, there, open', rests⟩ := rests home first
  have stand : [o, w].map standing = [("a", .bool true), ("b", .bool true)] := by
    simp [standing, home, there, first, open']
  obtain ⟨a, asked, -, -, accepted⟩ := Topology.Propagates.ask_of_standing ⟨origins, rests⟩ stand
  exact ⟨a, asked, Answer.disposition_eq_accept.mpr (accepted.trans (by decide))⟩

end Loop

theorem loop_accepted_trace_walks : ∃ a,
    Topology.create (loop [Loop.forth, Loop.back]).nodes (loop [Loop.forth, Loop.back]).edges =
      .ok (loop [Loop.forth, Loop.back]) ∧
    @Topology.ask .binary64 (loop [Loop.forth, Loop.back]) .default Loop.tracing = .ok a ∧
    Loop.tracing.trace = some true ∧ a.disposition = .accept ∧
    ∃ origins s hops,
      @Topology.Propagates .binary64 (loop [Loop.forth, Loop.back]) .default Loop.tracing origins s ∧
      a.trace = some hops ∧
      Propagation.WalksTo (loop [Loop.forth, Loop.back]) Loop.tracing origins s "b" hops := by
  obtain ⟨a, asked, accepted⟩ := @Loop.traced .binary64
  obtain ⟨origins, s, hops, ran, trace, walks, -⟩ :=
    @accepted_trace_walks .binary64 _ _ _ _ Loop.created asked rfl accepted
  exact ⟨a, Loop.created, asked, rfl, accepted, origins, s, hops, ran, trace, walks "b" rfl⟩

end RoutePolicy
