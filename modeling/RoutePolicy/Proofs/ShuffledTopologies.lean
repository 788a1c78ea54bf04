import RoutePolicy.Proofs.Restoration

/-!
Topologies that differ in the order of their nodes, and of the policies of a node, only. They have
the same chains at every interface and the same fingerprint, and both resolve or neither does.
-/

set_option autoImplicit false

namespace RoutePolicy

open Encoding RoutePolicy.Condensed

/-- The same entries, with different names, in any order. -/
structure Table.Shuffled {α : Type} (t u : Table α) : Prop where
  perm : t.Perm u
  distinct : t.names.Nodup

namespace Table.Shuffled

variable {α : Type} {t u left right : Table α}

theorem others (shuffled : t.Shuffled u) : u.names.Nodup :=
  (shuffled.perm.map Prod.fst).nodup_iff.mp shuffled.distinct

theorem get? (shuffled : t.Shuffled u) (key : String) : t.get? key = u.get? key :=
  get?_perm shuffled.distinct shuffled.perm

theorem has (shuffled : t.Shuffled u) (key : String) : t.has key = u.has key := by
  rw [Table.has, Table.has, shuffled.get?]

theorem arrange (shuffled : t.Shuffled u) : (arrange t).Shuffled (Table.arrange u) := by
  obtain ⟨own, arranged⟩ := perm_arrange shuffled.distinct
  obtain ⟨other, -⟩ := perm_arrange shuffled.others
  exact ⟨own.trans (shuffled.perm.trans other.symm), arranged.distinct⟩

theorem get?_putAll (shuffled : left.Shuffled right) {key : String}
    (same : t.get? key = u.get? key) : (t.putAll left).get? key = (u.putAll right).get? key := by
  rw [Table.get?_putAll shuffled.distinct, Table.get?_putAll shuffled.others, shuffled.get?, same]

theorem putAll (base : t.Shuffled u) (shuffled : left.Shuffled right) :
    (t.putAll left).Shuffled (u.putAll right) := by
  refine ⟨perm_of_get? ?_ ?_ fun key => shuffled.get?_putAll (base.get? key), ?_⟩
  · exact nodup_putAll base.distinct left
  · exact nodup_putAll base.others right
  · exact nodup_putAll base.distinct left

end Table.Shuffled

/-! ### Nodes -/

/-- Nodes that differ in the order of their policies only. -/
structure Node.Shuffled (n m : Node) : Prop where
  name : n.name = m.name
  asn : n.asn = m.asn
  networks : n.networks = m.networks
  interfaces : n.interfaces = m.interfaces
  external : n.external = m.external
  policies : n.policies.Shuffled m.policies

namespace Node

variable {n m : Node}

/-- What known policies reach depends on what each policy calls. -/
theorem closure_congr (callees : ∀ name, n.callees name = m.callees name) (known : List String) :
    n.closure known = m.closure known := by
  have fresh : ∀ known, n.newCallees known = m.newCallees known := by
    intro known
    rw [newCallees, newCallees, List.flatMap_congr fun name _ => callees name]
  induction known using Node.closure.induct n with
  | case1 known done =>
    rw [closure, dif_pos done, closure, dif_pos (fresh known ▸ done)]
  | case2 known grows ih =>
    rw [closure, dif_neg grows, ih, fresh known]
    conv => rhs; rw [closure, dif_neg (fresh known ▸ grows)]

theorem Shuffled.chain (shuffled : n.Shuffled m) (names : List String) :
    n.chain names = m.chain names :=
  List.filterMap_congr fun name _ => shuffled.policies.get? name

theorem Shuffled.calledOnly (shuffled : n.Shuffled m) : n.calledOnly.Perm m.calledOnly := by
  have bound : n.bound = m.bound := by
    rw [Node.bound, Node.bound, shuffled.interfaces]
  have callees : ∀ name, n.callees name = m.callees name := by
    intro name
    rw [Node.callees, Node.callees, shuffled.policies.get?]
  unfold Node.calledOnly
  dsimp only
  rw [bound, closure_congr callees]
  exact (shuffled.policies.perm.map Prod.snd).filter _

/-- Both nodes have one sorted text. -/
theorem Shuffled.sorted (shuffled : n.Shuffled m)
    (named : ∀ entry ∈ n.policies, entry.2.name = entry.1) :
    (writeNode n).sorted = (writeNode m).sorted := by
  refine Condensed.sorted_writeNode shuffled.networks shuffled.asn shuffled.external ?_
    shuffled.calledOnly (distinct_calledOnly shuffled.policies.distinct named)
  have chains : writeChains n = writeChains m := by
    funext c
    rw [writeChains, writeChains, shuffled.chain, shuffled.chain]
  rw [shuffled.interfaces, chains]

theorem Shuffled.resolved (shuffled : n.Shuffled m) (resolved : n.Resolved) : m.Resolved := by
  have has := shuffled.policies.has
  refine ⟨shuffled.networks ▸ resolved.networks, ?_, ?_⟩
  · rw [← shuffled.interfaces]
    exact fun entry member policy named => has policy ▸ resolved.bound entry member policy named
  · intro p member callee call
    have own : p ∈ n.policies.values := (shuffled.policies.perm.map Prod.snd).mem_iff.mpr member
    exact has callee ▸ resolved.calls p own callee call

end Node

/-! ### Topologies -/

/-- Topologies that differ in the order of nodes and of their policies only. -/
structure Topology.Shuffled (t u : Topology) : Prop where
  edges : t.edges = u.edges
  nodes : ∀ name, Option.Rel Node.Shuffled (t.node? name) (u.node? name)

namespace Topology

variable {t u : Topology}

theorem Shuffled.chains (shuffled : t.Shuffled u) (e : Endpoint) : t.chains e = u.chains e := by
  have nodes := shuffled.nodes e.node
  unfold Topology.chains
  generalize t.node? e.node = found at nodes ⊢
  generalize u.node? e.node = other at nodes ⊢
  cases nodes with
  | none => rfl
  | some same => rw [Option.bind_some, Option.bind_some, same.interfaces]

theorem Shuffled.chainOf (shuffled : t.Shuffled u) (e : Endpoint) (names : List String) :
    t.chainOf e names = u.chainOf e names := by
  have nodes := shuffled.nodes e.node
  unfold Topology.chainOf
  generalize t.node? e.node = found at nodes ⊢
  generalize u.node? e.node = other at nodes ⊢
  cases nodes with
  | none => rfl
  | some same => exact same.chain names

theorem Shuffled.exportChain (shuffled : t.Shuffled u) (e : Endpoint) :
    t.exportChain e = u.exportChain e := by
  rw [Topology.exportChain, Topology.exportChain, shuffled.chains, shuffled.chainOf]

theorem Shuffled.importChain (shuffled : t.Shuffled u) (e : Endpoint) :
    t.importChain e = u.importChain e := by
  rw [Topology.importChain, Topology.importChain, shuffled.chains, shuffled.chainOf]

theorem Shuffled.hasEnd (shuffled : t.Shuffled u) {e : Endpoint} (has : t.HasEnd e) :
    u.HasEnd e := by
  obtain ⟨n, found, known⟩ := has
  have nodes := shuffled.nodes e.node
  rw [found] at nodes
  generalize other : u.node? e.node = there at nodes
  cases nodes with
  | @some _ m same => exact ⟨m, other, same.interfaces ▸ known⟩

theorem Shuffled.resolved (shuffled : t.Shuffled u) (others : (u.nodes.map Node.name).Nodup)
    (resolved : t.Resolved) : u.Resolved := by
  refine ⟨others, fun m member => ?_, fun edge member => ?_⟩
  · have nodes := shuffled.nodes m.name
    rw [(node?_iff others).mpr ⟨member, rfl⟩] at nodes
    generalize found : t.node? m.name = there at nodes
    cases nodes with
    | @some n _ same =>
      exact same.resolved (resolved.nodes n ((node?_iff resolved.distinct).mp found).1)
  · rw [← shuffled.edges] at member
    exact (resolved.ends edge member).imp shuffled.hasEnd shuffled.hasEnd

/-- Topologies that are built of shuffled parts have one fingerprint. -/
theorem Shuffled.fingerprint (shuffled : t.Shuffled u) (distinct : (t.nodes.map Node.name).Nodup)
    (others : (u.nodes.map Node.name).Nodup)
    (named : ∀ n ∈ t.nodes, ∀ entry ∈ n.policies, entry.2.name = entry.1) :
    t.fingerprint = u.fingerprint := by
  have sorted : t.toJson.sorted = u.toJson.sorted := by
    apply sorted_toJson distinct others shuffled.edges
    intro name
    have nodes := shuffled.nodes name
    have listed : ∀ n, t.node? name = some n → n ∈ t.nodes :=
      fun n found => ((node?_iff distinct).mp found).1
    generalize t.node? name = found at nodes listed ⊢
    generalize u.node? name = other at nodes ⊢
    cases nodes with
    | none => exact .none
    | @some n _ same => exact .some (same.sorted (named n (listed n rfl)))
  exact congrArg Digest.sha256 (congrArg Json.compact sorted)

end Topology

end RoutePolicy
