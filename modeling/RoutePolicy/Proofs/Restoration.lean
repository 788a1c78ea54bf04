import RoutePolicy.Proofs.CondensedReading

/-!
A topology that its condensed document holds is read back: the same nodes, chains and edges, of the
policies those that chains reach, and the same canonical text.
-/

set_option autoImplicit false

namespace RoutePolicy

open Encoding RoutePolicy.Condensed

/-- A node as its text keeps it. Of its policies these are the ones that chains reach. -/
structure Node.Restored (n m : Node) : Prop where
  name : m.name = n.name
  asn : m.asn = n.asn
  networks : m.networks = n.networks
  external : m.external = n.external
  interfaces : m.interfaces = Table.arrange n.interfaces
  distinct : m.policies.names.Nodup
  policies : ∀ name p, m.policies.get? name = some p ↔
    n.Reaches n.bound name ∧ n.policies.get? name = some p

/-- The text of a node is read back. -/
theorem Condensed.readNode_restored {keep : Bool} {n : Node} (storable : n.Storable keep)
    (resolved : n.Resolved) : ∃ m, readNode keep n.name (writeNode n) = .ok m ∧ n.Restored m := by
  obtain ⟨known, read, collects, reached⟩ := readNode_writeNode storable resolved
  have arranged := Table.perm_arrange collects.distinct
  refine ⟨_, read, ⟨rfl, rfl, rfl, rfl, rfl, arranged.2.distinct, fun name p => ?_⟩⟩
  rw [Table.get?_arrange collects.distinct, ← reached]
  constructor
  · intro found
    exact ⟨Table.mem_names_of_get? found, collects.own _ (Table.mem_of_get? found)⟩
  · rintro ⟨listed, found⟩
    obtain ⟨entry, member, rfl⟩ := List.mem_map.mp listed
    have same := Option.some.inj ((collects.own entry member).symm.trans found)
    exact Table.get?_of_mem collects.distinct (same ▸ member)

/-- Nodes have one sorted text if they write the same interfaces and the same policies, in any
order. -/
theorem Condensed.sorted_writeNode {n m : Node} (networks : m.networks = n.networks)
    (asn : m.asn = n.asn) (external : m.external = n.external)
    (interfaces : (Json.object (m.interfaces.map fun (name, c) => (name, writeChains m c))).sorted =
      (Json.object (n.interfaces.map fun (name, c) => (name, writeChains n c))).sorted)
    (called : m.calledOnly.Perm n.calledOnly)
    (distinct : (m.calledOnly.map Policy.name).Nodup) :
    (writeNode m).sorted = (writeNode n).sorted := by
  have policies : (Json.object (m.calledOnly.map fun p => (p.name, writePolicy p))).sorted =
      (Json.object (n.calledOnly.map fun p => (p.name, writePolicy p))).sorted := by
    apply Json.sorted_object_perm _ (called.map _)
    rw [Table.names, List.map_map]
    exact distinct
  unfold writeNode
  dsimp only
  rw [networks, asn, external, called.isEmpty_eq]
  apply Json.sorted_obj_congr
  refine List.rel_append (List.rel_append (List.rel_append ?_ ?_) ?_) ?_
  · exact .cons ⟨rfl, rfl⟩ (.cons ⟨rfl, interfaces⟩ .nil)
  · exact List.forall₂_same.mpr fun _ _ => ⟨rfl, rfl⟩
  · exact List.forall₂_same.mpr fun _ _ => ⟨rfl, rfl⟩
  · split
    · exact .nil
    · exact .cons ⟨rfl, policies⟩ .nil

namespace Node

section

variable {n m : Node} {name : String}

theorem Restored.perm (restored : n.Restored m) (distinct : n.interfaces.names.Nodup) :
    m.interfaces.Perm n.interfaces :=
  restored.interfaces ▸ (Table.perm_arrange distinct).1

theorem Restored.mem_bound (restored : n.Restored m) (distinct : n.interfaces.names.Nodup) :
    name ∈ m.bound ↔ name ∈ n.bound :=
  (((restored.perm distinct).map Prod.snd).flatMap_right _).mem_iff

theorem Restored.get?_interfaces (restored : n.Restored m) (distinct : n.interfaces.names.Nodup) :
    m.interfaces.get? name = n.interfaces.get? name :=
  (Table.get?_perm distinct (restored.perm distinct).symm).symm

theorem Restored.get?_reached (restored : n.Restored m) (reaches : n.Reaches n.bound name) :
    m.policies.get? name = n.policies.get? name := by
  ext p
  rw [restored.policies, and_iff_right reaches]

theorem Restored.callees (restored : n.Restored m) (reaches : n.Reaches n.bound name) :
    m.callees name = n.callees name := by
  rw [Node.callees, Node.callees, restored.get?_reached reaches]

/-- The chains of both nodes reach the same policies. -/
theorem Restored.reaches (restored : n.Restored m) (distinct : n.interfaces.names.Nodup) :
    m.Reaches m.bound name ↔ n.Reaches n.bound name := by
  constructor
  · intro reaches
    induction reaches with
    | known member => exact .known ((restored.mem_bound distinct).mp member)
    | called _ call ih => exact .called ih (restored.callees ih ▸ call)
  · intro reaches
    induction reaches with
    | known member => exact .known ((restored.mem_bound distinct).mpr member)
    | called earlier call ih => exact .called ih ((restored.callees earlier).symm ▸ call)

/-- Chains of names that are bound stand for the same policies. -/
theorem Restored.chain (restored : n.Restored m) {names : List String}
    (bound : ∀ name ∈ names, name ∈ n.bound) : m.chain names = n.chain names :=
  List.filterMap_congr fun name member => restored.get?_reached (.known (bound name member))

theorem Restored.legible (restored : n.Restored m) (legible : n.Legible) : m.Legible := by
  have found : ∀ entry ∈ m.policies, n.policies.get? entry.1 = some entry.2 := by
    intro entry member
    exact ((restored.policies _ _).mp (Table.get?_of_mem restored.distinct member)).2
  constructor
  · exact ((restored.perm legible.interfaces).map Prod.fst).nodup_iff.mpr legible.interfaces
  · exact restored.distinct
  · exact fun entry member => legible.name_of_get? (found entry member)
  · exact fun entry member => legible.texts.get? (found entry member)
  · exact restored.asn ▸ legible.asn

theorem Restored.resolved (restored : n.Restored m) (distinct : n.interfaces.names.Nodup)
    (resolved : n.Resolved) : m.Resolved := by
  have has : ∀ {name}, n.Reaches n.bound name → m.policies.has name = true := by
    intro name reaches
    rw [Table.has, restored.get?_reached reaches]
    exact resolved.reached reaches
  refine ⟨restored.networks ▸ resolved.networks, ?_, ?_⟩
  · intro entry member policy named
    have own := Node.mem_bound.mpr ⟨entry, member, named⟩
    exact has (.known ((restored.mem_bound distinct).mp own))
  · intro p value callee call
    obtain ⟨⟨name, own⟩, member, rfl⟩ := List.mem_map.mp value
    obtain ⟨reaches, found⟩ :=
      (restored.policies _ _).mp (Table.get?_of_mem restored.distinct member)
    apply has
    apply Reaches.called reaches
    rw [Node.callees, found]
    exact call

theorem Restored.calledOnly (restored : n.Restored m) (legible : n.Legible) :
    m.calledOnly.Perm n.calledOnly := by
  have other := restored.legible legible
  apply (List.perm_ext_iff_of_nodup (other.distinct_calledOnly.of_map _)
    (legible.distinct_calledOnly.of_map _)).mpr
  intro p
  rw [mem_calledOnly, mem_calledOnly, restored.reaches legible.interfaces,
    restored.mem_bound legible.interfaces]
  refine and_congr_left fun ⟨reaches, _⟩ => ?_
  have same := restored.get?_reached reaches
  constructor
  · intro value
    rw [other.get?_name value] at same
    exact List.mem_map.mpr ⟨_, Table.mem_of_get? same.symm, rfl⟩
  · intro value
    rw [legible.get?_name value] at same
    exact List.mem_map.mpr ⟨_, Table.mem_of_get? same, rfl⟩

theorem Restored.writeChains (restored : n.Restored m) {c : Chains}
    (bound : ∀ name ∈ c.policies, name ∈ n.bound) :
    Condensed.writeChains m c = Condensed.writeChains n c := by
  obtain ⟨imports, exports⟩ := List.forall_mem_append.mp bound
  rw [Condensed.writeChains, Condensed.writeChains, restored.chain imports, restored.chain exports]

theorem Restored.writeInterfaces (restored : n.Restored m) (legible : n.Legible) :
    (Json.object (m.interfaces.map fun (name, c) => (name, Condensed.writeChains m c))).sorted =
      (Json.object (n.interfaces.map fun (name, c) => (name, Condensed.writeChains n c))).sorted := by
  have chains : (m.interfaces.map fun (name, c) => (name, Condensed.writeChains m c)) =
      m.interfaces.map fun (name, c) => (name, Condensed.writeChains n c) := by
    apply List.map_congr_left
    intro entry member
    have bound : ∀ name ∈ entry.2.policies, name ∈ n.bound := fun name named =>
      (restored.mem_bound legible.interfaces).mp (Node.mem_bound.mpr ⟨entry, member, named⟩)
    exact congrArg (Prod.mk entry.1) (restored.writeChains bound)
  rw [chains]
  apply Json.sorted_object_perm _ ((restored.perm legible.interfaces).map _)
  rw [Table.names, List.map_map]
  exact (restored.legible legible).interfaces

/-- Both nodes have one sorted text. -/
theorem Restored.sorted (restored : n.Restored m) (legible : n.Legible) :
    (writeNode m).sorted = (writeNode n).sorted :=
  Condensed.sorted_writeNode restored.networks restored.asn restored.external
    (restored.writeInterfaces legible) (restored.calledOnly legible)
    (restored.legible legible).distinct_calledOnly

end

end Node

/-! ### Topologies -/

/-- The nodes in the order in which a document lists them. -/
def Topology.listed (t : Topology) : List Node :=
  (Table.arrange (t.nodes.map fun n => (n.name, n))).values

/-- A topology as its condensed document keeps it. -/
structure Topology.Restored (t u : Topology) : Prop where
  nodes : List.Forall₂ Node.Restored t.listed u.nodes
  edges : u.edges = t.edges

namespace Condensed

variable {keep : Bool}

theorem readNodes_restored {entries : Table Node} (named : ∀ entry ∈ entries, entry.2.name = entry.1)
    (storable : entries.All (Node.Storable keep)) (resolved : entries.All Node.Resolved) : ∃ ms,
      readNodes keep (entries.map fun (name, n) => (name, writeNode n)) = .ok ms ∧
        List.Forall₂ Node.Restored entries.values ms := by
  induction entries with
  | nil => exact ⟨[], rfl, .nil⟩
  | cons entry rest ih =>
    obtain ⟨name, n⟩ := entry
    obtain ⟨(rfl : n.name = name), laterNamed⟩ := List.forall_mem_cons.mp named
    obtain ⟨own, laterStorable⟩ := List.forall_mem_cons.mp storable
    obtain ⟨whole, laterResolved⟩ := List.forall_mem_cons.mp resolved
    obtain ⟨m, read, restored⟩ := readNode_restored own whole
    obtain ⟨ms, others, related⟩ := ih laterNamed laterStorable laterResolved
    refine ⟨m :: ms, Outcome.bind_ok.mpr ⟨m, read, ?_⟩, .cons restored related⟩
    exact Outcome.bind_ok.mpr ⟨ms, others, rfl⟩

theorem readEdges_written (i : Nat) (edges : List Edge) :
    readEdges i (edges.map writeEdge) = .ok edges := by
  induction edges generalizing i with
  | nil => rfl
  | cons edge rest ih =>
    exact Outcome.bind_ok.mpr ⟨edge, rfl, Outcome.bind_ok.mpr ⟨rest, ih (i + 1), rfl⟩⟩

end Condensed

namespace Topology

variable {keep : Bool} {t u : Topology}

theorem perm_listed (distinct : (t.nodes.map Node.name).Nodup) : t.listed.Perm t.nodes := by
  have names : Table.names (t.nodes.map fun n => (n.name, n)) = t.nodes.map Node.name := by
    simp [Table.names]
  have values : Table.values (t.nodes.map fun n => (n.name, n)) = t.nodes := by
    simp [Table.values, Function.comp_def]
  have perm := (Table.perm_arrange (names ▸ distinct)).1.map Prod.snd
  exact perm.trans (.of_eq values)

theorem Restored.names (restored : t.Restored u) (distinct : (t.nodes.map Node.name).Nodup) :
    (u.nodes.map Node.name).Perm (t.nodes.map Node.name) := by
  have same : t.listed.map Node.name = u.nodes.map Node.name := by
    rw [map_eq_iff_forall₂]
    exact restored.nodes.imp fun _ _ own => own.name.symm
  exact same ▸ (perm_listed distinct).map Node.name

/-- A node is found as the text keeps it. -/
theorem Restored.node? (restored : t.Restored u) (distinct : (t.nodes.map Node.name).Nodup)
    (name : String) : Option.Rel Node.Restored (t.node? name) (u.node? name) := by
  have perm := perm_listed distinct
  have related := restored.nodes
  have other : (u.nodes.map Node.name).Nodup := (restored.names distinct).nodup_iff.mpr distinct
  cases found : t.node? name with
  | some n =>
    obtain ⟨member, rfl⟩ := (node?_iff distinct).mp found
    obtain ⟨m, there, own⟩ := exists_of_forall₂ related (perm.mem_iff.mpr member)
    rw [(node?_iff other).mpr ⟨there, own.name⟩]
    exact .some own
  | none =>
    cases found' : u.node? name with
    | none => exact .none
    | some m =>
      obtain ⟨member, rfl⟩ := (node?_iff other).mp found'
      obtain ⟨n, there, own⟩ := exists_of_forall₂ related.flip member
      rw [(node?_iff distinct).mpr ⟨perm.mem_iff.mp there, own.name.symm⟩] at found
      cases found

theorem Restored.resolved (restored : t.Restored u) (resolved : t.Resolved)
    (legible : ∀ n ∈ t.nodes, n.Legible) : u.Resolved := by
  have perm := perm_listed resolved.distinct
  refine ⟨(restored.names resolved.distinct).nodup_iff.mpr resolved.distinct, ?_, ?_⟩
  · intro m member
    obtain ⟨n, there, own⟩ := exists_of_forall₂ restored.nodes.flip member
    have inside := perm.mem_iff.mp there
    exact own.resolved (legible n inside).interfaces (resolved.nodes n inside)
  · have ends : ∀ e, t.HasEnd e → u.HasEnd e := by
      rintro e ⟨n, found, has⟩
      have there := restored.node? resolved.distinct e.node
      rw [found] at there
      generalize other : u.node? e.node = known at there
      cases there with
      | @some _ m own =>
        refine ⟨m, other, ?_⟩
        have member := ((node?_iff resolved.distinct).mp found).1
        rwa [Table.has, own.get?_interfaces (legible n member).interfaces]
    rw [restored.edges]
    exact fun edge member =>
      ⟨ends _ (resolved.ends edge member).1, ends _ (resolved.ends edge member).2⟩

theorem get?_nodes (t : Topology) (name : String) :
    Table.get? (t.nodes.map fun n => (n.name, writeNode n)) name = (t.node? name).map writeNode := by
  unfold node?
  induction t.nodes with
  | nil => rfl
  | cons n rest ih =>
    rw [List.map_cons, Table.get?, List.find?_cons, ih]
    by_cases own : n.name = name <;> simp [own]

/-- Topologies have one document, the order of members apart, if their nodes have. -/
theorem sorted_toJson (distinct : (t.nodes.map Node.name).Nodup)
    (others : (u.nodes.map Node.name).Nodup) (edges : t.edges = u.edges)
    (nodes : ∀ name, Option.Rel (fun n m => (writeNode n).sorted = (writeNode m).sorted)
      (t.node? name) (u.node? name)) : t.toJson.sorted = u.toJson.sorted := by
  have names : ∀ {t : Topology}, (t.nodes.map Node.name).Nodup →
      (Table.names (t.nodes.map fun n => (n.name, writeNode n))).Nodup := by
    intro t own
    rwa [Table.names, List.map_map]
  have same : (Json.object (t.nodes.map fun n => (n.name, writeNode n))).sorted =
      (Json.object (u.nodes.map fun n => (n.name, writeNode n))).sorted := by
    apply Json.sorted_object_of_get? (names distinct) (names others)
    intro name
    rw [get?_nodes, get?_nodes, Option.map_map, Option.map_map]
    have own := nodes name
    generalize t.node? name = found at own ⊢
    generalize u.node? name = other at own ⊢
    cases own with
    | none => rfl
    | some same => exact congrArg some same
  unfold toJson
  rw [edges]
  exact Json.sorted_obj_congr (.cons ⟨rfl, rfl⟩ (.cons ⟨rfl, same⟩ (.cons ⟨rfl, rfl⟩ .nil)))

/-- Both topologies have one document, the order of members apart. -/
theorem Restored.sorted (restored : t.Restored u) (distinct : (t.nodes.map Node.name).Nodup)
    (legible : ∀ n ∈ t.nodes, n.Legible) : u.toJson.sorted = t.toJson.sorted := by
  refine (sorted_toJson distinct ((restored.names distinct).nodup_iff.mpr distinct)
    restored.edges.symm fun name => ?_).symm
  have own := restored.node? distinct name
  have listed : ∀ n, t.node? name = some n → n ∈ t.nodes :=
    fun n found => ((node?_iff distinct).mp found).1
  generalize t.node? name = found at own listed ⊢
  generalize u.node? name = other at own ⊢
  cases own with
  | none => exact .none
  | @some n m own => exact .some (own.sorted (legible n (listed n rfl))).symm

theorem Restored.canonical (restored : t.Restored u) (distinct : (t.nodes.map Node.name).Nodup)
    (legible : ∀ n ∈ t.nodes, n.Legible) : u.canonical = t.canonical :=
  congrArg Json.compact (restored.sorted distinct legible)

/-- The condensed document of a topology is read back. -/
theorem ofJson_toJson (resolved : t.Resolved) (storable : ∀ n ∈ t.nodes, n.Storable keep) :
    ∃ u, ofJson keep t.toJson = .ok u ∧ t.Restored u := by
  have held := held_toJson resolved.distinct fun n member => (storable n member).legible
  let entries : Table Node := t.nodes.map fun n => (n.name, n)
  have distinct : entries.names.Nodup := by
    simpa [entries, Table.names, Function.comp_def] using resolved.distinct
  have perm := (Table.perm_arrange distinct).1
  have listed : ∀ entry ∈ Table.arrange entries, ∃ n ∈ t.nodes, (n.name, n) = entry :=
    fun entry member => List.mem_map.mp (perm.mem_iff.mp member)
  have named : ∀ entry ∈ Table.arrange entries, entry.2.name = entry.1 := by
    intro entry member
    obtain ⟨n, -, rfl⟩ := listed entry member
    rfl
  have kept : (Table.arrange entries).All (Node.Storable keep) := by
    intro entry member
    obtain ⟨n, own, rfl⟩ := listed entry member
    exact storable n own
  have whole : (Table.arrange entries).All Node.Resolved := by
    intro entry member
    obtain ⟨n, own, rfl⟩ := listed entry member
    exact resolved.nodes n own
  obtain ⟨ms, read, related⟩ := readNodes_restored named kept whole
  have nodes : Json.object (t.nodes.map fun n => (n.name, writeNode n)) =
      .obj ((Table.arrange entries).map fun (name, n) => (name, writeNode n)) := by
    rw [Json.object, ← Table.arrange_map, List.map_map]
    rfl
  have restored : t.Restored ⟨ms, t.edges⟩ := ⟨related, rfl⟩
  refine ⟨_, ?_, restored⟩
  have legible : ∀ n ∈ t.nodes, n.Legible := fun n member => (storable n member).legible
  have created := create_iff.mpr ⟨rfl, restored.resolved resolved legible⟩
  refine Outcome.bind_ok.mpr ⟨(ms, t.edges), ?_, created⟩
  have object : Condensed.object (some (Json.object (t.nodes.map fun n => (n.name, writeNode n))))
      [.field "nodes"] = .ok ((Table.arrange entries).map fun (name, n) => (name, writeNode n)) := by
    have heldNodes := held_nodes resolved.distinct legible
    rw [nodes] at heldNodes ⊢
    exact object_of_held heldNodes _
  unfold readParts
  rw [toJson, held.members?]
  refine Outcome.bind_ok.mpr ⟨_, object, Outcome.bind_ok.mpr ⟨ms, read, ?_⟩⟩
  exact Outcome.bind_ok.mpr ⟨_, rfl, Outcome.bind_ok.mpr ⟨_, readEdges_written 0 t.edges, rfl⟩⟩

end Topology

end RoutePolicy
