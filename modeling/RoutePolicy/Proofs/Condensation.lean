import RoutePolicy.Proofs.LegiblePolicies
import RoutePolicy.Proofs.References

/-!
What the condensed document of a topology holds, member by member, and that it is a document: its
numbers are finite and its objects have the order of documents.
-/

set_option autoImplicit false

namespace RoutePolicy

open Encoding RoutePolicy.Condensed

/-- A node the text of which tells all that a query can use. Its tables hold a name once. -/
structure Node.Legible (n : Node) : Prop where
  interfaces : n.interfaces.names.Nodup
  policies : n.policies.names.Nodup
  named : ∀ entry ∈ n.policies, entry.2.name = entry.1
  texts : n.policies.All Policy.Legible
  asn : ∀ asn ∈ n.asn, Number.ofInt asn = .finite asn

namespace Node

variable {n : Node}

theorem Legible.name_of_get? (legible : n.Legible) {name : String} {p : Policy}
    (found : n.policies.get? name = some p) : p.name = name :=
  legible.named _ (Table.mem_of_get? found)

/-- A policy of the node is found under its name. -/
theorem Legible.get?_name (legible : n.Legible) {p : Policy} (member : p ∈ n.policies.values) :
    n.policies.get? p.name = some p := by
  obtain ⟨⟨key, own⟩, listed, rfl⟩ := List.mem_map.mp member
  rw [legible.named _ listed]
  exact Table.get?_of_mem legible.policies listed

theorem mem_chain {names : List String} {p : Policy} :
    p ∈ n.chain names ↔ ∃ name ∈ names, n.policies.get? name = some p := List.mem_filterMap

theorem distinct_calledOnly (distinct : n.policies.names.Nodup)
    (named : ∀ entry ∈ n.policies, entry.2.name = entry.1) :
    (n.calledOnly.map Policy.name).Nodup := by
  have names : n.policies.values.map Policy.name = n.policies.names := by
    rw [Table.values, Table.names, List.map_map]
    exact List.map_congr_left named
  have all : (n.policies.values.map Policy.name).Nodup := names ▸ distinct
  exact all.sublist (List.filter_sublist.map Policy.name)

theorem Legible.distinct_calledOnly (legible : n.Legible) :
    (n.calledOnly.map Policy.name).Nodup :=
  Node.distinct_calledOnly legible.policies legible.named

end Node

/-! ### Members -/

namespace Condensed

/-- A node is written as an object with plain keys. -/
theorem writeNode_object (n : Node) : ∃ members : Table Json,
    writeNode n = .obj members ∧ Table.PlainNames members.names := by
  have keys : Table.PlainNames ["prefixes", "interfaces", "asn", "external", "policies"] := by decide
  refine ⟨_, rfl, keys.sublist ?_⟩
  dsimp only
  cases n.asn <;> cases n.external <;> cases n.calledOnly.isEmpty <;> simp [Table.names]

section

variable (n : Node)

theorem get?_prefixes : (writeNode n).get? "prefixes" = some (.strs n.networks) := rfl

theorem get?_interfaces : (writeNode n).get? "interfaces" =
    some (.object (n.interfaces.map fun (name, c) => (name, writeChains n c))) := rfl

theorem get?_asn : (writeNode n).get? "asn" = n.asn.map .int := by
  unfold writeNode
  dsimp only
  cases n.asn <;> cases n.external <;> cases n.calledOnly.isEmpty <;> rfl

theorem get?_external :
    (writeNode n).get? "external" = if n.external then some (.bool true) else none := by
  unfold writeNode
  dsimp only
  cases n.asn <;> cases n.external <;> cases n.calledOnly.isEmpty <;> rfl

theorem get?_policies : (writeNode n).get? "policies" = if n.calledOnly.isEmpty then none
    else some (.object (n.calledOnly.map fun p => (p.name, writePolicy p))) := by
  unfold writeNode
  dsimp only
  cases n.asn <;> cases n.external <;> cases n.calledOnly.isEmpty <;> rfl

end

end Condensed

/-! ### Documents -/

section

variable {n : Node}

theorem Json.held_object {members : Table Json} (distinct : members.names.Nodup)
    (all : members.All Held) : (object members).Held :=
  held_obj.mpr ⟨(Table.perm_arrange distinct).2, all.arrange⟩

theorem Policy.Legible.held {p : Policy} (legible : p.Legible) : (writePolicy p).Held := by
  apply Json.inherited_held.writePolicy
  rw [Statement.everyAll_iff]
  intro s member
  have every := (legible s member).2
  exact Statement.Every.both (fun _ _ each _ => each.mono fun _ own => own.writes) s every every

theorem Node.Legible.held_chain (legible : n.Legible) (names : List String) :
    (Json.arr ((n.chain names).map writePolicy)).Held := by
  apply Json.held_arr.mpr
  rw [List.forall_mem_map]
  intro p member
  obtain ⟨name, -, found⟩ := mem_chain.mp member
  exact (legible.texts.get? found).held

theorem Node.Legible.held_chains (legible : n.Legible) (c : Chains) : (writeChains n c).Held := by
  apply Json.inherited_held.object ["import", "export"] (by decide) rfl
  have imports := legible.held_chain c.imports
  have exports := legible.held_chain c.exports
  simp [Table.All, imports, exports]

theorem Node.Legible.held_interfaces (legible : n.Legible) :
    (Json.object (n.interfaces.map fun (name, c) => (name, writeChains n c))).Held := by
  apply Json.held_object
  · rw [Table.names, List.map_map]
    exact legible.interfaces
  · rw [Table.All, List.forall_mem_map]
    exact fun entry _ => legible.held_chains entry.2

theorem Node.Legible.held_policies (legible : n.Legible) :
    (Json.object (n.calledOnly.map fun p => (p.name, writePolicy p))).Held := by
  apply Json.held_object
  · rw [Table.names, List.map_map]
    exact legible.distinct_calledOnly
  · rw [Table.All, List.forall_mem_map]
    intro p member
    exact (legible.texts.get? (legible.get?_name (mem_calledOnly.mp member).1)).held

/-- A node is written as a value of a document. -/
theorem Node.Legible.held (legible : n.Legible) : (writeNode n).Held := by
  obtain ⟨members, written, plain⟩ := writeNode_object n
  rw [written]
  apply Json.inherited_held.members plain
  cases written
  refine ((Table.All.append ?_ ?_).append ?_).append ?_
  · have networks := Json.inherited_held.strs n.networks
    simpa [Table.All, networks] using legible.held_interfaces
  · rw [Table.All, List.forall_mem_map]
    intro asn own
    exact Json.held_int (legible.asn asn (Option.mem_toList.mp own))
  · split
    · exact Table.All.single (Json.inherited_held.bool true)
    · exact Table.All.nil
  · split
    · exact Table.All.nil
    · exact Table.All.single legible.held_policies

theorem Topology.held_nodes {t : Topology} (distinct : (t.nodes.map Node.name).Nodup)
    (legible : ∀ n ∈ t.nodes, n.Legible) :
    (Json.object (t.nodes.map fun n => (n.name, writeNode n))).Held := by
  apply Json.held_object
  · rw [Table.names, List.map_map]
    exact distinct
  · rw [Table.All, List.forall_mem_map]
    exact fun n member => (legible n member).held

/-- The condensed document of a topology is a document. -/
theorem Topology.held_toJson {t : Topology} (distinct : (t.nodes.map Node.name).Nodup)
    (legible : ∀ n ∈ t.nodes, n.Legible) : t.toJson.Held := by
  have nodes := held_nodes distinct legible
  have edges : (Json.arr (t.edges.map writeEdge)).Held := by
    apply Json.held_arr.mpr
    rw [List.forall_mem_map]
    intro edge _
    apply Json.held_arr.mpr
    simp [writeEndpoint, Json.inherited_held.strs]
  have version : (Json.nat Condensed.version).Held := by
    rw [Json.nat, Number.ofNat]
    exact Json.held_int (Number.ofInt_safe (by decide))
  apply Json.inherited_held.object ["version", "nodes", "edges"] (by decide) rfl
  simp [Table.All, version, nodes, edges]

end

end RoutePolicy
