import RoutePolicy.Proofs.Drafting
import RoutePolicy.Proofs.LoadedTopologies
import RoutePolicy.Proofs.SimplifiedReferences

/-!
Topologies that are built from analysis tables are read back from the texts of their condensed
documents, with simplified policies or without, unless an AS number is negative: an AS number is
checked where a document is read, but not in the table of nodes.
-/

set_option autoImplicit false

namespace RoutePolicy

/-! ### Drafts -/

/-- A draft as documents hold it. -/
structure Draft.Stored (d : Draft) : Prop where
  interfaces : d.interfaces.names.Nodup
  policies : d.policies.names.Nodup
  named : ∀ entry ∈ d.policies, entry.2.name = entry.1
  stored : d.policies.All Policy.Stored
  sets : d.definitions.sets.All (·.Each Expr.Stored)
  asn : ∀ asn ∈ d.asn, Number.ofInt asn = .finite asn

theorem Tables.exact_of_asn? {j : Json} {asn : Nat} (parsed : j.Parsed)
    (found : Tables.asn? j = some asn) : Number.ofInt asn = .finite (asn : Int) := by
  unfold Tables.asn? at found
  split at found
  · rename_i n
    exact Number.exact_of_toNat? (parsed.numbers n (List.mem_singleton_self n)) found
  · dsimp only at found
    split at found
    · exact Number.exact_of_toNat? Number.isDouble_ofScientific found
    · cases found
  · cases found

theorem Draft.stored_invariant (keep : Bool) :
    Draft.Invariant keep Json.Parsed (fun asn => Number.ofInt asn = .finite asn) Draft.Stored where
  hereditary := Json.parsed_hereditary
  number n _ parsed whole :=
    Number.exact_of_toInt? (parsed.numbers n (List.mem_singleton_self n)) whole
  text _ _ parsed found := Tables.exact_of_asn? parsed found
  empty := ⟨List.nodup_nil, List.nodup_nil, nofun, Table.All.nil, Table.All.nil, nofun⟩
  asn d asn own exactly := { own with asn := by rintro _ ⟨⟩; exact exactly }
  external _ own := { own with }
  networks _ _ own := { own with }
  interface _ _ _ own := { own with interfaces := Table.nodup_put own.interfaces }
  policy d name j block own parsed read :=
    have kempt := (Table.Kempt.mk own.policies own.named).put ⟨name, block⟩
    { own with
      policies := kempt.distinct
      named := kempt.named
      stored := own.stored.put (Encoding.readStatements_stored parsed read name) }
  list _ _ _ own := { own with }
  set _ _ _ _ own parsed read _ := { own with
    sets := own.sets.put (Expr.stored_writable.simplify (Encoding.readExpr_stored parsed read)) }
  inlined d node policies d' own done other := by
    have kempt := (Table.Kempt.mk own.policies own.named).inlined done
    refine { other with policies := kempt.distinct, named := kempt.named, stored := ?_ }
    exact forall₂_right (Drafting.inlinePolicies_ok.mp done) own.stored
      fun _ _ stored written => stored.inline own.sets written.2

/-! ### Nodes -/

theorem Draft.Stored.toNode {d : Draft} (stored : d.Stored) (name : String) :
    (d.toNode name).Stored :=
  have kempt := (Table.Kempt.mk stored.policies stored.named).arrange
  ⟨stored.interfaces, kempt.distinct, kempt.named, stored.stored.arrange, stored.asn⟩

namespace Node.Stored

variable {n : Node}

theorem simplified (stored : n.Stored) : n.simplified.Stored where
  interfaces := stored.interfaces
  policies := by
    have names : n.policies.simplified.names = n.policies.names := by
      rw [Table.simplified, Table.names, List.map_map]
      rfl
    exact names ▸ stored.policies
  named := by
    rw [Node.simplified, Table.simplified, List.forall_mem_map]
    exact stored.named
  stored := by
    rw [Node.simplified, Table.simplified, Table.All, List.forall_mem_map]
    exact fun entry member => (stored.stored entry member).simplify
  asn := stored.asn

end Node.Stored

/-- A reader that keeps unknown classes lets every policy in. -/
theorem Policy.admitted_true (p : Policy) : p.Admitted true :=
  (Statement.everyAll_exprs p.statements).mpr fun _ _ _ _ _ => rfl

/-! ### Texts of topologies -/

namespace Condensed

variable {keep : Bool}

theorem nonneg_of_readAsn {place : Location} {asn result : Option Int}
    (exactly : ∀ i ∈ asn, Number.ofInt i = .finite i)
    (read : readAsn place (asn.map .int) = .ok result) : ∀ i ∈ asn, 0 ≤ i := by
  rintro i rfl
  by_contra negative
  have none : (Number.ofInt i).toNat? = none := by
    rw [exactly i rfl]
    simp [Number.toNat?, Number.toInt?, negative]
  rw [Option.map_some, Json.int, readAsn, none] at read
  cases read

/-- The AS number of a node that is read back is not negative. -/
theorem nonneg_of_readNode {n m : Node} (legible : n.Legible)
    (read : readNode keep n.name (writeNode n) = .ok m) : ∀ asn ∈ n.asn, 0 ≤ asn := by
  obtain ⟨members, object, read⟩ := Outcome.bind_ok.mp read
  obtain ⟨asn, numbered, -⟩ := Outcome.bind_ok.mp read
  have written : members.get? "asn" = n.asn.map .int := by
    rw [← get?_asn n, Option.some.inj (object_ok object)]
    rfl
  exact nonneg_of_readAsn legible.asn (written ▸ numbered)

end Condensed

namespace Topology

variable {keep : Bool} {raw : Json} {t : Topology}

/-- The nodes of a topology that was built from tables are nodes as documents hold them. -/
theorem stored_of_ofTables (parsed : raw.Parsed) (built : (ofTables keep raw).1 = .ok t) :
    t.Resolved ∧ ∀ n ∈ t.nodes, n.Stored := by
  obtain ⟨created, nodes⟩ := made_of_ofTables (Draft.stored_invariant keep) parsed built
  refine ⟨(create_iff.mp created).2, fun n member => ?_⟩
  obtain ⟨d, stored, same⟩ := nodes n member
  rw [same]
  exact stored.toNode n.name

/-- A topology and what its texts, on one line or on many, are read back as by a reader that keeps
unknown classes. -/
structure ReadBack (t u : Topology) : Prop where
  compact : (Json.read? t.toJson.compact).map (ofJson true) = some (.ok u)
  pretty : (Json.read? (t.toJson.pretty ++ "\n")).map (ofJson true) = some (.ok u)
  fingerprint : u.fingerprint = t.fingerprint
  restored : t.Restored u

theorem exists_readBack (resolved : t.Resolved) (stored : ∀ n ∈ t.nodes, n.Stored)
    (asns : ∀ n ∈ t.nodes, ∀ asn ∈ n.asn, 0 ≤ asn) : ∃ u, t.ReadBack u := by
  have legible : ∀ n ∈ t.nodes, n.Legible := fun n member => (stored n member).legible
  have held := held_toJson resolved.distinct legible
  obtain ⟨u, read, restored⟩ := ofJson_toJson resolved fun n member =>
    (stored n member).storable (fun entry _ => entry.2.admitted_true) (asns n member)
  refine ⟨u, ⟨?_, ?_, ?_, restored⟩⟩
  · rw [Json.read?_compact held, Option.map_some, read]
  · rw [Json.read?_pretty held, Option.map_some, read]
  · exact congrArg Digest.sha256 (restored.canonical resolved.distinct legible)

theorem nonneg_of_ofJson (resolved : t.Resolved) (legible : ∀ n ∈ t.nodes, n.Legible) {u : Topology}
    (read : ofJson keep t.toJson = .ok u) : ∀ n ∈ t.nodes, ∀ asn ∈ n.asn, 0 ≤ asn := by
  intro n member
  obtain ⟨-, ms, js, whole, found, related⟩ := ofJson_ok read
  obtain rfl := Json.obj.inj whole
  obtain rfl := Json.obj.inj (Option.some.inj found)
  have names : (Table.names (t.nodes.map fun n => (n.name, Condensed.writeNode n))).Nodup := by
    rw [Table.names, List.map_map]
    exact resolved.distinct
  have listed : (n.name, Condensed.writeNode n) ∈
      Table.arrange (t.nodes.map fun n => (n.name, Condensed.writeNode n)) :=
    (Table.perm_arrange names).1.mem_iff.mpr (List.mem_map_of_mem member)
  obtain ⟨m, -, own⟩ := exists_of_forall₂ related listed
  exact Condensed.nonneg_of_readNode (legible n member) own

theorem exists_readBack_iff (resolved : t.Resolved) (stored : ∀ n ∈ t.nodes, n.Stored) :
    (∃ u, t.ReadBack u) ↔ ∀ n ∈ t.nodes, ∀ asn ∈ n.asn, 0 ≤ asn := by
  refine ⟨?_, exists_readBack resolved stored⟩
  rintro ⟨u, back⟩
  have legible : ∀ n ∈ t.nodes, n.Legible := fun n member => (stored n member).legible
  have read := back.compact
  rw [Json.read?_compact (held_toJson resolved.distinct legible), Option.map_some] at read
  exact nonneg_of_ofJson resolved legible (Option.some.inj read)

end Topology

/-! ### Tables of a node that exports by a policy that calls another -/

namespace Surveyed

def declaration (name : String) (statement : Json) : Json :=
  .obj [("Node", .str "a"), ("Structure_Type", .str "Routing_Policy"),
    ("Structure_Name", .str name),
    ("Structure_Definition", .obj [("value", .obj [("statements", .arr [statement])])])]

def exporting : Json :=
  .obj [("Interface", .obj [("hostname", .str "a"), ("interface", .str "e")]),
    ("Export_Policy", .strs ["P"])]

/-- The tables of a network with one node, which has a given AS number. -/
def tables (asn : Int) : Json :=
  .obj [("nodes", .arr [.obj [("Node", .str "a"), ("AS", .int asn)]]),
    ("declarations", .arr [declaration "P" Leftovers.calling, declaration "Q" Leftovers.ending]),
    ("interfaces", .arr [exporting]), ("ips", .arr []), ("topology", .arr [])]

def policies : Table Policy :=
  [("P", ⟨"P", [.branch none (.call none "Q") [Leftovers.accepting] [] .absent]⟩),
    ("Q", ⟨"Q", [Leftovers.accepting]⟩)]

def topology (asn : Int) : Topology :=
  ⟨[⟨"a", some asn, [], [("e", ⟨[], ["P"]⟩)], policies, false⟩], []⟩

theorem parsed {asn : Int} (exactly : Number.ofInt asn = .finite asn) : (tables asn).Parsed := by
  have inherited := Json.inherited_held
  have declared : ∀ name statement, Json.Held statement → (declaration name statement).Held := by
    intro name statement own
    have body := inherited.object ["statements"] (by decide) rfl
      (.single (Json.held_arr.mpr (List.forall_mem_singleton.mpr own)))
    have definition := inherited.object ["value"] (by decide) rfl (.single body)
    apply inherited.object ["Node", "Structure_Type", "Structure_Name", "Structure_Definition"]
      (by decide) rfl
    simp [Table.All, inherited.str, definition]
  have node : (Json.obj [("Node", .str "a"), ("AS", .int asn)]).Held :=
    inherited.object ["Node", "AS"] (by decide) rfl
      (by simp [Table.All, inherited.str, Json.held_int exactly])
  have exporting : exporting.Held := by
    have cell : (Json.obj [("hostname", .str "a"), ("interface", .str "e")]).Held :=
      inherited.object ["hostname", "interface"] (by decide) rfl
        (by simp [Table.All, inherited.str])
    apply inherited.object ["Interface", "Export_Policy"] (by decide) rfl
    simp [Table.All, inherited.strs, cell]
  have whole : (tables asn).Held := by
    apply inherited.object ["nodes", "declarations", "interfaces", "ips", "topology"]
      (by decide) rfl
    simp [Table.All, Json.held_arr, node, exporting, declared _ _ Leftovers.held_calling,
      declared _ _ Leftovers.held_ending]
  exact ⟨fun n member _ => whole.numbers n member, whole.ordered⟩

theorem drafted : (Topology.ofTables false (tables 65001)).1 = .ok (topology 65001) := by
  with_unfolding_all rfl

theorem drafted_negative : (Topology.ofTables false (tables (-1))).1 = .ok (topology (-1)) := by
  with_unfolding_all rfl

end Surveyed

end RoutePolicy
