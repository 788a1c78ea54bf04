import RoutePolicy.Proofs.Restoration
import RoutePolicy.Proofs.StoredPolicies

/-!
Topologies that are loaded from condensed documents consist of nodes as documents hold them. Their
own documents are read back with the same option, to the same nodes and edges; all that is lost are
the policies that no chain reaches.
-/

set_option autoImplicit false

namespace RoutePolicy

/-- A number that is an integer is the number of that integer. -/
theorem Number.exact_of_toInt? {n : Number} {i : Int} (double : n.isFinite = true → n.IsDouble)
    (whole : n.toInt? = some i) : Number.ofInt i = .finite i := by
  obtain rfl := Encoding.toInt?_some.mp whole
  obtain ⟨q, same, kept⟩ := double rfl
  cases same
  exact kept

theorem Number.exact_of_toNat? {n : Number} {k : Nat} (double : n.isFinite = true → n.IsDouble)
    (whole : n.toNat? = some k) : Number.ofInt k = .finite (k : Int) := by
  obtain ⟨i, found, same⟩ := Option.bind_eq_some_iff.mp whole
  split at same
  · rename_i positive
    cases same
    rw [Int.toNat_of_nonneg positive]
    exact exact_of_toInt? double found
  · cases same

/-! ### Nodes -/

/-- A node as documents hold it. -/
structure Node.Stored (n : Node) : Prop where
  interfaces : n.interfaces.names.Nodup
  policies : n.policies.names.Nodup
  named : ∀ entry ∈ n.policies, entry.2.name = entry.1
  stored : n.policies.All Policy.Stored
  asn : ∀ asn ∈ n.asn, Number.ofInt asn = .finite asn

theorem Node.Stored.legible {n : Node} (stored : n.Stored) : n.Legible where
  interfaces := stored.interfaces
  policies := stored.policies
  named := stored.named
  texts entry member := (stored.stored entry member).legible
  asn := stored.asn

theorem Node.Stored.storable {keep : Bool} {n : Node} (stored : n.Stored)
    (admitted : n.policies.All (Policy.Admitted keep)) (asns : ∀ asn ∈ n.asn, 0 ≤ asn) :
    n.Storable keep where
  legible := stored.legible
  read entry member := Encoding.readPolicy_writePolicy_of_admitted entry.2
    (stored.stored entry member).wellFormed (admitted entry member)
  asn := asns

namespace Encoding

variable {keep : Bool} {j : Json} {p : Policy}

/-- A policy that is read from a value that was parsed is one that documents hold. -/
theorem readPolicy_stored (parsed : j.Parsed) (read : readPolicy keep j = .ok p) : p.Stored := by
  obtain ⟨ms, rfl, -, -, items, found, related⟩ := readPolicy_ok.mp read
  exact readStatements_stored (parsed.get? found) (block_iff.mpr ⟨items, rfl, related⟩) p.name

end Encoding

namespace Condensed

variable {keep : Bool}

theorem promises_stored :
    Promises keep Json.Parsed fun p => p.Stored ∧ p.Admitted keep where
  hereditary := Json.parsed_hereditary
  reads _ _ parsed read :=
    ⟨Encoding.readPolicy_stored parsed read, (Encoding.readPolicy_iff_admitted.mp read).2⟩

theorem readAsn_ok {place : Location} {j : Option Json} {asn : Option Int}
    (parsed : ∀ value, j = some value → value.Parsed) (read : readAsn place j = .ok asn) :
    ∀ i ∈ asn, 0 ≤ i ∧ Number.ofInt i = .finite i := by
  unfold readAsn at read
  split at read
  · cases read
    exact nofun
  · rename_i n
    split at read
    · rename_i k whole
      cases read
      rintro _ ⟨⟩
      have double := (parsed _ rfl).numbers n (List.mem_singleton_self n)
      exact ⟨Int.natCast_nonneg k, Number.exact_of_toNat? double whole⟩
    · cases read
  · cases read

/-- A node that is read from a value that was parsed is one that its document holds, and its
interfaces stand in the order of documents. -/
theorem readNode_storable {name : String} {j : Json} {n : Node} (parsed : j.Parsed)
    (read : readNode keep name j = .ok n) : n.Storable keep ∧ n.interfaces.Arranged := by
  obtain ⟨-, collected, ms, rfl, numbered, js, interfaces, names⟩ :=
    readNode_ok promises_stored parsed read
  have asns := readAsn_ok (fun _ found => parsed.get? found) numbered
  have arranged : n.interfaces.Arranged :=
    (Json.held_obj.mp (parsed.get? interfaces)).1.of_names names
  have stored : n.Stored := {
    interfaces := arranged.distinct
    policies := collected.distinct
    named := collected.named
    stored := fun entry member => (collected.all entry member).1
    asn := fun asn given => (asns asn given).2 }
  refine ⟨stored.storable (fun entry member => (collected.all entry member).2) ?_, arranged⟩
  exact fun asn given => (asns asn given).1

end Condensed

/-- A node without the policies that its chains do not reach. -/
structure Node.Pruned (n m : Node) : Prop where
  same : m = { n with policies := m.policies }
  policies : ∀ name p, m.policies.get? name = some p ↔
    n.Reaches n.bound name ∧ n.policies.get? name = some p

theorem Node.Restored.pruned {n m : Node} (restored : n.Restored m)
    (arranged : n.interfaces.Arranged) : n.Pruned m := by
  refine ⟨?_, restored.policies⟩
  have interfaces := restored.interfaces.trans arranged.arrange
  rw [← restored.name, ← restored.asn, ← restored.networks, ← interfaces, ← restored.external]

namespace Topology

variable {keep : Bool} {document : Json} {t : Topology}

/-- The nodes of a document stand in its order. -/
theorem listed_of_ofJson (parsed : document.Parsed) (read : ofJson keep document = .ok t) :
    t.listed = t.nodes := by
  obtain ⟨-, ms, js, rfl, found, related⟩ := ofJson_ok read
  have own := Json.held_obj.mp (parsed.get? found)
  have names : (t.nodes.map Node.name) = Table.names js := by
    rw [Table.names, map_eq_iff_forall₂]
    refine (forall₂_of_mem related fun entry member n _ read => ?_).flip
    exact (Condensed.readNode_ok Condensed.promises_stored (own.2 entry member) read).1
  have arranged : Table.Arranged (t.nodes.map fun n => (n.name, n)) := by
    refine own.1.of_names ?_
    rw [← names, Table.names, List.map_map]
    rfl
  rw [listed, arranged.arrange, Table.values, List.map_map]
  exact List.map_id _

end Topology

/-! ### A document with policies that are called and one that is not -/

namespace Leftovers

def ending : Json := .obj [("class", .str "StaticStatement"), ("type", .str "ExitAccept")]

def policyDocument (name : String) (statement : Json) : Json :=
  .obj [("name", .str name), ("statements", .arr [statement])]

def calling : Json :=
  .obj [("class", .str "If"),
    ("guard", .obj [("class", .str "CallExpr"), ("calledPolicyName", .str "Q")]),
    ("trueStatements", .arr [ending]), ("falseStatements", .arr [])]

def chains : Json := .obj [("import", .arr []), ("export", .arr [policyDocument "P" calling])]

def listed : Json := .obj [("Q", policyDocument "Q" ending), ("R", policyDocument "R" ending)]

/-- A node that exports by `P`, which calls `Q`, and lists a policy `R` besides. -/
def document : Json :=
  .obj [("version", .nat 1), ("nodes", .obj [("a", .obj [("prefixes", .strs ["10.0.0.0/8"]),
      ("interfaces", .obj [("e", chains)]), ("policies", listed)])]), ("edges", .arr [])]

def accepting : Statement := .finish none .accept

def policies : Table Policy :=
  [("P", ⟨"P", [.branch none (.call none "Q") [accepting] [] .absent]⟩), ("Q", ⟨"Q", [accepting]⟩),
    ("R", ⟨"R", [accepting]⟩)]

def topology : Topology :=
  ⟨[⟨"a", none, ["10.0.0.0/8"], [("e", ⟨[], ["P"]⟩)], policies, false⟩], []⟩

theorem held_ending : ending.Held :=
  Json.inherited_held.object ["class", "type"] (by decide) rfl
    (by simp [Table.All, Json.inherited_held.str])

theorem held_calling : calling.Held := by
  have inherited := Json.inherited_held
  have guard : (Json.obj [("class", .str "CallExpr"), ("calledPolicyName", .str "Q")]).Held :=
    inherited.object ["class", "calledPolicyName"] (by decide) rfl
      (by simp [Table.All, inherited.str])
  apply inherited.object ["class", "guard", "trueStatements", "falseStatements"] (by decide) rfl
  simp [Table.All, inherited.str, Json.held_arr, guard, held_ending]

theorem parsed : document.Parsed := by
  have inherited := Json.inherited_held
  have policy : ∀ name statement, Json.Held statement → (policyDocument name statement).Held := by
    intro name statement own
    apply inherited.object ["name", "statements"] (by decide) rfl
    simp [Table.All, inherited.str, Json.held_arr, own]
  have chains : chains.Held := by
    apply inherited.object ["import", "export"] (by decide) rfl
    simp [Table.All, Json.held_arr, policy _ _ held_calling]
  have interfaces := inherited.object ["e"] (by decide) rfl (Table.All.single chains)
  have listed : listed.Held := by
    apply inherited.object ["Q", "R"] (by decide) rfl
    simp [Table.All, policy _ _ held_ending]
  have whole : document.Held := by
    apply inherited.object ["version", "nodes", "edges"] (by decide) rfl
    have version : (Json.nat 1).Held := Json.held_int (Number.ofInt_safe (by decide))
    have networks := inherited.strs ["10.0.0.0/8"]
    have edges : (Json.arr []).Held := Json.held_arr.mpr (List.forall_mem_nil _)
    have node := inherited.object ["prefixes", "interfaces", "policies"] (by decide) rfl
      (.append (.single networks) (.append (.single interfaces) (.single listed)))
    have nodes := inherited.object ["a"] (by decide) rfl (Table.All.single node)
    exact .append (.single version) (.append (.single nodes) (.single edges))
  exact ⟨fun n member _ => whole.numbers n member, whole.ordered⟩

theorem loaded : Topology.ofJson false document = .ok topology := by with_unfolding_all rfl

end Leftovers

end RoutePolicy
