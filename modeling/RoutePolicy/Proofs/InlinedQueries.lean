import RoutePolicy.Proofs.InlinedPolicies
import RoutePolicy.Proofs.ResolvedCalls

/-!
Definitions written out. The policies of a drafted topology have no names left, neither has what
simplification makes of them, and so no query comes to a name that is left.
-/

set_option autoImplicit false

namespace RoutePolicy

/-! ### Runs of policies without names -/

section

variable [Arithmetic]

namespace Execution

/-- A policy without names comes to a name only through what it calls. -/
theorem runPolicy_nameless {calls : Calls} {limit : Int} {assumptions : List Expr} {p : Policy}
    {start : Record} (nameless : p.references = []) {named : Reference}
    (fails : (runPolicy calls limit assumptions p start).FailsWith (.evaluation named.unresolved)) :
    ∃ policy r, (calls policy r).FailsWith (.evaluation named.unresolved) := by
  rcases runPolicy_failed fails with plain | ⟨e, r, evaluates, other, inside, -⟩ | asks
  · exact absurd plain (Cause.not_plain_unresolved named)
  · have left : other ∈ p.references :=
      Policy.mem_references.mpr ⟨e, evaluates.mem_exprsAll _, inside⟩
    rw [nameless] at left
    cases left
  · obtain ⟨policy, r, -, fails⟩ := asks
    exact ⟨policy, r, fails⟩

end Execution

/-- A table whose policies have no names. -/
def Table.Nameless (table : Table Policy) : Prop := ∀ p ∈ table.values, p.references = []

open Execution in
theorem Table.Nameless.callsFrom_resolved {table : Table Policy} (nameless : table.Nameless)
    (limit : Int) (stack : List String) (policy : String) (r : Record) (named : Reference) :
    ¬(callsFrom table limit stack policy r).FailsWith (.evaluation named.unresolved) := by
  refine callsFrom_spared (K := fun _ => True) ?_ ?_ ?_ stack trivial r
  · intro name
    cases named <;> simp [Reference.unresolved]
  · intro name _ _
    cases named <;> simp [Reference.unresolved]
  · intro p value calls r fails
    obtain ⟨callee, r', fails⟩ := runPolicy_nameless (nameless p value) fails
    exact ⟨callee, r', trivial, fails⟩

theorem Table.Nameless.run_resolved {table : Table Policy} (nameless : table.Nameless) (limit : Int)
    {e : Evaluation} (listed : e.policy ∈ table.values) (named : Reference) :
    ¬(e.run table limit).FailsWith (.evaluation named.unresolved) := by
  intro fails
  obtain ⟨callee, r, fails⟩ := Execution.runPolicy_nameless (nameless e.policy listed) fails
  exact nameless.callsFrom_resolved limit e.stack callee r named fails

/-! ### Topologies without names -/

namespace Topology

/-- A topology whose policies have no names. -/
def Nameless (t : Topology) : Prop := ∀ n ∈ t.nodes, n.policies.Nameless

variable {t : Topology}

theorem Nameless.ask_resolved (nameless : t.Nameless) (limits : Limits) (q : Query)
    (named : Reference) : ¬(t.ask limits q).FailsWith (.evaluation named.unresolved) := by
  intro fails
  rcases ask_failed fails with ⟨fault, other⟩ | ⟨bound, other⟩ | fails
  · cases other
  · cases other
  · obtain ⟨n, listed, e, value, fails⟩ := fails.exists_run (Cause.not_plain_unresolved named)
    exact (nameless n listed).run_resolved limits.paths value named fails

end Topology

end

namespace Topology

variable {t : Topology}

/-- Simplification brings no names into a topology. -/
theorem Nameless.simplified (nameless : t.Nameless) : t.simplified.Nameless := by
  rw [Nameless, Topology.simplified, List.forall_mem_map]
  intro n listed p value
  obtain ⟨⟨key, q⟩, member, rfl⟩ := List.mem_map.mp value
  obtain ⟨⟨name, before⟩, among, same⟩ := List.mem_map.mp member
  cases same
  have own := nameless n listed before (List.mem_map.mpr ⟨_, among, rfl⟩)
  exact List.subset_nil.mp (own ▸ before.references_simplify)

end Topology

/-! ### Drafted topologies -/

/-- The community sets of a draft are literals. -/
def Draft.LiteralSets (d : Draft) : Prop := d.definitions.sets.All (·.communities?.isSome = true)

theorem Draft.literalSets_invariant (keep : Bool) :
    Draft.Invariant keep (fun _ => True) (fun _ => True) Draft.LiteralSets where
  hereditary := Json.hereditary_true
  number _ _ _ _ := trivial
  text _ _ _ _ := trivial
  empty := Table.All.nil
  asn _ _ own _ := own
  external _ own := own
  networks _ _ own := own
  interface _ _ _ own := own
  policy _ _ _ _ own _ _ := own
  list _ _ _ own := own
  set _ _ _ _ own _ _ constant := own.put constant
  inlined _ _ _ _ _ _ other := other

/-- The policies of a draft have no names. -/
def Draft.Nameless (d : Draft) : Prop := d.policies.All (·.references = [])

theorem Draft.nameless_inlined :
    Draft.Inlined (fun _ => True) Draft.LiteralSets Draft.Nameless where
  empty := Table.All.nil
  asn _ _ own _ := own
  external _ own := own
  networks _ _ own := own
  interface _ _ _ own := own
  written d node policies d' literals done _ := by
    refine forall₂_right (Drafting.inlinePolicies_ok.mp done) (P := fun _ => True)
      (fun _ _ => trivial) ?_
    exact fun _ _ _ inlined => Policy.references_inline literals inlined.2

namespace Topology

variable {t : Topology}

/-- The policies of a topology drafted from tables have no names. -/
theorem nameless_of_ofTables {keep : Bool} {raw : Json}
    (drafted : (ofTables keep raw).1 = .ok t) : t.Nameless := by
  obtain ⟨-, nodes⟩ := made_of_inlined (Draft.literalSets_invariant keep) Draft.nameless_inlined
    trivial drafted
  intro n listed p value
  obtain ⟨d, nameless, same⟩ := nodes n listed
  obtain ⟨entry, member, rfl⟩ := List.mem_map.mp value
  rw [same] at member
  exact nameless.arrange entry member

/-- No query on a drafted topology, or on what simplification makes of it, comes to a name that is
left. -/
theorem resolved_of_ofTables {keep : Bool} {raw : Json}
    (drafted : (ofTables keep raw).1 = .ok t) {u : Topology} (either : u = t ∨ t.simplify = .ok u)
    (i : Inquiry) (limits : Limits) (q : Query) (named : Reference) :
    ¬(i.ask u limits q).1.FailsWith (.evaluation named.unresolved) := by
  have nameless : u.Nameless := by
    rcases either with rfl | simplified
    · exact nameless_of_ofTables drafted
    · obtain rfl := simplify_ok simplified
      exact (nameless_of_ofTables drafted).simplified
  rintro ⟨f, failed, cause⟩
  exact nameless.ask_resolved limits q named ⟨f, failed_of_inquiry failed, cause⟩

end Topology

namespace Filed

def definitions : Definitions :=
  ⟨[("customers", [⟨.deny, "10.1.0.0/16:16-24"⟩, ⟨.permit, "10.0.0.0/8:8-24"⟩])],
    [("ours", .lit none (.communities ["65000:1"]))]⟩

theorem valid : definitions.Valid :=
  ⟨List.forall_mem_singleton.mpr (by decide), List.forall_mem_singleton.mpr rfl⟩

/-- Adds communities to routes for customers that lack one, and accepts them. -/
def marking : Policy :=
  ⟨"P", [.branch none (.all [.inList none (.ref .network) "customers" none,
      .not none (.hasCommunity none (.union none [.ref .communities, .namedSet none "ours"])
        "65000:2")])
    [.assign none .communities (.union none [.ref .communities, .namedSet none "ours"])]
    [.finish none .reject] .absent]⟩

def marked : Expr := .union none [.ref .communities, .lit none (.communities ["65000:1"])]

def written : Policy :=
  ⟨"P", [.branch none (.all [.all [.not none (.inRanges none (.ref .network)
        ["10.1.0.0/16:16-24"] none), .inRanges none (.ref .network) ["10.0.0.0/8:8-24"] none],
      .not none (.hasCommunity none marked "65000:2")])
    [.assign none .communities marked] [.finish none .reject] .absent]⟩

theorem inlined : marking.inline definitions = .ok written := by
  with_unfolding_all rfl

/-- Asks a list about what another list, which is not there, says. -/
def nesting : Policy :=
  ⟨"N", [.branch none (.inList none (.inList none (.ref .network) "peers" none) "customers" none)
    [.finish none .accept] [] .absent]⟩

def endpoint (node : String) : Json := .obj [("hostname", .str node), ("interface", .str "e")]

def declaration (type name : String) (value : Table Json) : Json :=
  .obj [("Node", .str "a"), ("Structure_Type", .str type), ("Structure_Name", .str name),
    ("Structure_Definition", .obj [("value", .obj value)])]

def line (action network lengths : String) : Json :=
  .obj [("action", .str action), ("ipWildcard", .str network), ("lengthRange", .str lengths)]

def declarations : List Json :=
  [declaration "Routing_Policy" "P"
      [("statements", .arr (Encoding.writeStatements marking.statements))],
    declaration "Route_Filter_List" "customers"
      [("lines", .arr [line "DENY" "10.1.0.0/16" "16-24", line "PERMIT" "10.0.0.0/8" "8-24"])],
    declaration "Community_Set" "ours"
      [("class", .str "LiteralCommunitySet"), ("communitySet", .strs ["65000:1"])]]

def tables : Json :=
  .obj [("declarations", .arr declarations),
    ("interfaces", .arr [.obj [("Interface", endpoint "a"), ("Export_Policy", .strs ["P"])]]),
    ("ips", .arr []),
    ("topology", .arr [.obj [("Interface", endpoint "a"), ("Remote_Interface", endpoint "b")]])]

def topology : Topology :=
  ⟨[⟨"a", none, [], [("e", ⟨[], ["P"]⟩)], [("P", written)], false⟩,
    ⟨"b", none, [], [("e", ⟨[], []⟩)], [], false⟩], [⟨⟨"a", "e"⟩, ⟨"b", "e"⟩⟩]⟩

theorem drafted : (Topology.ofTables false tables).1 = .ok topology := by
  with_unfolding_all rfl

theorem simplified : topology.simplify = .ok topology.simplified := by
  with_unfolding_all rfl

end Filed

end RoutePolicy
