import RoutePolicy.Proofs.Loading

/-!
The references of a topology. A topology is created exactly if all its references resolve, and what
a node's chains reach by calls is exactly what the closure of its bound policies lists.
-/

set_option autoImplicit false

namespace RoutePolicy

/-! ### Checks of a topology -/

/-- A check and what comes after it both succeed. -/
theorem Outcome.check_ok {α : Type} {check : Outcome Unit} {next : Outcome α} {a : α} :
    (check >>= fun _ => next) = .ok a ↔ check = .ok () ∧ next = .ok a := by
  rw [Outcome.bind_ok]
  exact ⟨fun ⟨_, passed, found⟩ => ⟨passed, found⟩, fun ⟨passed, found⟩ => ⟨(), passed, found⟩⟩

/-- The networks of a node are well formed, and its chains and policies refer to policies it has. -/
structure Node.Resolved (n : Node) : Prop where
  networks : ∀ text ∈ n.networks, (Network.parse? text).isSome = true
  bound : ∀ entry ∈ n.interfaces, ∀ policy ∈ entry.2.policies, n.policies.has policy = true
  calls : ∀ p ∈ n.policies.values, ∀ callee ∈ Statement.calls p.statements,
    n.policies.has callee = true

namespace Topology

/-- An end of an edge is an interface of a node. -/
def HasEnd (t : Topology) (e : Endpoint) : Prop :=
  ∃ n, t.node? e.node = some n ∧ n.interfaces.has e.interface = true

/-- All references resolve. -/
structure Resolved (t : Topology) : Prop where
  distinct : (t.nodes.map Node.name).Nodup
  nodes : ∀ n ∈ t.nodes, n.Resolved
  ends : ∀ edge ∈ t.edges, t.HasEnd edge.source ∧ t.HasEnd edge.target

theorem failWhen_ok {wrong : Bool} {fault : TopologyFault} {context : Context} :
    failWhen wrong fault context = .ok () ↔ wrong = false := by
  cases wrong <;> simp [failWhen]

theorem checkAll_ok {α : Type} {check : α → Outcome Unit} {items : List α} :
    checkAll check items = .ok () ↔ ∀ item ∈ items, check item = .ok () := by
  induction items with
  | nil => simp [checkAll]
  | cons item rest ih => rw [checkAll, Outcome.check_ok, ih, List.forall_mem_cons]

theorem checkNode_ok {n : Node} : checkNode n = .ok () ↔ n.Resolved := by
  simp only [checkNode, Outcome.check_ok, checkAll_ok, failWhen_ok]
  constructor
  · rintro ⟨networks, bound, calls⟩
    exact ⟨by simpa using networks, by simpa using bound, by simpa using calls⟩
  · rintro ⟨networks, bound, calls⟩
    exact ⟨by simpa using networks, by simpa using bound, by simpa using calls⟩

theorem checkNodes_ok {earlier : List String} {nodes : List Node} :
    checkNodes earlier nodes = .ok () ↔
      (∀ n ∈ nodes, n.name ∉ earlier ∧ n.Resolved) ∧ (nodes.map Node.name).Nodup := by
  induction nodes generalizing earlier with
  | nil => simp [checkNodes]
  | cons n rest ih =>
    simp only [checkNodes, Outcome.check_ok, failWhen_ok, checkNode_ok, ih, List.forall_mem_cons,
      List.map_cons, List.nodup_cons, List.mem_map]
    constructor
    · rintro ⟨fresh, own, later, distinct⟩
      refine ⟨⟨⟨by simpa using fresh, own⟩, fun m member => ?_⟩, ?_, distinct⟩
      · obtain ⟨apart, resolved⟩ := later m member
        exact ⟨fun known => apart (List.mem_append_left _ known), resolved⟩
      · rintro ⟨m, member, same⟩
        exact (later m member).1 (List.mem_append_right _ (by simp [same]))
    · rintro ⟨⟨⟨fresh, own⟩, later⟩, apart, distinct⟩
      refine ⟨by simpa using fresh, own, fun m member => ⟨?_, (later m member).2⟩, distinct⟩
      intro known
      rcases List.mem_append.mp known with old | new
      · exact (later m member).1 old
      · exact apart ⟨m, member, List.mem_singleton.mp new⟩

theorem checkEnd_ok {t : Topology} {e : Endpoint} : t.checkEnd e = .ok () ↔ t.HasEnd e := by
  unfold checkEnd HasEnd
  cases t.node? e.node with
  | none => simp
  | some n => simp [failWhen_ok]

/-- A topology is created exactly if all its references resolve. -/
theorem create_iff {nodes : List Node} {edges : List Edge} {t : Topology} :
    create nodes edges = .ok t ↔ t = ⟨nodes, edges⟩ ∧ t.Resolved := by
  simp only [create, Outcome.check_ok, checkNodes_ok, checkAll_ok, checkEnd_ok, Except.ok.injEq]
  constructor
  · rintro ⟨⟨each, distinct⟩, ends, rfl⟩
    exact ⟨rfl, distinct, fun n member => (each n member).2, ends⟩
  · rintro ⟨rfl, distinct, each, ends⟩
    exact ⟨⟨fun n member => ⟨List.not_mem_nil, each n member⟩, distinct⟩, ends, rfl⟩

/-- A node is found under its name. -/
theorem node?_iff {t : Topology} (distinct : (t.nodes.map Node.name).Nodup) {name : String}
    {n : Node} : t.node? name = some n ↔ n ∈ t.nodes ∧ n.name = name := by
  constructor
  · intro found
    exact ⟨List.mem_of_find?_eq_some found, by simpa using List.find?_some found⟩
  · rintro ⟨member, rfl⟩
    cases found : t.node? n.name with
    | none =>
      have missing := List.find?_eq_none.mp found n member
      simp at missing
    | some other =>
      have same : other.name = n.name := by simpa using List.find?_some found
      rw [List.inj_on_of_nodup_map distinct (List.mem_of_find?_eq_some found) member same]

end Topology

/-! ### Calls -/

namespace Node

variable {n : Node} {known : List String}

/-- The policies that known ones reach by calls. -/
inductive Reaches (n : Node) (known : List String) : String → Prop where
  | known {name : String} (member : name ∈ known) : Reaches n known name
  | called {name callee : String} (earlier : Reaches n known name)
      (call : callee ∈ n.callees name) : Reaches n known callee

theorem Reaches.trans {more : List String} (within : ∀ name ∈ more, n.Reaches known name)
    {name : String} (reaches : n.Reaches more name) : n.Reaches known name := by
  induction reaches with
  | known member => exact within _ member
  | called _ call ih => exact .called ih call

/-- The closure lists what is reached, and nothing else. -/
theorem mem_closure {name : String} : name ∈ n.closure known ↔ n.Reaches known name := by
  fun_induction closure n known with
  | case1 known closed =>
    refine ⟨.known, fun reaches => ?_⟩
    induction reaches with
    | known member => exact member
    | called _ call ih =>
      by_contra fresh
      have new : _ ∈ n.newCallees known :=
        List.mem_filter.mpr ⟨List.mem_flatMap.mpr ⟨_, ih, call⟩, by simpa using fresh⟩
      rw [closed] at new
      cases new
  | case2 known grows ih =>
    rw [ih]
    constructor
    · apply Reaches.trans
      intro name member
      rcases List.mem_append.mp member with old | new
      · exact .known old
      · obtain ⟨caller, own, call⟩ := List.mem_flatMap.mp (List.mem_filter.mp new).1
        exact .called (.known own) call
    · exact Reaches.trans fun name member => .known (List.mem_append_left _ member)

/-- The policies that are only called are those that bound ones reach, the bound ones apart. -/
theorem mem_calledOnly {p : Policy} : p ∈ n.calledOnly ↔
    p ∈ n.policies.values ∧ n.Reaches n.bound p.name ∧ p.name ∉ n.bound := by
  simp only [calledOnly, List.mem_filter, List.contains_iff_mem, mem_closure, decide_eq_true_eq]

theorem mem_bound {name : String} :
    name ∈ n.bound ↔ ∃ entry ∈ n.interfaces, name ∈ entry.2.policies := by
  rw [bound, Table.values, List.flatMap_map, List.mem_flatMap]

/-- Whatever a node's chains reach is a policy of the node. -/
theorem Resolved.reached {n : Node} (resolved : n.Resolved) {name : String}
    (reaches : n.Reaches n.bound name) : n.policies.has name = true := by
  induction reaches with
  | known member =>
    obtain ⟨entry, listed, named⟩ := mem_bound.mp member
    exact resolved.bound entry listed _ named
  | @called caller callee _ call ih =>
    unfold callees at call
    cases found : n.policies.get? caller with
    | none => simp [found] at call
    | some p =>
      rw [found] at call
      have value : p ∈ n.policies.values := List.mem_map.mpr ⟨_, Table.mem_of_get? found, rfl⟩
      exact resolved.calls p value callee call

/-- The names of the policies that are only called are those that chains reach and do not name. -/
theorem mem_calledOnly_names {n : Node} (resolved : n.Resolved)
    (named : ∀ entry ∈ n.policies, entry.2.name = entry.1) {name : String} :
    name ∈ n.calledOnly.map Policy.name ↔ n.Reaches n.bound name ∧ name ∉ n.bound := by
  constructor
  · intro member
    obtain ⟨p, listed, rfl⟩ := List.mem_map.mp member
    exact (mem_calledOnly.mp listed).2
  · rintro ⟨reaches, apart⟩
    obtain ⟨p, found⟩ := Option.isSome_iff_exists.mp (resolved.reached reaches)
    have listed := Table.mem_of_get? found
    obtain rfl : p.name = name := named _ listed
    have value : p ∈ n.policies.values := List.mem_map.mpr ⟨_, listed, rfl⟩
    exact List.mem_map.mpr ⟨p, mem_calledOnly.mpr ⟨value, reaches, apart⟩, rfl⟩

end Node

end RoutePolicy
