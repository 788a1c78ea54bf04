import RoutePolicy.Proofs.Outlines
import RoutePolicy.Proofs.Reachability
import RoutePolicy.Proofs.References

/-!
What the answer to a query depends on: the nodes in their order, with their networks and the policies
that their chains reach, and the edges. Policies out of reach, AS numbers and the order of interfaces
and policies do not count.
-/

set_option autoImplicit false

namespace RoutePolicy

/-- Chains of policies that run alike, in the same order. -/
structure Chains.Alike (names : String → Prop) (n m : Node) (c d : Chains) : Prop where
  imports : List.Forall₂ (Policy.Resembles names) (n.chain c.imports) (m.chain d.imports)
  exports : List.Forall₂ (Policy.Resembles names) (n.chain c.exports) (m.chain d.exports)

/-- Nodes that send and receive alike. -/
structure Node.Alike (n m : Node) : Prop where
  name : n.name = m.name
  external : n.external = m.external
  networks : n.networks = m.networks
  policies : Table.Agree (n.Reaches n.bound) n.policies m.policies
  interfaces : ∀ name, Option.Rel (Chains.Alike (n.Reaches n.bound) n m)
    (n.interfaces.get? name) (m.interfaces.get? name)

/-- Topologies with alike nodes in one order, and the same edges. -/
structure Topology.Alike (t u : Topology) : Prop where
  nodes : List.Forall₂ Node.Alike t.nodes u.nodes
  edges : t.edges = u.edges

namespace Topology

variable {t u : Topology}

theorem Alike.node? (alike : t.Alike u) (name : String) :
    Option.Rel Node.Alike (t.node? name) (u.node? name) := by
  have nodes := alike.nodes
  unfold Topology.node?
  generalize t.nodes = ns at nodes ⊢
  generalize u.nodes = ms at nodes ⊢
  induction nodes with
  | nil => exact .none
  | cons first _ ih =>
    rw [List.find?_cons, List.find?_cons, first.name]
    split
    · exact .some first
    · exact ih

theorem Alike.edgesFrom (alike : t.Alike u) (node : String) :
    Propagation.edgesFrom t node = Propagation.edgesFrom u node := by
  unfold Propagation.edgesFrom outgoing
  rw [alike.edges]

/-- At an end of an edge the chains run alike, and so do the policies they call. -/
theorem Alike.ends (alike : t.Alike u) (e : Endpoint) : ∃ names : String → Prop,
    Table.Agree names (t.policies e.node) (u.policies e.node) ∧
      List.Forall₂ (Policy.Resembles names) (t.importChain e) (u.importChain e) ∧
      List.Forall₂ (Policy.Resembles names) (t.exportChain e) (u.exportChain e) := by
  have nodes := alike.node? e.node
  unfold policies importChain exportChain chainOf chains
  generalize t.node? e.node = found at nodes ⊢
  generalize u.node? e.node = other at nodes ⊢
  cases nodes with
  | none => exact ⟨fun _ => False, nofun, .nil, .nil⟩
  | @some n m same =>
    refine ⟨n.Reaches n.bound, same.policies, ?_⟩
    have interfaces := same.interfaces e.interface
    simp only [Option.bind_some]
    generalize n.interfaces.get? e.interface = found at interfaces ⊢
    generalize m.interfaces.get? e.interface = other at interfaces ⊢
    cases interfaces with
    | none => exact ⟨.nil, .nil⟩
    | some chains => exact ⟨chains.imports, chains.exports⟩

end Topology

/-! ### Propagation -/

theorem Policy.Resembles.names {names : String → Prop} {ps qs : List Policy}
    (related : List.Forall₂ (Policy.Resembles names) ps qs) :
    ps.map Policy.name = qs.map Policy.name := by
  induction related with
  | nil => rfl
  | cons first _ ih => rw [List.map_cons, List.map_cons, first.name, ih]

namespace Propagation

variable [Arithmetic] {t u : Topology} (alike : t.Alike u)

include alike

theorem pass_exports (paths : Int) (e : Endpoint) (assumptions : List Expr) (r : Record) :
    pass t paths e (t.exportChain e) assumptions r =
      pass u paths e (u.exportChain e) assumptions r := by
  obtain ⟨names, tables, -, exports⟩ := alike.ends e
  rw [pass, pass, evaluateChain_agree tables exports]

theorem pass_imports (paths : Int) (e : Endpoint) (assumptions : List Expr) (r : Record) :
    pass t paths e (t.importChain e) assumptions r =
      pass u paths e (u.importChain e) assumptions r := by
  obtain ⟨names, tables, imports, -⟩ := alike.ends e
  rw [pass, pass, evaluateChain_agree tables imports]

omit [Arithmetic] in
theorem hop_exports (edge : Edge) (path : Path) :
    hop edge .leaving (t.exportChain edge.source) path =
      hop edge .leaving (u.exportChain edge.source) path := by
  obtain ⟨names, -, -, exports⟩ := alike.ends edge.source
  rw [hop, hop, Policy.Resembles.names exports]

omit [Arithmetic] in
theorem enter_alike (v : Variant) (edge : Edge) (left : Hop) (path : Path) :
    enter v edge (t.importChain edge.target) left path =
      enter v edge (u.importChain edge.target) left path := by
  obtain ⟨names, -, imports, -⟩ := alike.ends edge.target
  unfold enter hop
  rw [Policy.Resembles.names imports]

theorem leave_alike (paths : Int) (v : Variant) (edge : Edge) (path : Path) :
    leave t paths v edge path = leave u paths v edge path := by
  have enters := fun left => funext (enter_alike alike v edge left)
  unfold leave
  dsimp only
  rw [hop_exports alike, pass_imports alike, enters]

theorem leaveAll_alike (paths : Int) (v : Variant) (edge : Edge) (left : List Path) :
    leaveAll t paths v edge left = leaveAll u paths v edge left := by
  induction left with
  | nil => rfl
  | cons path rest ih => rw [leaveAll, leaveAll, leave_alike alike, ih]

theorem crossings_alike (paths : Int) (v : Variant) (edge : Edge) :
    crossings t paths v edge = crossings u paths v edge := by
  unfold crossings
  rw [pass_exports alike]
  congr 1
  funext left
  exact leaveAll_alike alike paths v edge left

theorem crossAll_alike (limits : Limits) (v : Variant) (edges : List Edge) (s : State) :
    crossAll t limits v edges s = crossAll u limits v edges s := by
  induction edges generalizing s with
  | nil => rfl
  | cons edge rest ih =>
    have first : cross t limits v edge s = cross u limits v edge s := by
      unfold cross
      rw [crossings_alike alike]
    rw [crossAll, crossAll, first]
    congr 1
    funext next
    exact ih next

/-- The same variants come to rest, in the same order and after as many steps. -/
theorem settle_alike (limits : Limits) (s : State) : settle t limits s = settle u limits s := by
  fun_induction settle t limits s with
  | case1 s rests => rw [settle_of_rest rests]
  | case2 s v rest waits f crossed =>
    rw [crossAll_alike alike, alike.edgesFrom] at crossed
    rw [settle_of_failed waits crossed]
  | case3 s v rest waits next crossed ih =>
    rw [crossAll_alike alike, alike.edgesFrom] at crossed
    rw [settle_of_sent waits crossed, ih]

omit [Arithmetic] in
theorem predicates_alike (s : State) : predicates t s = predicates u s := by
  have nodes := alike.nodes
  unfold predicates
  generalize t.nodes = ns at nodes ⊢
  generalize u.nodes = ms at nodes ⊢
  induction nodes with
  | nil => rfl
  | cons first _ ih => rw [List.map_cons, List.map_cons, first.name, ih]

end Propagation

theorem Query.origins_alike {t u : Topology} (alike : t.Alike u) (q : Query) :
    q.origins t = q.origins u := by
  have source : q.checkSource t = q.checkSource u := by
    have known : ∀ name, (t.node? name).isSome = (u.node? name).isSome := by
      intro name
      have nodes := alike.node? name
      generalize t.node? name = found at nodes ⊢
      generalize u.node? name = other at nodes ⊢
      cases nodes <;> rfl
    simp only [checkSource, known]
  have starts : ∀ target announced originated, t.nodes.filterMap (origin? target announced originated) =
      u.nodes.filterMap (origin? target announced originated) := by
    intro target announced originated
    have nodes := alike.nodes
    generalize t.nodes = ns at nodes ⊢
    generalize u.nodes = ms at nodes ⊢
    induction nodes with
    | nil => rfl
    | @cons n m _ _ first _ ih =>
      have own : origin? target announced originated n = origin? target announced originated m := by
        unfold origin? owns
        rw [first.name, first.external, first.networks]
      rw [List.filterMap_cons, List.filterMap_cons, own, ih]
  unfold origins
  simp only [source, starts]

variable [Arithmetic]

/-- Topologies that send and receive alike give one answer to a query: the same error, or the same
disposition, witness, predicates, number of steps and trace. -/
theorem Topology.Alike.ask {t u : Topology} (alike : t.Alike u) (limits : Limits) (q : Query) :
    t.ask limits q = u.ask limits q := by
  have answers : Propagation.answer t q = Propagation.answer u q := by
    funext s
    unfold Propagation.answer
    rw [Propagation.predicates_alike alike]
  unfold Topology.ask
  rw [Query.origins_alike alike, answers]
  congr 1
  funext origins
  rw [Propagation.settle_alike alike]

end RoutePolicy
