import RoutePolicy.Proofs.Chain
import RoutePolicy.Proofs.GivenRoutes
import RoutePolicy.Reachability.Propagation

/-!
Walks of concrete routes, and what propagation makes of them: every variant that reaches a node
describes walks to the node, one for each route that its condition is true of.
-/

set_option autoImplicit false

namespace RoutePolicy

/-! ### Topologies -/

/-- A topology all policies of which are usable. -/
def Topology.Usable (t : Topology) : Prop := ∀ n ∈ t.nodes, n.policies.Usable

namespace Topology

theorem mem_of_node? {t : Topology} {name : String} {n : Node} (found : t.node? name = some n) :
    n ∈ t.nodes := List.mem_of_find?_eq_some found

/-- What holds of all policies of a topology holds of those that may be called at a node. -/
theorem forall_policies {t : Topology} {P : Policy → Prop}
    (all : ∀ n ∈ t.nodes, ∀ name p, n.policies.get? name = some p → P p) (node : String) :
    ∀ name p, (t.policies node).get? name = some p → P p := by
  unfold Topology.policies
  split
  · rename_i n found
    exact all n (mem_of_node? found)
  · intro name p impossible
    cases impossible

/-- What holds of all policies of a topology holds of those of a chain. -/
theorem forall_chainOf {t : Topology} {P : Policy → Prop}
    (all : ∀ n ∈ t.nodes, ∀ name p, n.policies.get? name = some p → P p) (e : Endpoint)
    (names : List String) : ∀ p ∈ t.chainOf e names, P p := by
  intro p member
  unfold Topology.chainOf at member
  split at member
  · rename_i n found
    obtain ⟨name, _, known⟩ := List.mem_filterMap.mp member
    exact all n (mem_of_node? found) name p known
  · cases member

theorem Usable.policies {t : Topology} (usable : t.Usable) (node : String) :
    (t.policies node).Usable := forall_policies usable node

theorem Usable.chainOf {t : Topology} (usable : t.Usable) (e : Endpoint) (names : List String) :
    ∀ p ∈ t.chainOf e names, p.Usable := forall_chainOf usable e names

end Topology

/-! ### Concrete routes -/

/-- The record a concrete route has at a node it starts from: an external node announces any route,
an owner of the destination the route of the query, its open attributes being those of the route. -/
inductive Query.Starts (q : Query) (target : Network) (route : Route) (n : Node) :
    Record → Prop where
  | announced (external : n.external = true) : Starts q target route n route.record
  | originated (inside : n.external = false) (owned : owns n target = true) :
      Starts q target route n (route.overridden (Given.withNetwork (q.route.getD []) target.text))

/-- The record that a route of any network begins with at a node: the destination is its network. -/
inductive Query.Begins (q : Query) (target : Network) (route : Route) (n : Node) :
    Record → Prop where
  | announced (external : n.external = true) :
      Begins q target route n (route.overridden [.network target.text])
  | originated (inside : n.external = false) (owned : owns n target = true) :
      Begins q target route n (route.overridden (Given.withNetwork (q.route.getD []) target.text))

/-- A route to the destination begins as it is. -/
theorem Query.starts_iff_begins {q : Query} {target : Network} {route : Route} {n : Node}
    {start : Record} (destination : route.network = target.text) :
    q.Starts target route n start ↔ q.Begins target route n start := by
  have unchanged := Route.overridden_network destination
  constructor
  · rintro (external | ⟨inside, owned⟩)
    · exact unchanged ▸ .announced external
    · exact .originated inside owned
  · rintro (external | ⟨inside, owned⟩)
    · exact unchanged.symm ▸ .announced external
    · exact .originated inside owned

section

variable [Arithmetic]

/-- A concrete record crosses an edge: the export chain of the sender accepts it, and what it has
become is accepted by the import chain of the receiver. -/
def Topology.Crosses (t : Topology) (limit : Int) (edge : Edge) (r s : Record) : Prop :=
  ∃ left entered,
    evaluateChain ⟨[], limit, t.policies edge.source.node⟩ (t.exportChain edge.source) r =
      .ok [left] ∧ left.disposition = .accept ∧
    evaluateChain ⟨[], limit, t.policies edge.target.node⟩ (t.importChain edge.target) left.record =
      .ok [entered] ∧ entered.disposition = .accept ∧ entered.record = s

/-- A walk of a concrete record along edges, from the node it starts at. -/
inductive Topology.Walk (t : Topology) (limit : Int) (origin : String) (start : Record) :
    String → Record → Prop where
  | here : Walk t limit origin start origin start
  | hop {node : String} {r s : Record} {edge : Edge} (before : Walk t limit origin start node r)
      (known : edge ∈ t.edges) (leaves : edge.source.node = node)
      (crosses : t.Crosses limit edge r s) :
      Walk t limit origin start edge.target.node s

/-- The last edge of a walk. -/
theorem Topology.Walk.last {t : Topology} {limit : Int} {origin node : String} {start s : Record}
    (walk : t.Walk limit origin start node s) : (node = origin ∧ s = start) ∨
      ∃ edge ∈ t.edges, edge.target.node = node ∧
        ∃ r, t.Walk limit origin start edge.source.node r ∧ t.Crosses limit edge r s := by
  cases walk with
  | here => exact .inl ⟨rfl, rfl⟩
  | hop before known leaves crosses =>
      exact .inr ⟨_, known, rfl, _, leaves ▸ before, crosses⟩

end

namespace Expr

variable {route : Route} {e : Expr}

theorem residualOf_conjuncts (residual : e.ResidualOf .boolean) :
    ∀ c ∈ e.conjuncts, c.ResidualOf .boolean := by
  unfold conjuncts
  split
  · exact fun c member => residual_stable.eachOf_child residual.1 rfl member
  · simp
  · simpa using residual

theorem holdsAt_conjuncts (e : Expr) : e.conjuncts.all (·.holdsAt route) = e.holdsAt route := by
  unfold conjuncts
  split
  · exact (holdsAt_all _).symm
  · rfl
  · simp

end Expr

namespace Propagation

section

variable [Arithmetic]

theorem pass_ok {t : Topology} {paths : Int} {e : Endpoint} {chain : List Policy}
    {assumptions : List Expr} {r : Record} {found : List Path} :
    pass t paths e chain assumptions r = .ok found ↔
      evaluateChain ⟨assumptions, paths, t.policies e.node⟩ chain r = .ok found :=
  Outcome.inContext_ok

theorem mem_leaveAll {t : Topology} {paths : Int} {v : Variant} {edge : Edge} {left : List Path}
    {cs : List Crossing} (done : leaveAll t paths v edge left = .ok cs) {c : Crossing}
    (member : c ∈ cs) : ∃ path ∈ left, ∃ own, leave t paths v edge path = .ok own ∧ c ∈ own := by
  induction left generalizing cs with
  | nil =>
      cases done
      cases member
  | cons path rest ih =>
      obtain ⟨first, own, done⟩ := Outcome.bind_ok.mp done
      obtain ⟨others, later, same⟩ := Outcome.bind_ok.mp done
      cases same
      rcases List.mem_append.mp member with here | inside
      · exact ⟨path, List.mem_cons_self, first, own, here⟩
      · obtain ⟨other, found, own, left, here⟩ := ih later inside
        exact ⟨other, List.mem_cons_of_mem path found, own, left, here⟩

/-- What arrives over an edge has taken an accepted path of the sender and an accepted path of the
receiver, and its condition is not false. -/
theorem arrival_paths {t : Topology} {paths : Int} {v w : Variant} {edge : Edge}
    {cs : List Crossing} (crossed : crossings t paths v edge = .ok cs)
    (member : .arrival w ∈ cs) :
    ∃ left, evaluateChain ⟨v.condition.conjuncts, paths, t.policies edge.source.node⟩
        (t.exportChain edge.source) v.record = .ok left ∧
      ∃ path ∈ left, path.disposition = .accept ∧
      ∃ entered, evaluateChain ⟨path.condition, paths, t.policies edge.target.node⟩
        (t.importChain edge.target) path.record = .ok entered ∧
      ∃ last ∈ entered, last.disposition = .accept ∧
        (Expr.all last.condition).simplify.isFalse = false ∧
        w = ⟨edge.target.node, (Expr.all last.condition).simplify, last.record,
          hop edge .entering (t.importChain edge.target) last ::
            hop edge .leaving (t.exportChain edge.source) path :: v.hops⟩ := by
  obtain ⟨left, passed, done⟩ := Outcome.bind_ok.mp crossed
  obtain ⟨path, inside, own, leaves, here⟩ := mem_leaveAll done member
  refine ⟨left, pass_ok.mp passed, path, inside, ?_⟩
  unfold leave at leaves
  dsimp only at leaves
  split at leaves
  · cases leaves
    cases List.mem_singleton.mp here
  · rename_i accepted
    obtain ⟨entered, passed, same⟩ := Outcome.bind_ok.mp leaves
    cases same
    refine ⟨not_not.mp accepted, entered, pass_ok.mp passed, ?_⟩
    obtain ⟨last, found, crossing⟩ := List.mem_filterMap.mp here
    refine ⟨last, found, ?_⟩
    unfold enter at crossing
    dsimp only at crossing
    split at crossing
    · cases crossing
    · rename_i admitted
      split at crossing
      · cases crossing
      · rename_i satisfiable
        cases crossing
        exact ⟨not_not.mp admitted, Bool.eq_false_iff.mpr satisfiable, rfl⟩

/-- What arrives over an edge comes from an accepted path of the sender and an accepted path of the
receiver, and its condition is not false. -/
theorem arrival_ok {t : Topology} {paths : Int} {v w : Variant} {edge : Edge} {cs : List Crossing}
    (crossed : crossings t paths v edge = .ok cs) (member : .arrival w ∈ cs) :
    ∃ left, evaluateChain ⟨v.condition.conjuncts, paths, t.policies edge.source.node⟩
        (t.exportChain edge.source) v.record = .ok left ∧
      ∃ path ∈ left, path.disposition = .accept ∧
      ∃ entered, evaluateChain ⟨path.condition, paths, t.policies edge.target.node⟩
        (t.importChain edge.target) path.record = .ok entered ∧
      ∃ last ∈ entered, last.disposition = .accept ∧
        (Expr.all last.condition).simplify.isFalse = false ∧ w.node = edge.target.node ∧
        w.condition = (Expr.all last.condition).simplify ∧ w.record = last.record := by
  obtain ⟨left, exported, path, inside, accepted, entered, imported, last, found, admitted,
    satisfiable, rfl⟩ := arrival_paths crossed member
  exact ⟨left, exported, path, inside, accepted, entered, imported, last, found, admitted,
    satisfiable, rfl, rfl, rfl⟩

theorem leaveAll_subset {t : Topology} {paths : Int} {v : Variant} {edge : Edge} {left : List Path}
    {cs : List Crossing} (done : leaveAll t paths v edge left = .ok cs) {path : Path}
    (member : path ∈ left) : ∃ own, leave t paths v edge path = .ok own ∧ own ⊆ cs := by
  induction left generalizing cs with
  | nil => cases member
  | cons first rest ih =>
      obtain ⟨here, own, done⟩ := Outcome.bind_ok.mp done
      obtain ⟨others, later, same⟩ := Outcome.bind_ok.mp done
      cases same
      rcases List.mem_cons.mp member with rfl | inside
      · exact ⟨here, own, fun c among => List.mem_append_left others among⟩
      · obtain ⟨found, left, among⟩ := ih later inside
        exact ⟨found, left, fun c known => List.mem_append_right here (among known)⟩

/-- An accepted path of the sender enters the receiver, and what an accepted path of the receiver
makes of it arrives unless its condition is false. -/
theorem mem_crossings {t : Topology} {paths : Int} {v : Variant} {edge : Edge} {cs : List Crossing}
    (crossed : crossings t paths v edge = .ok cs) {left : List Path}
    (exported : evaluateChain ⟨v.condition.conjuncts, paths, t.policies edge.source.node⟩
      (t.exportChain edge.source) v.record = .ok left)
    {path : Path} (member : path ∈ left) (accepted : path.disposition = .accept) :
    ∃ entered, evaluateChain ⟨path.condition, paths, t.policies edge.target.node⟩
        (t.importChain edge.target) path.record = .ok entered ∧
      ∀ last ∈ entered, last.disposition = .accept →
        (Expr.all last.condition).simplify.isFalse = false →
        ∃ w, .arrival w ∈ cs ∧ w.node = edge.target.node ∧
          w.condition = (Expr.all last.condition).simplify ∧ w.record = last.record := by
  obtain ⟨all, passed, done⟩ := Outcome.bind_ok.mp crossed
  have same := (pass_ok.mp passed).symm.trans exported
  cases same
  obtain ⟨own, leaves, among⟩ := leaveAll_subset done member
  unfold leave at leaves
  simp only [accepted, ne_eq, not_true_eq_false, if_false] at leaves
  obtain ⟨entered, passed, same⟩ := Outcome.bind_ok.mp leaves
  cases same
  refine ⟨entered, pass_ok.mp passed, fun last found admitted satisfiable => ?_⟩
  let left := hop edge .leaving (t.exportChain edge.source) path
  let arrived : Variant := ⟨edge.target.node, (Expr.all last.condition).simplify, last.record,
    hop edge .entering (t.importChain edge.target) last :: left :: v.hops⟩
  have entering : enter v edge (t.importChain edge.target) left last = some (.arrival arrived) := by
    simp only [enter, admitted, ne_eq, not_true_eq_false, if_false, satisfiable,
      Bool.false_eq_true, left, arrived]
  exact ⟨arrived, among (List.mem_filterMap.mpr ⟨last, found, entering⟩), rfl, rfl, rfl⟩

/-- A variant describes walks: for every route that its condition is true of there is one from an
origin to its node, and the route becomes what the record says. -/
structure Justified (t : Topology) (q : Query) (target : Network) (v : Variant) : Prop where
  record : v.record.Residual
  condition : v.condition.ResidualOf .boolean
  walk : ∀ route : Route, v.condition.holdsAt route = true →
    ∀ limit : Int, 1 ≤ limit → ∃ n ∈ t.nodes, ∃ start last, q.Begins target route n start ∧
      t.Walk limit n.name start v.node last ∧ v.record.ComesTo route last

/-- What a justified variant sends over an edge is justified. -/
theorem Justified.arrival (exact : ∀ i : Int, Arithmetic.round i = i) {t : Topology}
    (usable : t.Usable) {q : Query} {target : Network} {paths : Int} {v w : Variant} {edge : Edge}
    (justified : Justified t q target v) (known : edge ∈ t.edges)
    (leaves : edge.source.node = v.node) {cs : List Crossing}
    (crossed : crossings t paths v edge = .ok cs) (member : .arrival w ∈ cs) :
    Justified t q target w := by
  obtain ⟨left, exported, path, among, accepted, entered, imported, last, found, admitted, -,
    node, condition, record⟩ := arrival_ok crossed member
  have conjuncts := Expr.residualOf_conjuncts justified.condition
  have exportTable := usable.policies edge.source.node
  have exportChain := usable.chainOf edge.source (t.chains edge.source).exports
  have importTable := usable.policies edge.target.node
  have importChain := usable.chainOf edge.target (t.chains edge.target).imports
  have leaving := evaluateChain_partition
    ⟨v.condition.conjuncts, paths, t.policies edge.source.node⟩ conjuncts exportTable
    exportChain justified.record exported
  have sound := leaving.sound path among
  have entering := evaluateChain_partition
    ⟨path.condition, paths, t.policies edge.target.node⟩ sound.condition importTable
    importChain sound.record imported
  have residual := Expr.residualOf_junction .all (entering.sound last found).condition
  refine ⟨record ▸ (entering.sound last found).record,
    condition ▸ Expr.residualOf_simplify residual, ?_⟩
  intro route holds limit room
  -- the route satisfies what each part of the way was run under, back to the variant that was sent
  have lastHolds : last.holdsAt route = true := by
    rw [condition, Expr.holdsAt_simplify (e := Expr.all last.condition) residual,
      Expr.holdsAt_all] at holds
    exact holds
  have pathHolds : path.holdsAt route = true := entering.satisfied found lastHolds
  have variantHolds : v.condition.holdsAt route = true := by
    rw [← Expr.holdsAt_conjuncts]
    exact leaving.satisfied among pathHolds
  -- forward again, the concrete record follows the variant over the edge
  obtain ⟨n, origin, start, here, starts, walk, comes⟩ :=
    justified.walk route variantHolds limit room
  obtain ⟨gone, ranExport, followsExport⟩ := evaluateChain_agrees exact
    ⟨v.condition.conjuncts, paths, t.policies edge.source.node⟩ conjuncts exportTable
    exportChain justified.record comes exported among pathHolds room
  obtain ⟨arrived, ranImport, followsImport⟩ := evaluateChain_agrees exact
    ⟨path.condition, paths, t.policies edge.target.node⟩ sound.condition importTable
    importChain sound.record followsExport.record imported found lastHolds room
  have crosses : t.Crosses limit edge here arrived.record :=
    ⟨gone, arrived, ranExport, followsExport.disposition.trans accepted, ranImport,
      followsImport.disposition.trans admitted, rfl⟩
  refine ⟨n, origin, start, arrived.record, starts, ?_, record ▸ followsImport.record⟩
  exact node ▸ .hop walk known leaves crosses

end

/-! ### The work list -/

theorem mem_edgesFrom {t : Topology} {node : String} {edge : Edge} :
    edge ∈ edgesFrom t node ↔ edge ∈ t.edges ∧ edge.source.node = node := by
  unfold edgesFrom Topology.outgoing
  rw [List.map_map]
  constructor
  · intro member
    obtain ⟨⟨found, i⟩, inside, rfl⟩ := List.mem_map.mp member
    obtain ⟨listed, leaves⟩ := List.mem_filter.mp inside
    exact ⟨List.fst_mem_of_mem_zipIdx listed, of_decide_eq_true leaves⟩
  · rintro ⟨known, leaves⟩
    obtain ⟨i, inside, rfl⟩ := List.mem_iff_getElem.mp known
    have numbered : (t.edges[i], i) ∈ t.edges.zipIdx := by
      rw [List.mk_mem_zipIdx_iff_getElem?, List.getElem?_eq_getElem inside]
    exact List.mem_map.mpr ⟨_, List.mem_filter.mpr ⟨numbered, decide_eq_true leaves⟩, rfl⟩

variable {J : Variant → Prop}

theorem State.forall_add {s : State} {v : Variant} (all : ∀ w ∈ s.variants, J w) (holds : J v) :
    ∀ w ∈ (s.add v).variants, J w := by
  unfold State.add
  split
  · exact all
  · intro w member
    unfold State.variants at member
    dsimp only at member
    rw [← List.append_assoc] at member
    rcases List.mem_append.mp member with before | here
    · exact all w before
    · exact List.mem_singleton.mp here ▸ holds

/-- What holds of the origins holds of all variants at the start. -/
theorem forall_start {vs : List Variant} (each : ∀ v ∈ vs, J v) :
    ∀ w ∈ (start vs).variants, J w := by
  unfold start
  suffices general : ∀ s : State, (∀ w ∈ s.variants, J w) →
      ∀ w ∈ (vs.foldl State.add s).variants, J w from general _ nofun
  induction vs with
  | nil => exact fun s known => known
  | cons v rest ih =>
      obtain ⟨here, further⟩ := List.forall_mem_cons.mp each
      exact fun s known => ih further (s.add v) (State.forall_add known here)

theorem State.forall_record {cs : List Crossing} {s : State} (all : ∀ w ∈ s.variants, J w)
    (arrivals : ∀ w, .arrival w ∈ cs → J w) : ∀ w ∈ (cs.foldl State.record s).variants, J w := by
  induction cs generalizing s with
  | nil => exact all
  | cons c rest ih =>
      refine ih ?_ fun w member => arrivals w (List.mem_cons_of_mem c member)
      cases c with
      | refused hop => exact all
      | arrival v => exact forall_add all (arrivals v List.mem_cons_self)

variable [Arithmetic]

theorem forall_crossAll {t : Topology} {limits : Limits} {v : Variant} {edges : List Edge}
    (arrive : ∀ edge ∈ edges, ∀ cs, crossings t limits.paths v edge = .ok cs →
      ∀ w, .arrival w ∈ cs → J w)
    {s s' : State} (all : ∀ w ∈ s.variants, J w) (crossed : crossAll t limits v edges s = .ok s') :
    ∀ w ∈ s'.variants, J w := by
  induction edges generalizing s with
  | nil =>
      cases crossed
      exact all
  | cons edge rest ih =>
      obtain ⟨here, further⟩ := List.forall_mem_cons.mp arrive
      obtain ⟨next, first, crossed⟩ := Outcome.bind_ok.mp crossed
      refine ih further ?_ crossed
      unfold cross at first
      split at first
      · cases first
      · obtain ⟨cs, found, same⟩ := Outcome.bind_ok.mp first
        cases same
        exact State.forall_record (s := { s with steps := s.steps + 1 }) all (here cs found)

/-- Below the bound, a variant is sent over an edge as its crossings say. -/
theorem cross_of_crossings {t : Topology} {limits : Limits} {v : Variant} {edge : Edge} {s : State}
    (within : s.steps + 1 ≤ limits.iterations) {cs : List Crossing}
    (crossed : crossings t limits.paths v edge = .ok cs) :
    cross t limits v edge s = .ok (cs.foldl State.record { s with steps := s.steps + 1 }) := by
  rw [cross, if_neg (Int.not_lt.mpr within), crossed]
  rfl

theorem settle_of_rest {t : Topology} {limits : Limits} {s : State} (rests : s.waiting = []) :
    settle t limits s = .ok s := by
  unfold settle
  split
  · rfl
  · rename_i more
    rw [rests] at more
    cases more

theorem settle_of_sent {t : Topology} {limits : Limits} {s next : State} {v : Variant}
    {rest : List Variant} (waits : s.waiting = v :: rest)
    (sent : crossAll t limits v (edgesFrom t v.node)
      { s with settled := s.settled ++ [v], waiting := rest } = .ok next) :
    settle t limits s = settle t limits next := by
  rw [settle.eq_def]
  split
  · rename_i rests
    rw [waits] at rests
    cases rests
  · rename_i more
    rw [waits] at more
    cases more
    split
    · rename_i failed
      rw [sent] at failed
      cases failed
    · rename_i done
      rw [sent] at done
      cases done
      rfl

theorem settle_of_failed {t : Topology} {limits : Limits} {s : State} {v : Variant}
    {rest : List Variant} (waits : s.waiting = v :: rest) {f : Failure}
    (failed : crossAll t limits v (edgesFrom t v.node)
      { s with settled := s.settled ++ [v], waiting := rest } = .error f) :
    settle t limits s = .error f := by
  rw [settle.eq_def]
  split
  · rename_i rests
    rw [waits] at rests
    cases rests
  · rename_i more
    rw [waits] at more
    cases more
    split
    · rename_i own
      rw [failed] at own
      cases own
      rfl
    · rename_i done
      rw [failed] at done
      cases done

/-- Propagation rests, or sends the first waiting variant on and goes on from there. -/
theorem settle_ok {t : Topology} {limits : Limits} {s s' : State}
    (settled : settle t limits s = .ok s') :
    (s.waiting = [] ∧ s' = s) ∨ ∃ v rest next, s.waiting = v :: rest ∧
      crossAll t limits v (edgesFrom t v.node)
        { s with settled := s.settled ++ [v], waiting := rest } = .ok next ∧
      settle t limits next = .ok s' := by
  unfold settle at settled
  split at settled
  · rename_i rests
    cases settled
    exact .inl ⟨rests, rfl⟩
  · rename_i v rest waits
    split at settled
    · cases settled
    · rename_i next crossed
      exact .inr ⟨v, rest, next, waits, crossed, settled⟩

/-- What sending one variant on preserves holds when propagation rests. -/
theorem settle_preserves {t : Topology} {limits : Limits} {I : State → Prop}
    (step : ∀ s v rest next, I s → s.waiting = v :: rest →
      crossAll t limits v (edgesFrom t v.node)
        { s with settled := s.settled ++ [v], waiting := rest } = .ok next → I next)
    {s s' : State} (holds : I s) (settled : settle t limits s = .ok s') :
    I s' ∧ s'.waiting = [] := by
  induction s using settle.induct t limits with
  | case1 s waits =>
      rw [settle_of_rest waits] at settled
      cases settled
      exact ⟨holds, waits⟩
  | case2 s v rest waits f crossed =>
      rcases settle_ok settled with ⟨rests, _⟩ | ⟨_, _, next, more, sent, _⟩
      · rw [waits] at rests
        cases rests
      · rw [waits] at more
        cases more
        rw [crossed] at sent
        cases sent
  | case3 s v rest waits next crossed ih =>
      rw [settle_of_sent waits crossed] at settled
      exact ih (step s v rest next holds waits crossed) settled

/-- What holds of the variants at the start and of all that arrives holds of all variants when
propagation rests. -/
theorem forall_settle {t : Topology} {limits : Limits}
    (arrive : ∀ v edge cs, J v → edge ∈ t.edges → edge.source.node = v.node →
      crossings t limits.paths v edge = .ok cs → ∀ w, .arrival w ∈ cs → J w)
    {s s' : State} (all : ∀ w ∈ s.variants, J w) (settled : settle t limits s = .ok s') :
    ∀ w ∈ s'.variants, J w := by
  refine (settle_preserves (I := fun s => ∀ w ∈ s.variants, J w) ?_ all settled).1
  intro s v rest next all waits crossed
  refine forall_crossAll ?_ ?_ crossed
  · intro edge member cs found w arrived
    obtain ⟨known, leaves⟩ := mem_edgesFrom.mp member
    have waiting : v ∈ s.variants := by simp [State.variants, waits]
    exact arrive v edge cs (all v waiting) known leaves found w arrived
  · intro w member
    apply all w
    simpa [State.variants, waits] using member

end Propagation

/-! ### Origins -/

namespace Query

variable {t : Topology} {q : Query} {target : Network}

/-- The variants propagation starts from are justified. -/
theorem origins_justified [Arithmetic] {vs : List Variant} (found : q.network = .ok target)
    (origins : q.origins t = .ok vs) : ∀ v ∈ vs, Propagation.Justified t q target v := by
  obtain ⟨_, _, origins⟩ := Outcome.bind_ok.mp origins
  obtain ⟨target', found', origins⟩ := Outcome.bind_ok.mp origins
  rw [found] at found'
  cases found'
  obtain ⟨originated, given, origins⟩ := Outcome.bind_ok.mp origins
  obtain ⟨announced, arbitrary, same⟩ := Outcome.bind_ok.mp origins
  cases same
  obtain ⟨originatedResidual, originatedComes⟩ := Record.ofGiven_ok given
  obtain ⟨announcedResidual, announcedComes⟩ := Record.ofGiven_ok arbitrary
  intro v member
  obtain ⟨n, listed, starts⟩ := List.mem_filterMap.mp member
  unfold origin? at starts
  split at starts
  · rename_i external
    cases starts
    refine ⟨announcedResidual, Expr.residualOf_bool true, ?_⟩
    intro route _ limit _
    exact ⟨n, listed, _, _, .announced external, .here, announcedComes route⟩
  · rename_i inside
    split at starts
    · rename_i owned
      cases starts
      refine ⟨originatedResidual, Expr.residualOf_bool true, ?_⟩
      intro route _ limit _
      exact ⟨n, listed, _, _, .originated (Bool.eq_false_iff.mpr inside) owned, .here,
        originatedComes route⟩
    · cases starts

end Query

namespace Propagation

variable {t : Topology} {q : Query} {target : Network} [Arithmetic]

omit [Arithmetic] in
/-- A node's condition is true of the routes that the condition of one of its variants is true
of. -/
theorem predicate_holds {s : State} (all : ∀ v ∈ s.variants, v.condition.ResidualOf .boolean)
    {node : String} {route : Route} : (predicate s node).holdsAt route = true ↔
      ∃ v ∈ s.variants, v.node = node ∧ v.condition.holdsAt route = true := by
  have conditions : ∀ c ∈ (reached s node).map Variant.condition, c.ResidualOf .boolean := by
    rw [List.forall_mem_map]
    intro v member
    exact all v (List.mem_filter.mp member).1
  unfold predicate
  rw [Expr.holdsAt_simplify (e := Expr.any _) (Expr.residualOf_junction .any conditions),
    Expr.holdsAt_any, List.any_map, List.any_eq_true]
  constructor
  · rintro ⟨v, member, holds⟩
    obtain ⟨known, here⟩ := List.mem_filter.mp member
    exact ⟨v, known, of_decide_eq_true here, holds⟩
  · rintro ⟨v, known, here, holds⟩
    exact ⟨v, List.mem_filter.mpr ⟨known, decide_eq_true here⟩, holds⟩

/-- All variants of a query are justified. -/
theorem settle_justified (exact : ∀ i : Int, Arithmetic.round i = i) (usable : t.Usable)
    (found : q.network = .ok target) {vs : List Variant} (origins : q.origins t = .ok vs)
    {limits : Limits} {s : State} (settled : settle t limits (start vs) = .ok s) :
    ∀ v ∈ s.variants, Justified t q target v := by
  refine forall_settle ?_ (forall_start (Query.origins_justified found origins)) settled
  intro v edge cs justified known leaves crossed w arrived
  exact justified.arrival exact usable known leaves crossed arrived

end Propagation

/-- A node is reported under a condition only if every route that the condition is true of walks to
the node. -/
theorem Topology.ask_justified [Arithmetic] (exact : ∀ i : Int, Arithmetic.round i = i)
    {t : Topology} (usable : t.Usable) {q : Query} {limits : Limits} {answer : Answer}
    (asked : t.ask limits q = .ok answer) {target : Network} (found : q.network = .ok target)
    {node : String} {e : Expr} (reported : (node, e) ∈ answer.predicates) {route : Route}
    (holds : e.holdsAt route = true) {limit : Int} (room : 1 ≤ limit) :
    ∃ n ∈ t.nodes, ∃ start last, q.Begins target route n start ∧
      t.Walk limit n.name start node last := by
  obtain ⟨vs, origins, asked⟩ := Outcome.bind_ok.mp asked
  obtain ⟨s, settled, same⟩ := Outcome.bind_ok.mp asked
  cases same
  have all := Propagation.settle_justified exact usable found origins settled
  obtain ⟨named, _, same⟩ := List.mem_map.mp reported
  cases same
  obtain ⟨v, member, here, holdsThere⟩ :=
    (Propagation.predicate_holds fun v member => (all v member).condition).mp holds
  obtain ⟨n, listed, start, last, starts, walk, _⟩ :=
    (all v member).walk route holdsThere limit room
  exact ⟨n, listed, start, last, starts, here ▸ walk⟩

end RoutePolicy
