import Mathlib.Data.Set.Card
import Mathlib.Data.Set.Finite.Lattice
import Mathlib.Data.Set.Finite.List
import RoutePolicy.Proofs.FailedQueries
import RoutePolicy.Proofs.NormalForm
import RoutePolicy.Proofs.SteadyGuards
import RoutePolicy.Proofs.Worklist

/-!
Loops come to rest. If no policy assigns what a guard reads, guards have finitely many values
however long a route travels, and conditions are conjunctions of parts of these, each part taken
once. A node keeps one variant a condition, so there are finitely many variants, although their
records may grow on every lap.
-/

set_option autoImplicit false

namespace RoutePolicy

/-! ### Conditions -/

namespace Expr

/-- The parts that conjunctions of simplified conditions are made of. -/
def conjunctsOf (K : Set Expr) : Set Expr := {x | ∃ g ∈ K, x ∈ junctionParts .all g.simplify}

/-- Conjunctions of different parts, without parts and of a single part included. -/
def Conjunctions (P : Set Expr) : Set Expr :=
  {c | c = bool true ∨ c ∈ P ∨ ∃ es, c = junction none .all es ∧ es.Nodup ∧ ∀ x ∈ es, x ∈ P}

variable {P K : Set Expr}

theorem conjunctsOf_finite (finite : K.Finite) : (conjunctsOf K).Finite := by
  have parts : conjunctsOf K = ⋃ g ∈ K, {x | x ∈ junctionParts .all g.simplify} := by
    ext x
    simp [conjunctsOf]
  rw [parts]
  exact finite.biUnion fun g _ => List.finite_toSet _

/-- Lists without repetitions over a finite set are finitely many. -/
theorem finite_nodup {α : Type} {S : Set α} (finite : S.Finite) :
    {xs : List α | xs.Nodup ∧ ∀ x ∈ xs, x ∈ S}.Finite := by
  have bounded : {xs : List α | xs.length ≤ S.ncard ∧ ∀ x ∈ xs, x ∈ S}.Finite := by
    have : Finite S := finite
    refine ((List.finite_length_le S S.ncard).image (List.map Subtype.val)).subset ?_
    rintro xs ⟨short, inside⟩
    refine ⟨xs.attachWith (· ∈ S) inside, ?_, List.attachWith_map_subtype_val ..⟩
    exact (List.length_attachWith ..).trans_le short
  refine bounded.subset ?_
  rintro xs ⟨apart, inside⟩
  refine ⟨?_, inside⟩
  classical
  rw [← List.toFinset_card_of_nodup apart, ← Set.ncard_coe_finset]
  exact Set.ncard_le_ncard (fun x member => inside x (by simpa using member)) finite

theorem conjunctions_finite (finite : P.Finite) : (Conjunctions P).Finite := by
  have parts : Conjunctions P ⊆ {bool true} ∪ P ∪
      junction none .all '' {es | es.Nodup ∧ ∀ x ∈ es, x ∈ P} := by
    rintro c (rfl | member | ⟨es, rfl, apart, inside⟩)
    · exact .inl (.inl rfl)
    · exact .inl (.inr member)
    · exact .inr ⟨es, ⟨apart, inside⟩, rfl⟩
  exact (((Set.finite_singleton _).union finite).union ((finite_nodup finite).image _)).subset parts

/-- A part is simple, and it is no conjunction. -/
theorem of_mem_conjunctsOf {x : Expr} (member : x ∈ conjunctsOf K) :
    x.simplify = x ∧ x.joins .all = false := by
  obtain ⟨g, -, part⟩ := member
  obtain ⟨normal, flat⟩ := normal_junctionParts (each_normal_simplify g) part
  exact ⟨simplify_eq_self_iff.mpr normal, flat⟩

/-- The conditions that a conjunction is made of are its parts. -/
theorem mem_of_mem_conjuncts (flat : ∀ x ∈ P, x.joins .all = false) {c x : Expr}
    (conjunction : c ∈ Conjunctions P) (member : x ∈ c.conjuncts) : x ∈ P := by
  rcases conjunction with rfl | part | ⟨es, rfl, -, inside⟩
  · cases member
  · have own := flat c part
    unfold conjuncts at member
    split at member
    · cases own
    · cases member
    · rwa [List.mem_singleton.mp member]
  · exact inside x member

/-- The operands of a simplified conjunction differ. -/
theorem nodup_of_simplify {e : Expr} {es : List Expr}
    (same : e.simplify = junction none .all es) : es.Nodup := by
  have normal := (each_normal_simplify e).root
  rw [same] at normal
  refine normal.apart.imp fun {a b} differ => ?_
  rintro rfl
  exact same_eq_false.mp differ rfl

/-- Parts and conditions that they are made of come to parts. -/
theorem mem_conjunctsOf_of_operand {cs : List Expr} (each : ∀ c ∈ cs, c ∈ conjunctsOf K ∪ K)
    {x : Expr} (member : x ∈ (cs.map simplify).flatMap (junctionParts .all)) :
    x ∈ conjunctsOf K := by
  obtain ⟨_, inside, part⟩ := List.mem_flatMap.mp member
  obtain ⟨c, among, rfl⟩ := List.mem_map.mp inside
  rcases each c among with known | value
  · obtain ⟨simple, flat⟩ := of_mem_conjunctsOf known
    rw [simple, junctionParts_of_flat flat] at part
    rwa [List.mem_singleton.mp part]
  · exact ⟨c, value, part⟩

/-- A conjunction of simplified operands stays as it is, or its parts are put together. -/
theorem simplify_all_form (cs : List Expr) :
    (all cs).simplify = junction none .all (cs.map simplify) ∨
      (all cs).simplify = simplifyJunction .all (cs.map simplify) := by
  rw [all, simplify, simplifyAll_eq]
  unfold settle
  dsimp only
  split
  · exact .inl rfl
  · exact .inr rfl

/-- A conjunction of parts and of conditions that they are made of comes to a conjunction of
parts. -/
theorem simplify_mem_conjunctions {cs : List Expr} (each : ∀ c ∈ cs, c ∈ conjunctsOf K ∪ K)
    (satisfiable : (all cs).simplify.isFalse = false) :
    (all cs).simplify ∈ Conjunctions (conjunctsOf K) := by
  rcases simplify_all_form cs with kept | result
  · -- operands that stay as they are, are parts
    have normal := (each_normal_simplify (all cs)).root
    rw [kept] at normal
    refine .inr (.inr ⟨_, kept, nodup_of_simplify kept, fun x member => ?_⟩)
    refine mem_conjunctsOf_of_operand each (List.mem_flatMap.mpr ⟨x, member, ?_⟩)
    simp [junctionParts_of_flat (normal.flat x member)]
  · rcases simplifyJunction_form .all (cs.map simplify) with
      ⟨value, same⟩ | ⟨own, inside, single | ⟨-, same⟩⟩
    · rw [result, same] at satisfiable ⊢
      cases value with
      | true => exact .inl rfl
      | false => cases satisfiable
    · rw [result]
      have part := (inside _ (single ▸ List.mem_singleton_self _)).1
      exact .inr (.inl (mem_conjunctsOf_of_operand each part))
    · have apart := nodup_of_simplify (result.trans same)
      refine .inr (.inr ⟨own, result.trans same, apart, fun x member => ?_⟩)
      exact mem_conjunctsOf_of_operand each (inside x member).1

end Expr

/-! ### Guards of a topology -/

namespace Topology

variable {t : Topology}

/-- No policy assigns what a guard of some policy reads. -/
def SteadyGuards (t : Topology) : Prop :=
  ∀ n ∈ t.nodes, ∀ p ∈ n.policies.values, ∀ m ∈ t.nodes, ∀ q ∈ m.policies.values,
    ∀ name ∈ Statement.targetsAll p.statements, ∀ guard ∈ Statement.guardsAll q.statements,
      name ∉ guard.attributes

instance (t : Topology) : Decidable t.SteadyGuards :=
  inferInstanceAs (Decidable (∀ n ∈ t.nodes, ∀ p ∈ n.policies.values, ∀ m ∈ t.nodes,
    ∀ q ∈ m.policies.values, ∀ name ∈ Statement.targetsAll p.statements,
      ∀ guard ∈ Statement.guardsAll q.statements, name ∉ guard.attributes))

/-- The attributes that guards read. -/
def guardsRead (t : Topology) : Set Attribute :=
  {name | ∃ m ∈ t.nodes, ∃ q ∈ m.policies.values, ∃ guard ∈ Statement.guardsAll q.statements,
    name ∈ guard.attributes}

theorem SteadyGuards.spares (steady : t.SteadyGuards) {n : Node} (listed : n ∈ t.nodes) {p : Policy}
    (known : p ∈ n.policies.values) : Statement.Spares t.guardsRead
      (Statement.guardsAll p.statements) (Statement.targetsAll p.statements) where
  reads guard member name reads := ⟨n, listed, p, known, guard, member, reads⟩
  assigns name assigned := by
    rintro ⟨m, there, q, other, guard, member, reads⟩
    exact steady n listed p known m there q other name assigned guard member reads

variable [Arithmetic]

/-- The values that guards have over records that agree with one of the origins, and their
negations. -/
def guardConditions (t : Topology) (paths : Int) (origins : Set Record) : Set Expr :=
  {c | ∃ n ∈ t.nodes, ∃ p ∈ n.policies.values, ∃ guard ∈ Statement.guardsAll p.statements,
    ∃ origin ∈ origins, ∃ value ∈ Execution.Values t.guardsRead
      (Execution.callsFrom n.policies paths [p.name]) origin guard, c = value ∨ c = value.negate}

theorem SteadyGuards.finite (steady : t.SteadyGuards) (paths : Int) {origins : Set Record}
    (finite : origins.Finite) : (t.guardConditions paths origins).Finite := by
  have split : t.guardConditions paths origins = ⋃ n ∈ {n | n ∈ t.nodes},
      ⋃ p ∈ {p | p ∈ n.policies.values},
        ⋃ guard ∈ {guard | guard ∈ Statement.guardsAll p.statements}, ⋃ origin ∈ origins,
          ⋃ value ∈ Execution.Values t.guardsRead
            (Execution.callsFrom n.policies paths [p.name]) origin guard,
              {value, value.negate} := by
    ext c
    simp only [guardConditions, Set.mem_ofPred_eq, Set.mem_iUnion, Set.mem_insert_iff,
      Set.mem_singleton_iff, exists_prop]
  rw [split]
  refine (List.finite_toSet t.nodes).biUnion fun n listed => ?_
  refine (List.finite_toSet _).biUnion fun p known => ?_
  refine (List.finite_toSet _).biUnion fun guard member => ?_
  refine finite.biUnion fun origin _ => ?_
  have blind := Execution.callsFrom_blind (fun p known => steady.spares listed known) paths [p.name]
  have one := Execution.values_subsingleton blind
    ((steady.spares listed known).reads guard member) origin
  exact one.finite.biUnion fun value _ => (Set.finite_singleton _).insert _

end Topology

namespace Propagation

variable [Arithmetic] {t : Topology} {limits : Limits}

/-! ### Variants -/

/-- A variant that a route has come to that started as one of the origins: its node is known, its
condition is a conjunction of what guards say, and its record agrees with an origin on what guards
read. -/
structure Steady (t : Topology) (paths : Int) (origins : List Variant) (v : Variant) : Prop where
  node : v.node ∈ origins.map Variant.node ++ t.edges.map (·.target.node)
  condition : v.condition ∈ Expr.Conjunctions
    (Expr.conjunctsOf (t.guardConditions paths {r | r ∈ origins.map Variant.record}))
  record : ∃ r ∈ origins.map Variant.record, r.AgreeOn t.guardsRead v.record

/-- Along a chain, what holds of steady variants holds of threads. -/
theorem stays_of_chain (steady : t.SteadyGuards) {paths : Int} {origins : Set Record}
    {origin : Record} (listed : origin ∈ origins) {e : Endpoint} {names : List String}
    {assumptions : List Expr} {r : Record} {K : Set Expr}
    (values : t.guardConditions paths origins ⊆ K)
    (stays : Execution.Stays t.guardsRead origin K ⟨r, assumptions, []⟩) {found : List Path}
    (ran : evaluateChain ⟨assumptions, paths, t.policies e.node⟩ (t.chainOf e names) r =
      .ok found) : ∀ path ∈ found, Execution.Stays t.guardsRead origin K (Chain.toThread path) := by
  refine evaluateChain_stays (fun p member => ?_) (fun p member guard inside value known => ?_)
    stays ran
  · obtain ⟨n, there, -, known⟩ := mem_chainOf member
    exact steady.spares there known
  · obtain ⟨n, there, table, own⟩ := mem_chainOf member
    rw [table] at known
    exact ⟨values ⟨n, there, p, own, guard, inside, origin, listed, value, known, .inl rfl⟩,
      values ⟨n, there, p, own, guard, inside, origin, listed, value, known, .inr rfl⟩⟩

/-- What a steady variant sends is steady. -/
theorem Steady.arrival (guards : t.SteadyGuards) {paths : Int} {origins : List Variant}
    {v w : Variant} (steady : Steady t paths origins v) {edge : Edge} (known : edge ∈ t.edges)
    {cs : List Crossing} (crossed : crossings t paths v edge = .ok cs)
    (member : .arrival w ∈ cs) : Steady t paths origins w := by
  obtain ⟨left, exported, path, among, -, entered, imported, last, found, -, satisfiable, node,
    condition, record⟩ := arrival_ok crossed member
  obtain ⟨origin, listed, agree⟩ := steady.record
  let values := t.guardConditions paths {r | r ∈ origins.map Variant.record}
  have flat : ∀ x ∈ Expr.conjunctsOf values, x.joins .all = false :=
    fun x part => (Expr.of_mem_conjunctsOf part).2
  have start : Execution.Stays t.guardsRead origin (Expr.conjunctsOf values ∪ values)
      ⟨v.record, v.condition.conjuncts, []⟩ :=
    ⟨agree, fun c inside => .inl (Expr.mem_of_mem_conjuncts flat steady.condition inside)⟩
  have leaving := stays_of_chain guards listed Set.subset_union_right start exported path among
  have between : Execution.Stays t.guardsRead origin (Expr.conjunctsOf values ∪ values)
      ⟨path.record, path.condition, []⟩ := ⟨leaving.record, leaving.condition⟩
  have entering := stays_of_chain guards listed Set.subset_union_right between imported last found
  refine ⟨?_, ?_, origin, listed, record ▸ entering.record⟩
  · rw [node]
    exact List.mem_append_right _ (List.mem_map.mpr ⟨edge, known, rfl⟩)
  · rw [condition]
    exact Expr.simplify_mem_conjunctions entering.condition satisfiable

theorem steady_of_origin {paths : Int} {origins : List Variant} {v : Variant}
    (member : v ∈ origins) (condition : v.condition = .bool true) : Steady t paths origins v where
  node := List.mem_append_left _ (List.mem_map_of_mem member)
  condition := .inl condition
  record := ⟨v.record, List.mem_map_of_mem member, .refl _⟩

/-! ### How many variants there are -/

omit [Arithmetic] in
/-- Variants that are apart differ in where they stand. -/
theorem nodup_standing {vs : List Variant} (apart : Apart vs) : (vs.map standing).Nodup := by
  refine List.pairwise_map.mpr (apart.imp fun {v w} differ same => ?_)
  obtain ⟨node, condition⟩ := Prod.mk.inj same
  exact differ node (congrArg Variant.conditionKey condition)

/-- There is a bound on the number of steady variants that are apart. -/
theorem exists_bound_on_variants (guards : t.SteadyGuards) (paths : Int) (origins : List Variant) :
    ∃ most : Nat, ∀ vs : List Variant, Apart vs → (∀ v ∈ vs, Steady t paths origins v) →
      vs.length ≤ most := by
  have records : {r | r ∈ origins.map Variant.record}.Finite := List.finite_toSet _
  have conditions := Expr.conjunctions_finite
    (Expr.conjunctsOf_finite (guards.finite paths records))
  have nodes : {name | name ∈ origins.map Variant.node ++ t.edges.map (·.target.node)}.Finite :=
    List.finite_toSet _
  obtain ⟨places, known⟩ := (nodes.prod conditions).exists_finset_coe
  refine ⟨places.card, fun vs apart steady => ?_⟩
  classical
  have distinct := List.toFinset_card_of_nodup (nodup_standing apart)
  rw [List.length_map] at distinct
  rw [← distinct]
  refine Finset.card_le_card fun place member => ?_
  rw [← Finset.mem_coe, known]
  obtain ⟨v, inside, rfl⟩ := List.mem_map.mp (List.mem_toFinset.mp member)
  exact ⟨(steady v inside).node, (steady v inside).condition⟩

/-! ### The bound on crossings -/

/-- Within the bound, sending a variant over edges fails only as one of its crossings fails. -/
theorem crossings_of_crossAll_failed {v : Variant} {edges : List Edge} {s : State} {f : Failure}
    (room : ((s.steps + edges.length : Nat) : Int) ≤ limits.iterations)
    (failed : crossAll t limits v edges s = .error f) :
    ∃ edge ∈ edges, crossings t limits.paths v edge = .error f := by
  induction edges generalizing s with
  | nil => cases failed
  | cons edge rest ih =>
      rw [List.length_cons] at room
      have within : (s.steps : Int) + 1 ≤ limits.iterations := by omega
      cases crossed : crossings t limits.paths v edge with
      | error g =>
          rw [crossAll, cross, if_neg (Int.not_lt.mpr within), crossed] at failed
          cases failed
          exact ⟨edge, List.mem_cons_self, crossed⟩
      | ok cs =>
          rw [crossAll, cross_of_crossings within crossed] at failed
          obtain ⟨other, member, fails⟩ := ih (by
            rw [State.steps_foldl_record]
            dsimp only
            omega) failed
          exact ⟨other, List.mem_cons_of_mem edge member, fails⟩

omit [Arithmetic] in
/-- No node sends over more edges than there are. -/
theorem length_edgesFrom_le (node : String) : (edgesFrom t node).length ≤ t.edges.length := by
  unfold edgesFrom Topology.outgoing
  rw [List.length_map, List.length_map]
  exact (List.length_filter_le ..).trans List.length_zipIdx.le

/-- The crossings of the variants sent so far and of one more are at most all edges for each. -/
theorem steps_le {origins : List Variant} {s : State} (runs : Runs t limits origins s)
    (v : Variant) :
    s.steps + (edgesFrom t v.node).length ≤ (s.settled ++ [v]).length * t.edges.length := by
  have counted : s.steps + (edgesFrom t v.node).length =
      ((s.settled ++ [v]).map fun u => (edgesFrom t u.node).length).sum := by
    rw [runs.counted, List.map_append, List.sum_append]
    rfl
  have bounded := List.sum_le_card_nsmul ((s.settled ++ [v]).map fun u =>
    (edgesFrom t u.node).length) t.edges.length
    (List.forall_mem_map.mpr fun u _ => length_edgesFrom_le u.node)
  rw [List.length_map] at bounded
  exact counted.trans_le bounded

/-- What a step leads to is steady if the state before was. -/
theorem steady_of_crossAll (guards : t.SteadyGuards) {origins : List Variant} {s next : State}
    {v : Variant} {rest : List Variant}
    (steady : ∀ w ∈ s.variants, Steady t limits.paths origins w) (waits : s.waiting = v :: rest)
    (crossed : crossAll t limits v (edgesFrom t v.node)
      { s with settled := s.settled ++ [v], waiting := rest } = .ok next) :
    ∀ w ∈ next.variants, Steady t limits.paths origins w := by
  refine forall_crossAll ?_ ?_ crossed
  · intro edge member cs found w arrived
    have waiting : v ∈ s.variants := by simp [State.variants, waits]
    exact (steady v waiting).arrival guards (mem_edgesFrom.mp member).1 found arrived
  · intro w member
    apply steady w
    simpa [State.variants, waits] using member

/-- If the bound has room for all edges of as many variants as there are steady ones, propagation
fails only as a crossing does. -/
theorem crossings_of_settle_failed (guards : t.SteadyGuards) {paths iterations : Int}
    {origins : List Variant} (conditions : ∀ v ∈ origins, v.condition = .bool true) {most : Nat}
    (few : ∀ vs : List Variant, Apart vs → (∀ v ∈ vs, Steady t paths origins v) →
      vs.length ≤ most) (room : ((most * t.edges.length : Nat) : Int) ≤ iterations) {f : Failure}
    (failed : settle t ⟨iterations, paths⟩ (start origins) = .error f) :
    ∃ v edge, crossings t paths v edge = .error f := by
  let limits : Limits := ⟨iterations, paths⟩
  let Holds : State → Prop := fun s =>
    Runs t limits origins s ∧ ∀ v ∈ s.variants, Steady t paths origins v
  have starts : Holds (start origins) :=
    ⟨start_runs origins, forall_start fun v member => steady_of_origin member (conditions v member)⟩
  have step : ∀ s v rest next, Holds s → s.waiting = v :: rest →
      crossAll t limits v (edgesFrom t v.node)
        { s with settled := s.settled ++ [v], waiting := rest } = .ok next → Holds next := by
    rintro s v rest next ⟨runs, steady⟩ waits crossed
    exact ⟨runs.step waits crossed, steady_of_crossAll guards steady waits crossed⟩
  obtain ⟨s, v, rest, ⟨runs, steady⟩, waits, failed⟩ := settle_failed step starts failed
  -- the variants sent so far, and the one being sent, are steady and apart
  have line : s.variants = (s.settled ++ [v]) ++ rest := by
    simp [State.variants, waits]
  have known : (s.settled ++ [v]).length ≤ most := by
    have all := few _ runs.apart steady
    rw [line, List.length_append] at all
    omega
  have counted := (steps_le runs v).trans (Nat.mul_le_mul_right t.edges.length known)
  obtain ⟨edge, -, crossed⟩ := crossings_of_crossAll_failed (by dsimp only [limits]; omega) failed
  exact ⟨v, edge, crossed⟩

end Propagation

/-! ### Queries -/

/-- If no policy assigns what a guard reads, a large enough bound on crossings is never met,
however much routes change on every lap of a loop. -/
theorem Topology.ask_reaches_fixed_point [Arithmetic] {t : Topology} (steady : t.SteadyGuards)
    (q : Query) (paths : Int) :
    ∃ bound : Nat, ∀ iterations : Int, bound ≤ iterations →
      ∀ f, t.ask ⟨iterations, paths⟩ q = .error f → f.code ≠ .cycleBound := by
  cases starts : q.origins t with
  | error g =>
      refine ⟨0, fun iterations _ f failed => ?_⟩
      rw [Topology.ask, starts] at failed
      cases failed
      obtain ⟨fault, cause⟩ := Query.fault_of_origins ⟨g, starts, rfl⟩
      simp [Failure.code, cause, Cause.code]
  | ok origins =>
      obtain ⟨most, few⟩ := Propagation.exists_bound_on_variants steady paths origins
      refine ⟨most * t.edges.length, fun iterations room f failed => ?_⟩
      have fails : (t.ask ⟨iterations, paths⟩ q).FailsWith f.cause := ⟨f, failed, rfl⟩
      rw [Topology.ask, starts] at fails
      rcases Outcome.failsWith_bind.mp fails with impossible | ⟨_, same, fails⟩
      · exact (Outcome.not_failsWith_ok impossible).elim
      cases same
      rcases Outcome.failsWith_bind.mp fails with ⟨g, settled, same⟩ | ⟨s, -, impossible⟩
      · obtain ⟨v, edge, crossed⟩ := Propagation.crossings_of_settle_failed steady
          (Propagation.condition_of_origins starts) few room settled
        obtain ⟨fault, cause⟩ := (Propagation.crossings_failed ⟨g, crossed, same⟩).fault
        simp [Failure.code, cause, Cause.code]
      · exact (Outcome.not_failsWith_ok impossible).elim

namespace Loop

/-- Rejects what is tagged; what it accepts has a longer AS path. -/
def lengthening : Policy :=
  ⟨"lengthen", [.branch none (.compare none .gt (.ref .tag) (.int 0)) [.finish none .reject] []
    .absent, .assign none .asPath (.prepend none [65001] (.ref .asPath)), .finish none .accept]⟩

/-- Two nodes that lengthen the AS path whenever they send each other what they have. -/
def growing : Topology :=
  let table := [("lengthen", lengthening)]
  ⟨[⟨"a", none, ["10.0.0.0/8"], [("e", ⟨[], ["lengthen"]⟩)], table, false⟩,
    ⟨"b", none, [], [("e", ⟨[], ["lengthen"]⟩)], table, false⟩], [forth, back]⟩

end Loop

theorem growing_reaches_fixed_point : Loop.growing.SteadyGuards ∧
    ∃ bound : Nat, ∀ iterations : Int, bound ≤ iterations →
      ∀ f, @Topology.ask .binary64 Loop.growing ⟨iterations, 1024⟩ Loop.query = .error f →
        f.code ≠ .cycleBound :=
  ⟨by decide +kernel,
    @Topology.ask_reaches_fixed_point .binary64 Loop.growing (by decide +kernel) Loop.query 1024⟩

end RoutePolicy
