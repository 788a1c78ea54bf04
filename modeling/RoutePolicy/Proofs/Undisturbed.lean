import RoutePolicy.Proofs.Completeness

/-!
Runs of propagation in which no node drops a variant. It is known where such a run rests as soon as
it is known what each variant sends, and no record is overtaken in it.
-/

set_option autoImplicit false

namespace RoutePolicy

namespace Propagation

/-! ### Arrivals -/

/-- The variants that arrive by crossings. -/
def arrivals (cs : List Crossing) : List Variant :=
  cs.filterMap fun
    | .refused _ => none
    | .arrival v => some v

/-- The hops that are refused. -/
def refusals (cs : List Crossing) : List Hop :=
  cs.filterMap fun
    | .refused hop => some hop
    | .arrival _ => none

theorem mem_arrivals {cs : List Crossing} {v : Variant} : v ∈ arrivals cs ↔ .arrival v ∈ cs := by
  unfold arrivals
  rw [List.mem_filterMap]
  constructor
  · rintro ⟨c, member, same⟩
    cases c with
    | refused hop => cases same
    | arrival w =>
        cases same
        exact member
  · exact fun member => ⟨_, member, rfl⟩

/-- No node has two of the variants under one condition. -/
def Apart (vs : List Variant) : Prop := vs.Pairwise fun v w => v.node = w.node → v.key ≠ w.key

namespace State

variable {s : State} {v : Variant} {cs : List Crossing}

theorem add_known (known : s.Keeps v) : s.add v = s := by
  obtain ⟨kept, member, node, key⟩ := known
  have knows : s.knows v = true := by
    refine List.any_eq_true.mpr ⟨kept, member, ?_⟩
    rw [Bool.and_eq_true, decide_eq_true_eq, decide_eq_true_eq]
    exact ⟨node, key⟩
  rw [add, if_pos knows]

theorem add_new (new : ∀ u ∈ s.variants, u.node = v.node → u.key ≠ v.key) :
    s.add v = { s with waiting := s.waiting ++ [v] } := by
  have unknown : s.knows v = false := by
    unfold knows
    rw [List.any_eq_false]
    intro u member
    rw [Bool.and_eq_true, decide_eq_true_eq, decide_eq_true_eq]
    exact fun same => new u member same.1 same.2
  rw [add, unknown, if_neg Bool.false_ne_true]

/-- All arrivals wait if no two variants share a node and a condition. -/
theorem records_apart (apart : Apart (s.variants ++ arrivals cs)) :
    cs.foldl record s =
      { s with waiting := s.waiting ++ arrivals cs, refused := s.refused ++ refusals cs } := by
  induction cs generalizing s with
  | nil => simp [arrivals, refusals]
  | cons c rest ih =>
      cases c with
      | refused hop =>
          have later : Apart ((s.record (.refused hop)).variants ++ arrivals rest) := apart
          rw [List.foldl_cons, ih later]
          simp [record, arrivals, refusals]
      | arrival v =>
          have new : ∀ u ∈ s.variants, u.node = v.node → u.key ≠ v.key := fun u member =>
            (List.pairwise_append.mp apart).2.2 u member v List.mem_cons_self
          have later : Apart ((s.add v).variants ++ arrivals rest) := by
            rw [add_new new]
            simpa [variants, arrivals] using apart
          rw [List.foldl_cons, record, ih later, add_new new]
          simp [arrivals, refusals]

/-- Nothing waits that was known before. -/
theorem records_known (known : ∀ v ∈ arrivals cs, s.Keeps v) :
    cs.foldl record s = { s with refused := s.refused ++ refusals cs } := by
  induction cs generalizing s with
  | nil => simp [refusals]
  | cons c rest ih =>
      cases c with
      | refused hop =>
          have later : ∀ v ∈ arrivals rest, (s.record (.refused hop)).Keeps v := known
          rw [List.foldl_cons, ih later]
          simp [record, refusals]
      | arrival v =>
          obtain ⟨here, later⟩ := List.forall_mem_cons.mp
            (show ∀ w ∈ v :: arrivals rest, s.Keeps w from known)
          rw [List.foldl_cons, record, add_known here, ih later]
          simp [refusals]

theorem record_steps (c : Crossing) (n : Nat) :
    { s with steps := n }.record c = { s.record c with steps := n } := by
  cases c with
  | refused hop => rfl
  | arrival v =>
      unfold record add knows variants
      dsimp only
      split <;> rfl

/-- What is recorded does not depend on the count of crossed edges. -/
theorem records_steps (n : Nat) : cs.foldl record { s with steps := n } =
    { cs.foldl record s with steps := n } := by
  induction cs generalizing s with
  | nil => rfl
  | cons c rest ih => rw [List.foldl_cons, record_steps, ih, List.foldl_cons]

end State

/-- Where a variant is and under which condition. -/
def standing (v : Variant) : String × Expr := (v.node, v.condition)

/-- Variants are apart where the conditions at each node are not the same. -/
theorem apart_of_standing {vs : List Variant}
    (printed : ∀ c ∈ vs.map standing, c.2.Each Expr.Printed)
    (differ : (vs.map standing).Pairwise fun c d => c.1 = d.1 → Expr.same c.2 d.2 = false) :
    Apart vs := by
  rw [List.forall_mem_map] at printed
  rw [List.pairwise_map] at differ
  refine differ.imp_of_mem fun {v w} left right differ here key => ?_
  have same := Expr.same_of_key (printed v left) (printed w right) key
  exact Bool.false_ne_true ((differ here).symm.trans same)

/-- The condition of a node, from where variants are and under which conditions. -/
def predicateOf (standings : List (String × Expr)) (node : String) : Expr :=
  (Expr.any ((standings.filter (·.1 = node)).map Prod.snd)).simplify

theorem predicate_standing (s : State) (node : String) :
    predicate s node = predicateOf (s.variants.map standing) node := by
  rw [predicateOf, List.filter_map, List.map_map]
  rfl

/-- Whether an answer is accepted, from the same. -/
theorem accepted_standing (t : Topology) (q : Query) (s : State) :
    (answer t q s).accepted = !(witness q (t.nodes.map fun n =>
      (n.name, predicateOf (s.variants.map standing) n.name))).isFalse := by
  simp only [← predicate_standing]
  rfl

variable [Arithmetic] {t : Topology} {limits : Limits} {v w : Variant}

/-- What a variant sends over edges, one after another. -/
def sendAll (t : Topology) (limits : Limits) (v : Variant) :
    List Edge → Outcome (List Crossing)
  | [] => .ok []
  | edge :: rest => do
    let first ← crossings t limits.paths v edge
    let others ← sendAll t limits v rest
    .ok (first ++ others)

/-- What a variant sends over the edges of its node. -/
def emissions (t : Topology) (limits : Limits) (v : Variant) : Outcome (List Crossing) :=
  sendAll t limits v (edgesFrom t v.node)

theorem mem_sendAll {edges : List Edge} {cs own : List Crossing}
    (sent : sendAll t limits v edges = .ok cs) {edge : Edge} (member : edge ∈ edges)
    (crossed : crossings t limits.paths v edge = .ok own) : own ⊆ cs := by
  induction edges generalizing cs with
  | nil => cases member
  | cons first rest ih =>
      obtain ⟨here, found, sent⟩ := Outcome.bind_ok.mp sent
      obtain ⟨others, later, same⟩ := Outcome.bind_ok.mp sent
      cases same
      rcases List.mem_cons.mp member with rfl | inside
      · rw [crossed] at found
        cases found
        exact List.subset_append_left own others
      · exact List.Subset.trans (ih later inside) (List.subset_append_right here others)

/-- Below the bound, all that a variant sends over edges is recorded. -/
theorem crossAll_of_sendAll {edges : List Edge} {cs : List Crossing}
    (sent : sendAll t limits v edges = .ok cs) {s : State}
    (room : ((s.steps + edges.length : Nat) : Int) ≤ limits.iterations) :
    crossAll t limits v edges s =
      .ok (cs.foldl State.record { s with steps := s.steps + edges.length }) := by
  induction edges generalizing s cs with
  | nil =>
      cases sent
      rfl
  | cons edge rest ih =>
      obtain ⟨own, crossed, sent⟩ := Outcome.bind_ok.mp sent
      obtain ⟨others, later, same⟩ := Outcome.bind_ok.mp sent
      cases same
      rw [List.length_cons] at room ⊢
      have first : s.steps + 1 ≤ limits.iterations := by omega
      have next := @ih others later (own.foldl State.record { s with steps := s.steps + 1 }) (by
        rw [State.steps_foldl_record]
        dsimp only
        omega)
      refine Outcome.bind_ok.mpr ⟨_, cross_of_crossings first crossed, ?_⟩
      rw [next, State.steps_foldl_record, ← State.records_steps, List.foldl_append, Nat.add_assoc,
        Nat.add_comm 1]

/-- When the turn of a waiting variant comes, all that it sends is recorded. -/
theorem settle_of_emissions {rest done : List Variant} {hops : List Hop} {n : Nat}
    {cs : List Crossing} (emits : emissions t limits v = .ok cs)
    (room : ((n + (edgesFrom t v.node).length : Nat) : Int) ≤ limits.iterations) :
    settle t limits ⟨done, v :: rest, hops, n⟩ = settle t limits
      (cs.foldl State.record ⟨done ++ [v], rest, hops, n + (edgesFrom t v.node).length⟩) :=
  settle_of_sent rfl (crossAll_of_sendAll emits room)

/-! ### Undisturbed runs -/

/-- From the variants that wait, all of `all` are sent on one after another if nothing is dropped;
`hops` are refused meanwhile, and `n` edges crossed. -/
inductive Flows (t : Topology) (limits : Limits) :
    List Variant → List Variant → List Hop → Nat → Prop where
  | rest : Flows t limits [] [] [] 0
  | send {v : Variant} {waiting all : List Variant} {cs : List Crossing} {hops : List Hop} {n : Nat}
      (emits : emissions t limits v = .ok cs)
      (further : Flows t limits (waiting ++ arrivals cs) all hops n) :
      Flows t limits (v :: waiting) (v :: all) (refusals cs ++ hops)
        ((edgesFrom t v.node).length + n)

variable {waiting all : List Variant} {hops : List Hop} {n : Nat}

/-- Variants at nodes that no edge leaves are sent nowhere. -/
theorem Flows.quiet (last : ∀ v ∈ waiting, edgesFrom t v.node = []) :
    Flows t limits waiting waiting [] 0 := by
  induction waiting with
  | nil => exact .rest
  | cons v rest ih =>
      obtain ⟨here, others⟩ := List.forall_mem_cons.mp last
      have emits : emissions t limits v = .ok [] := by
        unfold emissions
        rw [here]
        rfl
      have further : Flows t limits (rest ++ arrivals []) rest [] 0 := by
        simpa [arrivals] using ih others
      simpa [refusals, here] using Flows.send emits further

theorem Flows.initial (flows : Flows t limits waiting all hops n) : waiting <+: all := by
  induction flows with
  | rest => exact List.prefix_rfl
  | send _ _ ih => exact List.cons_prefix_cons.mpr ⟨rfl, (List.prefix_append _ _).trans ih⟩

/-- All that is sent is among the variants that are sent on. -/
theorem Flows.closed (flows : Flows t limits waiting all hops n) (member : v ∈ all)
    (sends : Sends t limits v w) : w ∈ all := by
  induction flows with
  | rest => cases member
  | @send u waiting all cs hops n emits further ih =>
      rcases List.mem_cons.mp member with rfl | later
      · obtain ⟨edge, leaves, own, crossed, arrived⟩ := sends
        have among : w ∈ arrivals cs := mem_arrivals.mpr (mem_sendAll emits leaves crossed arrived)
        exact List.mem_cons_of_mem v (further.initial.subset (List.mem_append_right waiting among))
      · exact List.mem_cons_of_mem u (ih later)

/-- A run in which no two variants share a node and a condition rests with all of them. -/
theorem Flows.settle (flows : Flows t limits waiting all hops n) (done : List Variant)
    (before : List Hop) (steps : Nat) (apart : Apart (done ++ all))
    (room : ((steps + n : Nat) : Int) ≤ limits.iterations) :
    settle t limits ⟨done, waiting, before, steps⟩ =
      .ok ⟨done ++ all, [], before ++ hops, steps + n⟩ := by
  induction flows generalizing done before steps with
  | rest => simpa using settle_of_rest rfl
  | @send v waiting all cs hops n emits further ih =>
      obtain ⟨later, same⟩ := further.initial
      have near : Apart ((⟨done ++ [v], waiting, before, steps + (edgesFrom t v.node).length⟩ :
          State).variants ++ arrivals cs) := by
        rw [← same] at apart
        refine apart.sublist ?_
        simp [State.variants]
      have rest : Apart ((done ++ [v]) ++ all) := by simpa using apart
      rw [settle_of_emissions emits (by omega), State.records_apart near,
        ih _ _ _ rest (by rwa [Nat.add_assoc])]
      simp [Nat.add_assoc]

omit [Arithmetic] in
/-- Origins that are apart all wait at the start. -/
theorem start_apart {origins : List Variant} (apart : Apart origins) :
    start origins = ⟨[], origins, [], 0⟩ := by
  unfold start
  suffices general : ∀ before : List Variant, Apart (before ++ origins) →
      origins.foldl State.add ⟨[], before, [], 0⟩ = ⟨[], before ++ origins, [], 0⟩ from
    general [] apart
  clear apart
  induction origins with
  | nil => simp
  | cons v rest ih =>
      intro before apart
      have new : ∀ u ∈ (⟨[], before, [], 0⟩ : State).variants, u.node = v.node → u.key ≠ v.key :=
        fun u member => (List.pairwise_append.mp apart).2.2 u member v List.mem_cons_self
      rw [List.foldl_cons, State.add_new new, ih (before ++ [v]) (by simpa using apart)]
      simp

end Propagation

namespace Topology

open Propagation

variable [Arithmetic] {t : Topology} {limits : Limits} {q : Query} {origins all : List Variant}
  {hops : List Hop} {n : Nat}

/-- What flows from the origins is where propagation rests. -/
theorem propagates_of_flows (starts : q.origins t = .ok origins)
    (flows : Flows t limits origins all hops n) (apart : Apart all) (room : n ≤ limits.iterations) :
    t.Propagates limits q origins ⟨all, [], hops, n⟩ := by
  refine ⟨starts, ?_⟩
  rw [start_apart (apart.sublist flows.initial.sublist)]
  simpa using flows.settle [] [] 0 apart (by rwa [Nat.zero_add])

/-- What is answered depends on where the kept variants are and under which conditions. -/
theorem Propagates.ask_of_standing {standings : List (String × Expr)}
    (ran : t.Propagates limits q origins ⟨all, [], hops, n⟩) (stand : all.map standing = standings) :
    ∃ a, t.ask limits q = .ok a ∧ a.iterations = n ∧
      a.predicates = t.nodes.map (fun m => (m.name, predicateOf standings m.name)) ∧
      a.accepted = !(witness q (t.nodes.map fun m =>
        (m.name, predicateOf standings m.name))).isFalse := by
  have known : (⟨all, [], hops, n⟩ : State).variants.map standing = standings := by
    rw [State.variants, List.append_nil, stand]
  refine ⟨_, ask_ok.mpr ⟨_, _, ran, rfl⟩, rfl, ?_, ?_⟩
  · simp only [answer, predicates, predicate_standing, known]
  · rw [accepted_standing, known]

/-- Where all that arrives is kept, no record is overtaken. -/
theorem Propagates.clearAt {s : State} (ran : t.Propagates limits q origins s) {route : Route}
    (kept : ∀ w, Propagation.Arrives t limits origins s w → ∀ r, w.Describes route r →
      ∃ v ∈ s.variants, v.node = w.node ∧ v.Describes route r) (node : String) :
    t.ClearAt limits q route node := by
  rintro mid r _ ⟨others, s', other, ⟨w, arrives, rfl, describes⟩, nothing⟩
  obtain ⟨rfl, rfl⟩ := ran.unique other
  obtain ⟨v, member, here, describes⟩ := kept w arrives r describes
  exact nothing v member here describes

/-- No record is overtaken in a run in which nothing is dropped. -/
theorem clearAt_of_flows (starts : q.origins t = .ok origins)
    (flows : Flows t limits origins all hops n) (apart : Apart all) (room : n ≤ limits.iterations)
    (route : Route) (node : String) : t.ClearAt limits q route node := by
  refine (propagates_of_flows starts flows apart room).clearAt (fun w arrives r describes => ?_) node
  refine ⟨w, ?_, rfl, describes⟩
  have variants : (⟨all, [], hops, n⟩ : State).variants = all := List.append_nil all
  rw [variants]
  rcases arrives with first | ⟨v, member, sends⟩
  · exact flows.initial.subset first
  · exact flows.closed (variants ▸ member) sends

/-- If the conditions at each node are not the same, what flows is where propagation rests, and no
record is overtaken. -/
theorem undisturbed {standings : List (String × Expr)} (starts : q.origins t = .ok origins)
    (flows : Flows t limits origins all hops n) (room : n ≤ limits.iterations)
    (stand : all.map standing = standings) (printed : ∀ c ∈ standings, c.2.Each Expr.Printed)
    (differ : standings.Pairwise fun c d => c.1 = d.1 → Expr.same c.2 d.2 = false) :
    t.Propagates limits q origins ⟨all, [], hops, n⟩ ∧
      ∀ route node, t.ClearAt limits q route node := by
  subst stand
  have apart := apart_of_standing printed differ
  exact ⟨propagates_of_flows starts flows apart room, clearAt_of_flows starts flows apart room⟩

/-- The same for a single origin from where all is sent to nodes that no edge leaves. -/
theorem undisturbed_single {v : Variant} {cs : List Crossing} {standings : List (String × Expr)}
    (starts : q.origins t = .ok [v]) (emits : emissions t limits v = .ok cs)
    (stand : (arrivals cs).map standing = standings) (quiet : ∀ c ∈ standings, edgesFrom t c.1 = [])
    (room : (edgesFrom t v.node).length ≤ limits.iterations)
    (printed : ∀ c ∈ standing v :: standings, c.2.Each Expr.Printed)
    (differ : (standing v :: standings).Pairwise fun c d => c.1 = d.1 → Expr.same c.2 d.2 = false) :
    t.Propagates limits q [v]
        ⟨v :: arrivals cs, [], refusals cs, (edgesFrom t v.node).length⟩ ∧
      ∀ route node, t.ClearAt limits q route node := by
  subst stand
  rw [List.forall_mem_map] at quiet
  have flows := Flows.send emits (Flows.quiet (show ∀ w ∈ [] ++ arrivals cs, _ from quiet))
  rw [List.append_nil, List.nil_append, Nat.add_zero] at flows
  exact undisturbed starts flows room rfl printed differ

end Topology

end RoutePolicy
