import RoutePolicy.Proofs.Reachability

/-!
What propagation knows when it rests: everything that a kept variant sends over an edge has arrived,
and the node it arrives at keeps a variant under the same condition. Whatever a concrete record does
at an edge, a variant that describes it does too.
-/

set_option autoImplicit false

namespace RoutePolicy

namespace Propagation

/-! ### Growth -/

namespace State

/-- The node of a variant keeps one under the same condition. -/
def Keeps (s : State) (v : Variant) : Prop :=
  ∃ kept ∈ s.variants, kept.node = v.node ∧ kept.key = v.key

/-- A state in which more variants wait than in an earlier one. -/
structure Grows (s s' : State) : Prop where
  settled : s'.settled = s.settled
  variants : s.variants ⊆ s'.variants

variable {s s' s'' : State} {v : Variant}

theorem Grows.refl (s : State) : s.Grows s := ⟨rfl, fun _ member => member⟩

theorem Grows.trans (first : s.Grows s') (second : s'.Grows s'') : s.Grows s'' :=
  ⟨second.settled.trans first.settled, fun _ member => second.variants (first.variants member)⟩

theorem Keeps.mono (keeps : s.Keeps v) (grows : s.Grows s') : s'.Keeps v := by
  obtain ⟨kept, member, same⟩ := keeps
  exact ⟨kept, grows.variants member, same⟩

theorem keeps_of_knows (known : s.knows v = true) : s.Keeps v := by
  obtain ⟨kept, member, same⟩ := List.any_eq_true.mp known
  rw [Bool.and_eq_true, decide_eq_true_eq, decide_eq_true_eq] at same
  exact ⟨kept, member, same⟩

theorem grows_add (s : State) (v : Variant) : s.Grows (s.add v) := by
  unfold add
  split
  · exact .refl s
  · refine ⟨rfl, fun w member => ?_⟩
    unfold variants at member ⊢
    dsimp only
    rw [← List.append_assoc]
    exact List.mem_append_left _ member

theorem keeps_add (s : State) (v : Variant) : (s.add v).Keeps v := by
  unfold add
  split
  · rename_i known
    exact keeps_of_knows known
  · exact ⟨v, by simp [variants], rfl, rfl⟩

theorem grows_record (s : State) (c : Crossing) : s.Grows (s.record c) := by
  cases c with
  | refused hop => exact ⟨rfl, fun _ member => member⟩
  | arrival v => exact grows_add s v

theorem grows_records (s : State) (cs : List Crossing) : s.Grows (cs.foldl record s) := by
  induction cs generalizing s with
  | nil => exact .refl s
  | cons c rest ih => exact (grows_record s c).trans (ih (s.record c))

theorem keeps_records (s : State) {cs : List Crossing} (member : .arrival v ∈ cs) :
    (cs.foldl record s).Keeps v := by
  induction cs generalizing s with
  | nil => cases member
  | cons c rest ih =>
      rcases List.mem_cons.mp member with rfl | later
      · exact (keeps_add s v).mono (grows_records (s.add v) rest)
      · exact ih (s.record c) later

theorem grows_adds (s : State) (vs : List Variant) : s.Grows (vs.foldl add s) := by
  induction vs generalizing s with
  | nil => exact .refl s
  | cons v rest ih => exact (grows_add s v).trans (ih (s.add v))

theorem keeps_adds (s : State) {vs : List Variant} (member : v ∈ vs) : (vs.foldl add s).Keeps v := by
  induction vs generalizing s with
  | nil => cases member
  | cons w rest ih =>
      rcases List.mem_cons.mp member with rfl | later
      · exact (keeps_add s v).mono (grows_adds (s.add v) rest)
      · exact ih (s.add w) later

end State

variable [Arithmetic] {t : Topology} {limits : Limits} {s s' : State} {v w : Variant}

/-! ### Saturation -/

/-- All that a variant sends over an edge has arrived. -/
def Sent (t : Topology) (limits : Limits) (s : State) (v : Variant) (edge : Edge) : Prop :=
  ∃ cs, crossings t limits.paths v edge = .ok cs ∧ ∀ w, .arrival w ∈ cs → s.Keeps w

theorem Sent.mono {edge : Edge} (sent : Sent t limits s v edge) (grows : s.Grows s') :
    Sent t limits s' v edge := by
  obtain ⟨cs, crossed, arrived⟩ := sent
  exact ⟨cs, crossed, fun w member => (arrived w member).mono grows⟩

theorem cross_sent {edge : Edge} (crossed : cross t limits v edge s = .ok s') :
    s.Grows s' ∧ Sent t limits s' v edge := by
  unfold cross at crossed
  split at crossed
  · cases crossed
  · obtain ⟨cs, found, same⟩ := Outcome.bind_ok.mp crossed
    cases same
    have counted : s.Grows { s with steps := s.steps + 1 } := ⟨rfl, fun _ member => member⟩
    exact ⟨counted.trans (State.grows_records _ cs), cs, found, fun w => State.keeps_records _⟩

theorem crossAll_sent {edges : List Edge} (crossed : crossAll t limits v edges s = .ok s') :
    s.Grows s' ∧ ∀ edge ∈ edges, Sent t limits s' v edge := by
  induction edges generalizing s with
  | nil =>
      cases crossed
      exact ⟨.refl _, nofun⟩
  | cons edge rest ih =>
      obtain ⟨next, first, crossed⟩ := Outcome.bind_ok.mp crossed
      obtain ⟨grows, sent⟩ := cross_sent first
      obtain ⟨further, others⟩ := ih crossed
      exact ⟨grows.trans further, List.forall_mem_cons.mpr ⟨sent.mono further, others⟩⟩

/-- The variants that have been sent on have been sent over all edges of their nodes. -/
def Saturated (t : Topology) (limits : Limits) (s : State) : Prop :=
  ∀ v ∈ s.settled, ∀ edge ∈ edgesFrom t v.node, Sent t limits s v edge

theorem start_saturated (origins : List Variant) : Saturated t limits (start origins) := by
  intro v member
  rw [start, (State.grows_adds _ origins).settled] at member
  cases member

/-- Sending a waiting variant on keeps a state saturated. -/
theorem Saturated.step {rest : List Variant} (saturated : Saturated t limits s)
    (waits : s.waiting = v :: rest)
    (crossed : crossAll t limits v (edgesFrom t v.node)
      { s with settled := s.settled ++ [v], waiting := rest } = .ok s') :
    Saturated t limits s' ∧ s.variants ⊆ s'.variants := by
  obtain ⟨grows, sent⟩ := crossAll_sent crossed
  have kept : s.variants ⊆ s'.variants := by
    intro u member
    apply grows.variants
    simpa [State.variants, waits] using member
  refine ⟨?_, kept⟩
  intro u member edge leaves
  rw [grows.settled] at member
  rcases List.mem_append.mp member with before | here
  · obtain ⟨cs, found, arrived⟩ := saturated u before edge leaves
    refine ⟨cs, found, fun w inside => ?_⟩
    obtain ⟨other, known, same⟩ := arrived w inside
    exact ⟨other, kept known, same⟩
  · obtain rfl := List.mem_singleton.mp here
    exact sent edge leaves

/-- When propagation rests, it has all variants it started with, and is saturated with all of them
sent. -/
theorem settle_saturated (saturated : Saturated t limits s)
    (settled : settle t limits s = .ok s') :
    s.variants ⊆ s'.variants ∧ ∀ v ∈ s'.variants, ∀ edge ∈ edgesFrom t v.node,
      Sent t limits s' v edge := by
  obtain ⟨⟨kept, closed⟩, rests⟩ := settle_preserves
    (I := fun now => s.variants ⊆ now.variants ∧ Saturated t limits now)
    (fun now v rest next holds waits crossed => by
      obtain ⟨closed, further⟩ := holds.2.step waits crossed
      exact ⟨fun u member => further (holds.1 member), closed⟩)
    ⟨fun _ member => member, saturated⟩ settled
  refine ⟨kept, fun v member => closed v ?_⟩
  simpa [State.variants, rests] using member

/-! ### Provenance -/

/-- A variant sends another one over an edge of its node. -/
def Sends (t : Topology) (limits : Limits) (v w : Variant) : Prop :=
  ∃ edge ∈ edgesFrom t v.node, ∃ cs, crossings t limits.paths v edge = .ok cs ∧ .arrival w ∈ cs

/-- A variant that arrives at its node: an origin, or one that a kept variant sends. -/
def Arrives (t : Topology) (limits : Limits) (origins : List Variant) (s : State) (w : Variant) :
    Prop :=
  w ∈ origins ∨ ∃ v ∈ s.variants, Sends t limits v w

/-- Every kept variant is an origin or was sent by a variant that was sent on. -/
theorem settle_provenance {origins : List Variant} (settled : settle t limits (start origins) = .ok s) :
    ∀ w ∈ s.variants, w ∈ origins ∨ ∃ v ∈ s.settled, Sends t limits v w := by
  refine (settle_preserves
    (I := fun now => ∀ w ∈ now.variants, w ∈ origins ∨ ∃ v ∈ now.settled, Sends t limits v w)
    ?_ ?_ settled).1
  · intro now v rest next holds waits crossed
    obtain ⟨grows, _⟩ := crossAll_sent crossed
    rw [grows.settled]
    refine forall_crossAll ?_ ?_ crossed
    · intro edge leaves cs found w arrived
      exact .inr ⟨v, by simp, edge, leaves, cs, found, arrived⟩
    · intro w member
      have before : w ∈ now.variants := by simpa [State.variants, waits] using member
      rcases holds w before with first | ⟨u, sent, sends⟩
      · exact .inl first
      · exact .inr ⟨u, List.mem_append_left [v] sent, sends⟩
  · intro w member
    exact .inl (forall_start (fun _ inside => inside) w member)

/-- Kept variants have arrived. -/
theorem arrives_of_kept {origins : List Variant} (settled : settle t limits (start origins) = .ok s)
    (kept : w ∈ s.variants) : Arrives t limits origins s w := by
  rcases settle_provenance settled w kept with first | ⟨v, sent, sends⟩
  · exact .inl first
  · exact .inr ⟨v, List.mem_append_left _ sent, sends⟩

/-- When propagation rests, every variant has been sent over all edges of its node. -/
theorem settle_sent {origins : List Variant} (settled : settle t limits (start origins) = .ok s)
    (kept : v ∈ s.variants) {edge : Edge} (leaves : edge ∈ edgesFrom t v.node) :
    Sent t limits s v edge :=
  (settle_saturated (start_saturated origins) settled).2 v kept edge leaves

/-- When propagation rests, the nodes keep a variant for everything that arrives. -/
theorem settle_keeps {origins : List Variant} (settled : settle t limits (start origins) = .ok s)
    (arrives : Arrives t limits origins s w) : s.Keeps w := by
  rcases arrives with first | ⟨v, member, edge, leaves, cs, crossed, arrived⟩
  · obtain ⟨other, known, same⟩ := State.keeps_adds ⟨[], [], [], 0⟩ first
    exact ⟨other, (settle_saturated (start_saturated origins) settled).1 known, same⟩
  · obtain ⟨found, sent, all⟩ := settle_sent settled member leaves
    rw [crossed] at sent
    cases sent
    exact all w arrived

end Propagation

/-! ### Concrete records -/

/-- A variant describes a concrete record of a route: its condition is true of the route, of which
the record has the values that the variant says. -/
structure Variant.Describes (route : Route) (v : Variant) (r : Record) : Prop where
  holds : v.condition.holdsAt route = true
  comes : v.record.ComesTo route r

theorem Expr.isFalse_of_holdsAt {route : Route} {e : Expr} (holds : e.holdsAt route = true) :
    e.isFalse = false := by
  unfold isFalse
  rw [decide_eq_false_iff_not]
  intro constant
  rw [holdsAt_of_bool? constant] at holds
  cases holds

namespace Propagation

variable [Arithmetic]

/-- What a variant describes does at an edge what the variant does: it leaves and enters along one
path each, and if both accept it, then a variant arrives that describes what it has become. -/
theorem Justified.follows (exact : ∀ i : Int, Arithmetic.round i = i) {t : Topology}
    (usable : t.Usable) {q : Query} {target : Network} {paths : Int} {v : Variant} {edge : Edge}
    (justified : Justified t q target v) {cs : List Crossing}
    (crossed : crossings t paths v edge = .ok cs) {route : Route} {r : Record}
    (describes : v.Describes route r) {limit : Int} (room : 1 ≤ limit) :
    ∃ left, evaluateChain ⟨[], limit, t.policies edge.source.node⟩ (t.exportChain edge.source) r =
        .ok [left] ∧
      (left.disposition = .accept → ∃ entered,
        evaluateChain ⟨[], limit, t.policies edge.target.node⟩ (t.importChain edge.target)
          left.record = .ok [entered] ∧
        (entered.disposition = .accept → ∃ w, .arrival w ∈ cs ∧ w.node = edge.target.node ∧
          w.Describes route entered.record)) := by
  have conjuncts := Expr.residualOf_conjuncts justified.condition
  have exportTable := usable.policies edge.source.node
  have exportChain := usable.chainOf edge.source (t.chains edge.source).exports
  have importTable := usable.policies edge.target.node
  have importChain := usable.chainOf edge.target (t.chains edge.target).imports
  obtain ⟨all, passed, _⟩ := Outcome.bind_ok.mp crossed
  have exported := pass_ok.mp passed
  -- the path of the sender that the route takes
  have leaving := evaluateChain_partition
    ⟨v.condition.conjuncts, paths, t.policies edge.source.node⟩ conjuncts exportTable
    exportChain justified.record exported
  have satisfied := describes.holds
  rw [← Expr.holdsAt_conjuncts] at satisfied
  obtain ⟨path, single⟩ := leaving.exactlyOne satisfied
  obtain ⟨member, holds⟩ := List.mem_filter.mp (single ▸ List.mem_singleton_self path)
  obtain ⟨left, ran, follows⟩ := evaluateChain_agrees exact
    ⟨v.condition.conjuncts, paths, t.policies edge.source.node⟩ conjuncts exportTable
    exportChain justified.record describes.comes exported member holds room
  refine ⟨left, ran, fun accepted => ?_⟩
  obtain ⟨among, imported, arrives⟩ :=
    mem_crossings crossed exported member (follows.disposition.symm.trans accepted)
  -- the path of the receiver that the route takes after that
  have sound := leaving.sound path member
  have entering := evaluateChain_partition
    ⟨path.condition, paths, t.policies edge.target.node⟩ sound.condition importTable
    importChain sound.record imported
  obtain ⟨last, single⟩ := entering.exactlyOne holds
  obtain ⟨found, lastHolds⟩ := List.mem_filter.mp (single ▸ List.mem_singleton_self last)
  obtain ⟨entered, reran, further⟩ := evaluateChain_agrees exact
    ⟨path.condition, paths, t.policies edge.target.node⟩ sound.condition importTable
    importChain sound.record follows.record imported found lastHolds room
  refine ⟨entered, reran, fun admitted => ?_⟩
  have residual := Expr.residualOf_junction .all (entering.sound last found).condition
  have condition : (Expr.all last.condition).simplify.holdsAt route = true := by
    rw [Expr.holdsAt_simplify (e := Expr.all last.condition) residual, Expr.holdsAt_all]
    exact lastHolds
  obtain ⟨w, arrived, node, same, record⟩ := arrives last found
    (further.disposition.symm.trans admitted) (Expr.isFalse_of_holdsAt condition)
  exact ⟨w, arrived, node, same ▸ condition, record ▸ further.record⟩

end Propagation

end RoutePolicy
