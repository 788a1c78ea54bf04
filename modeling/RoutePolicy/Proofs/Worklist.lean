import RoutePolicy.Proofs.Undisturbed

/-!
The work list of propagation. When nothing waits any more, the variants that nodes keep are closed
under what they send, each one is an origin or sent by one that came before it, and every variant
has crossed every edge of its node once. That is why no memory of crossed edges is needed: a run
that remembers which condition crossed which edge is the same run.
-/

set_option autoImplicit false

namespace RoutePolicy

namespace Propagation

/-! ### Waiting in line -/

namespace State

/-- A state in which further variants with the property `J` wait in line. It leaves nodes with one
variant a condition. -/
structure Queues (J : Variant → Prop) (s s' : State) : Prop where
  settled : s'.settled = s.settled
  waiting : ∃ new, s'.waiting = s.waiting ++ new ∧ ∀ w ∈ new, J w
  apart : Apart s.variants → Apart s'.variants

variable {J K : Variant → Prop} {s s' s'' : State}

theorem Queues.same (settled : s'.settled = s.settled) (waiting : s'.waiting = s.waiting) :
    s.Queues J s' := by
  refine ⟨settled, ⟨[], by simpa using waiting, nofun⟩, fun apart => ?_⟩
  unfold variants at apart ⊢
  rwa [settled, waiting]

theorem Queues.trans (first : s.Queues J s') (second : s'.Queues J s'') : s.Queues J s'' := by
  obtain ⟨new, waiting, own⟩ := first.waiting
  obtain ⟨later, further, others⟩ := second.waiting
  refine ⟨second.settled.trans first.settled, ⟨new ++ later, ?_, ?_⟩, second.apart ∘ first.apart⟩
  · rw [further, waiting, List.append_assoc]
  · exact List.forall_mem_append.mpr ⟨own, others⟩

theorem Queues.mono (queues : s.Queues J s') (weaker : ∀ w, J w → K w) : s.Queues K s' := by
  obtain ⟨settled, ⟨new, waiting, own⟩, apart⟩ := queues
  exact ⟨settled, ⟨new, waiting, fun w member => weaker w (own w member)⟩, apart⟩

/-- The variants that were there stand before those that came. -/
theorem Queues.variants (queues : s.Queues J s') :
    ∃ new, s'.variants = s.variants ++ new ∧ ∀ w ∈ new, J w := by
  obtain ⟨new, waiting, own⟩ := queues.waiting
  refine ⟨new, ?_, own⟩
  rw [State.variants, queues.settled, waiting, ← List.append_assoc]
  rfl

theorem queues_add (s : State) {v : Variant} (holds : J v) : s.Queues J (s.add v) := by
  by_cases known : s.Keeps v
  · rw [add_known known]
    exact .same rfl rfl
  · have new : ∀ u ∈ s.variants, u.node = v.node → u.key ≠ v.key :=
      fun u member node key => known ⟨u, member, node, key⟩
    rw [add_new new]
    refine ⟨rfl, ⟨[v], rfl, by simpa using holds⟩, fun apart => ?_⟩
    have line : ({ s with waiting := s.waiting ++ [v] } : State).variants = s.variants ++ [v] :=
      (List.append_assoc ..).symm
    rw [line]
    refine List.pairwise_append.mpr ⟨apart, List.pairwise_singleton .., ?_⟩
    intro u member w last
    obtain rfl := List.mem_singleton.mp last
    exact new u member

theorem queues_adds (s : State) {vs : List Variant} (each : ∀ v ∈ vs, J v) :
    s.Queues J (vs.foldl add s) := by
  induction vs generalizing s with
  | nil => exact .same rfl rfl
  | cons v rest ih =>
      obtain ⟨here, later⟩ := List.forall_mem_cons.mp each
      exact (queues_add s here).trans (ih (s.add v) later)

theorem queues_records (s : State) {cs : List Crossing} (arrivals : ∀ w, .arrival w ∈ cs → J w) :
    s.Queues J (cs.foldl record s) := by
  induction cs generalizing s with
  | nil => exact .same rfl rfl
  | cons c rest ih =>
      have own : s.Queues J (s.record c) := by
        cases c with
        | refused hop => exact .same rfl rfl
        | arrival v => exact queues_add s (arrivals v List.mem_cons_self)
      exact own.trans (ih (s.record c) fun w member => arrivals w (List.mem_cons_of_mem c member))

end State

/-- Every variant of a list is an origin, or one that stands before it sends it. -/
def Ordered [Arithmetic] (t : Topology) (limits : Limits) (origins vs : List Variant) : Prop :=
  ∀ before w after, vs = before ++ w :: after →
    w ∈ origins ∨ ∃ v ∈ before, Sends t limits v w

section

variable [Arithmetic] {t : Topology} {limits : Limits} {s s' : State} {v : Variant}
  {origins : List Variant}

theorem cross_queues {edge : Edge} (crossed : cross t limits v edge s = .ok s') :
    s.Queues (fun w => ∃ cs, crossings t limits.paths v edge = .ok cs ∧ .arrival w ∈ cs) s' := by
  unfold cross at crossed
  split at crossed
  · cases crossed
  · obtain ⟨cs, found, same⟩ := Outcome.bind_ok.mp crossed
    cases same
    have counted : s.Queues (fun w => ∃ cs, crossings t limits.paths v edge = .ok cs ∧
        .arrival w ∈ cs) { s with steps := s.steps + 1 } := .same rfl rfl
    exact counted.trans (State.queues_records _ fun w member => ⟨cs, found, member⟩)

theorem crossAll_queues {edges : List Edge} (crossed : crossAll t limits v edges s = .ok s') :
    s.Queues (fun w => ∃ edge ∈ edges, ∃ cs, crossings t limits.paths v edge = .ok cs ∧
      .arrival w ∈ cs) s' := by
  induction edges generalizing s with
  | nil =>
      cases crossed
      exact .same rfl rfl
  | cons edge rest ih =>
      obtain ⟨next, first, crossed⟩ := Outcome.bind_ok.mp crossed
      refine ((cross_queues first).mono ?_).trans ((ih crossed).mono ?_)
      · exact fun w sent => ⟨edge, List.mem_cons_self, sent⟩
      · exact fun w ⟨other, member, sent⟩ => ⟨other, List.mem_cons_of_mem edge member, sent⟩

theorem Ordered.append {vs new : List Variant} (ordered : Ordered t limits origins vs)
    (sent : ∀ w ∈ new, ∃ v ∈ vs, Sends t limits v w) : Ordered t limits origins (vs ++ new) := by
  intro before w after same
  rcases List.append_eq_append_iff.mp same with ⟨between, rfl, line⟩ | ⟨between, rfl, line⟩
  · have member : w ∈ new := line ▸ List.mem_append_right between List.mem_cons_self
    obtain ⟨v, inside, sends⟩ := sent w member
    exact .inr ⟨v, List.mem_append_left between inside, sends⟩
  · cases between with
    | nil =>
        have member : w ∈ new := by
          rw [List.nil_append] at line
          exact line ▸ List.mem_cons_self
        obtain ⟨v, inside, sends⟩ := sent w member
        exact .inr ⟨v, by simpa using inside, sends⟩
    | cons first rest =>
        rw [List.cons_append, List.cons.injEq] at line
        obtain ⟨rfl, rfl⟩ := line
        exact ordered before w rest rfl

/-! ### The run -/

/-- What holds of every state of a run: a node has one variant a condition, variants come after
those that send them, and the crossed edges are those of the variants that were sent on. -/
structure Runs (t : Topology) (limits : Limits) (origins : List Variant) (s : State) : Prop where
  apart : Apart s.variants
  ordered : Ordered t limits origins s.variants
  counted : s.steps = (s.settled.map fun v => (edgesFrom t v.node).length).sum
  bounded : s.steps = 0 ∨ (s.steps : Int) ≤ limits.iterations

omit [Arithmetic] in
theorem start_queues (origins : List Variant) :
    (⟨[], [], [], 0⟩ : State).Queues (· ∈ origins) (start origins) :=
  State.queues_adds _ fun _ member => member

omit [Arithmetic] in
theorem steps_start (origins : List Variant) : (start origins).steps = 0 := by
  unfold start
  suffices general : ∀ s : State, (origins.foldl State.add s).steps = s.steps from general _
  induction origins with
  | nil => exact fun s => rfl
  | cons v rest ih => exact fun s => (ih (s.add v)).trans (State.steps_add s v)

theorem start_runs (origins : List Variant) : Runs t limits origins (start origins) := by
  have queues := start_queues origins
  obtain ⟨new, variants, own⟩ := queues.variants
  refine ⟨queues.apart List.Pairwise.nil, ?_, ?_, .inl (steps_start origins)⟩
  · intro before w after same
    left
    apply own
    have line : new = before ++ w :: after := variants.symm.trans same
    simp [line]
  · rw [steps_start, queues.settled]
    rfl

/-- Sending the first waiting variant on keeps what holds of a run. -/
theorem Runs.step {rest : List Variant} (runs : Runs t limits origins s)
    (waits : s.waiting = v :: rest)
    (crossed : crossAll t limits v (edgesFrom t v.node)
      { s with settled := s.settled ++ [v], waiting := rest } = .ok s') :
    Runs t limits origins s' := by
  have line : ({ s with settled := s.settled ++ [v], waiting := rest } : State).variants =
      s.variants := by
    simp [State.variants, waits]
  have queues := crossAll_queues crossed
  obtain ⟨new, variants, sent⟩ := queues.variants
  rw [line] at variants
  obtain ⟨steps, within⟩ := steps_crossAll crossed
  constructor
  · exact queues.apart (line ▸ runs.apart)
  · rw [variants]
    refine runs.ordered.append fun w member => ⟨v, ?_, sent w member⟩
    simp [State.variants, waits]
  · rw [steps, queues.settled, List.map_append, List.sum_append, ← runs.counted]
    rfl
  · by_cases none : edgesFrom t v.node = []
    · rw [steps, none]
      exact runs.bounded
    · exact .inr (within none)

/-- Whatever a run comes to rest in has been kept by every step. -/
theorem settle_runs (settled : settle t limits (start origins) = .ok s) :
    Runs t limits origins s ∧ s.waiting = [] :=
  settle_preserves (fun _ _ _ _ runs waits crossed => runs.step waits crossed)
    (start_runs origins) settled

end

/-! ### A memory of crossed edges -/

/-- Which edges, by their numbers, have been crossed under which conditions. -/
abbrev Memory := List (Nat × String)

section

variable [Arithmetic] (t : Topology) (limits : Limits)

/-- Sends a variant over numbered edges, except over those that its condition has crossed. -/
def crossNew (v : Variant) : List (Nat × Edge) → Memory → State → Outcome (Memory × State)
  | [], memory, s => .ok (memory, s)
  | (i, edge) :: rest, memory, s =>
    if (i, v.key) ∈ memory then crossNew v rest memory s
    else do
      let s ← cross t limits v edge s
      crossNew v rest (memory ++ [(i, v.key)]) s

variable {t limits}

theorem steps_crossNew {v : Variant} {edges : List (Nat × Edge)} {memory memory' : Memory}
    {s s' : State} (crossed : crossNew t limits v edges memory s = .ok (memory', s')) :
    s' = s ∨ s.steps < s'.steps ∧ (s'.steps : Int) ≤ limits.iterations := by
  induction edges generalizing memory s with
  | nil =>
      cases crossed
      exact .inl rfl
  | cons entry rest ih =>
      obtain ⟨i, edge⟩ := entry
      rw [crossNew] at crossed
      split at crossed
      · exact ih crossed
      · obtain ⟨next, first, later⟩ := Outcome.bind_ok.mp crossed
        obtain ⟨steps, within⟩ := steps_cross first
        rcases ih later with rfl | ⟨more, bound⟩
        · exact .inr ⟨by omega, within⟩
        · exact .inr ⟨by omega, bound⟩

variable (t limits)

/-- Sends waiting variants on until none waits, with a memory of the edges that were crossed. -/
def settleNew (memory : Memory) (s : State) : Outcome State :=
  match _waits : s.waiting with
  | [] => .ok s
  | v :: rest =>
    match _crossed : crossNew t limits v (t.outgoing v.node) memory
        { s with settled := s.settled ++ [v], waiting := rest } with
    | .error f => .error f
    | .ok (memory', s') => settleNew memory' s'
termination_by (limits.iterations.toNat - s.steps, s.waiting.length)
decreasing_by
  rcases steps_crossNew _crossed with rfl | ⟨more, bound⟩
  · simp [Prod.lex_def, _waits]
  · simp only [Prod.lex_def] at more ⊢
    exact Or.inl (by omega)

variable {t limits} {memory : Memory} {s s' : State} {v : Variant}

theorem settleNew_of_rest (rests : s.waiting = []) : settleNew t limits memory s = .ok s := by
  rw [settleNew.eq_def]
  split
  · rfl
  · rename_i more
    rw [rests] at more
    cases more

theorem settleNew_of_waiting {rest : List Variant} (waits : s.waiting = v :: rest) :
    settleNew t limits memory s =
      crossNew t limits v (t.outgoing v.node) memory
        { s with settled := s.settled ++ [v], waiting := rest } >>=
          fun (memory', s') => settleNew t limits memory' s' := by
  rw [settleNew.eq_def]
  split
  · rename_i rests
    rw [waits] at rests
    cases rests
  · rename_i more
    rw [waits] at more
    cases more
    split <;> simp only [*] <;> rfl

omit [Arithmetic] in
theorem mem_outgoing {node : String} {i : Nat} {edge : Edge} :
    (i, edge) ∈ t.outgoing node ↔ t.edges[i]? = some edge ∧ edge.source.node = node := by
  unfold Topology.outgoing
  rw [List.mem_map]
  constructor
  · rintro ⟨⟨found, j⟩, inside, same⟩
    cases same
    obtain ⟨listed, leaves⟩ := List.mem_filter.mp inside
    exact ⟨List.mk_mem_zipIdx_iff_getElem?.mp listed, of_decide_eq_true leaves⟩
  · rintro ⟨found, leaves⟩
    have listed := List.mk_mem_zipIdx_iff_getElem?.mpr found
    exact ⟨(edge, i), List.mem_filter.mpr ⟨listed, decide_eq_true leaves⟩, rfl⟩

omit [Arithmetic] in
theorem distinct_outgoing (node : String) : ((t.outgoing node).map Prod.fst).Nodup := by
  unfold Topology.outgoing
  rw [List.map_map]
  have numbers : (t.edges.zipIdx.map Prod.snd).Nodup := by
    rw [List.zipIdx_map_snd]
    exact List.nodup_range'
  exact numbers.sublist (List.filter_sublist.map Prod.snd)

/-- Over edges that the condition of a variant has not crossed, the variant is sent as without a
memory. -/
theorem crossNew_of_fresh {edges : List (Nat × Edge)} (distinct : (edges.map Prod.fst).Nodup)
    (fresh : ∀ entry ∈ edges, (entry.1, v.key) ∉ memory) : crossNew t limits v edges memory s =
      (crossAll t limits v (edges.map Prod.snd) s).map
        fun s' => (memory ++ edges.map fun entry => (entry.1, v.key), s') := by
  induction edges generalizing memory s with
  | nil => simp [crossNew, crossAll, Except.map]
  | cons entry rest ih =>
      obtain ⟨i, edge⟩ := entry
      obtain ⟨here, later⟩ := List.forall_mem_cons.mp fresh
      obtain ⟨other, others⟩ := List.nodup_cons.mp distinct
      have crossing : crossAll t limits v (((i, edge) :: rest).map Prod.snd) s =
          cross t limits v edge s >>= crossAll t limits v (rest.map Prod.snd) := rfl
      rw [crossNew, if_neg here, crossing]
      cases cross t limits v edge s with
      | error f => rfl
      | ok next =>
          have unknown : ∀ entry ∈ rest, (entry.1, v.key) ∉ memory ++ [(i, v.key)] := by
            intro entry member known
            rcases List.mem_append.mp known with before | own
            · exact later entry member before
            · have same : entry.1 = i := by simpa using own
              exact other (List.mem_map.mpr ⟨entry, member, same⟩)
          have line : memory ++ [(i, v.key)] ++ rest.map (fun entry => (entry.1, v.key)) =
              memory ++ ((i, edge) :: rest).map fun entry => (entry.1, v.key) := by
            simp
          exact (ih others unknown).trans (line ▸ rfl)

/-- A memory that knows nothing but what variants that were sent on have crossed. -/
def Remembers (t : Topology) (memory : Memory) (s : State) : Prop :=
  ∀ i key, (i, key) ∈ memory →
    ∃ u ∈ s.settled, u.key = key ∧ ∃ edge, (i, edge) ∈ t.outgoing u.node

omit [Arithmetic] in
/-- The memory knows no edge that the first waiting variant crosses. A variant that was sent over
it stands at the same node, so its condition is another one. -/
theorem Remembers.fresh {rest : List Variant} (remembers : Remembers t memory s)
    (apart : Apart s.variants) (waits : s.waiting = v :: rest) :
    ∀ entry ∈ t.outgoing v.node, (entry.1, v.key) ∉ memory := by
  rintro ⟨i, edge⟩ leaves known
  obtain ⟨u, sent, key, other, crossed⟩ := remembers i v.key known
  obtain ⟨found, home⟩ := mem_outgoing.mp leaves
  obtain ⟨found', home'⟩ := mem_outgoing.mp crossed
  rw [found] at found'
  cases found'
  have across := (List.pairwise_append.mp apart).2.2 u sent v
  exact across (waits ▸ List.mem_cons_self) (home'.symm.trans home) key

omit [Arithmetic] in
theorem Remembers.next (remembers : Remembers t memory s)
    (settled : s'.settled = s.settled ++ [v]) : Remembers t
      (memory ++ (t.outgoing v.node).map fun entry => (entry.1, v.key)) s' := by
  intro i key member
  rw [settled]
  rcases List.mem_append.mp member with before | new
  · obtain ⟨u, sent, crossed⟩ := remembers i key before
    exact ⟨u, List.mem_append_left [v] sent, crossed⟩
  · obtain ⟨⟨j, edge⟩, leaves, same⟩ := List.mem_map.mp new
    cases same
    exact ⟨v, by simp, rfl, edge, leaves⟩

/-- A run with a memory of crossed edges is the run without. -/
theorem settleNew_eq_settle (apart : Apart s.variants) (remembers : Remembers t memory s) :
    settleNew t limits memory s = settle t limits s := by
  induction s using settle.induct t limits generalizing memory with
  | case1 s rests => rw [settle_of_rest rests, settleNew_of_rest rests]
  | case2 s v rest waits f failed =>
      have unknown := remembers.fresh apart waits
      rw [settle_of_failed waits failed, settleNew_of_waiting waits,
        crossNew_of_fresh (distinct_outgoing v.node) unknown]
      unfold edgesFrom at failed
      rw [failed]
      rfl
  | case3 s v rest waits next crossed ih =>
      have unknown := remembers.fresh apart waits
      have queues := crossAll_queues crossed
      have line : ({ s with settled := s.settled ++ [v], waiting := rest } : State).variants =
          s.variants := by
        simp [State.variants, waits]
      have same := ih (queues.apart (line ▸ apart)) (remembers.next queues.settled)
      rw [settle_of_sent waits crossed, settleNew_of_waiting waits,
        crossNew_of_fresh (distinct_outgoing v.node) unknown]
      unfold edgesFrom at crossed
      rw [crossed]
      exact same

/-- From the origins on, nothing is gained by a memory of crossed edges. -/
theorem settleNew_start (origins : List Variant) :
    settleNew t limits [] (start origins) = settle t limits (start origins) :=
  settleNew_eq_settle ((start_queues origins).apart List.Pairwise.nil) nofun

end

/-! ### The table at rest -/

section

variable [Arithmetic]

/-- Everything that a variant brings over an edge is known where it arrives. The chains of the edge
can be evaluated, and for whatever accepted path of the sender and accepted path of the receiver is
taken, the node there keeps a variant under the condition they come to, unless that is false. -/
def Delivered (t : Topology) (paths : Int) (s : State) (v : Variant) (edge : Edge) : Prop :=
  ∃ exported, evaluateChain ⟨v.condition.conjuncts, paths, t.policies edge.source.node⟩
      (t.exportChain edge.source) v.record = .ok exported ∧
    ∀ left ∈ exported, left.disposition = .accept →
      ∃ imported, evaluateChain ⟨left.condition, paths, t.policies edge.target.node⟩
          (t.importChain edge.target) left.record = .ok imported ∧
        ∀ entered ∈ imported, entered.disposition = .accept →
          (Expr.all entered.condition).simplify.isFalse = false →
          ∃ kept ∈ s.variants, kept.node = edge.target.node ∧
            kept.key = Variant.conditionKey (Expr.all entered.condition).simplify

/-- An accepted path of the sender and then an accepted path of the receiver lead from a variant to
another one, the condition of which is not false. -/
def Brings (t : Topology) (paths : Int) (v : Variant) (edge : Edge) (w : Variant) : Prop :=
  ∃ exported, evaluateChain ⟨v.condition.conjuncts, paths, t.policies edge.source.node⟩
      (t.exportChain edge.source) v.record = .ok exported ∧
    ∃ left ∈ exported, left.disposition = .accept ∧
    ∃ imported, evaluateChain ⟨left.condition, paths, t.policies edge.target.node⟩
        (t.importChain edge.target) left.record = .ok imported ∧
      ∃ entered ∈ imported, entered.disposition = .accept ∧
        (Expr.all entered.condition).simplify.isFalse = false ∧ w.node = edge.target.node ∧
        w.condition = (Expr.all entered.condition).simplify ∧ w.record = entered.record

/-- A table of variants that is closed under what its variants send, and justified: of every
variant it is known where it came from, which is the start or a variant before it. -/
structure Explored (t : Topology) (limits : Limits) (origins : List Variant) (s : State) :
    Prop where
  apart : Apart s.variants
  satisfiable : ∀ v ∈ s.variants, v.condition.isFalse = false
  closed : ∀ v ∈ s.variants, ∀ edge ∈ edgesFrom t v.node, Delivered t limits.paths s v edge
  justified : ∀ before w after, s.variants = before ++ w :: after →
    (w ∈ origins ∧ w.condition = .bool true) ∨
      ∃ v ∈ before, ∃ edge ∈ edgesFrom t v.node, Brings t limits.paths v edge w

variable {t : Topology} {limits : Limits} {s : State} {v w : Variant} {origins : List Variant}

theorem Sends.brings (sends : Sends t limits v w) :
    ∃ edge ∈ edgesFrom t v.node, Brings t limits.paths v edge w := by
  obtain ⟨edge, leaves, cs, crossed, arrived⟩ := sends
  exact ⟨edge, leaves, arrival_ok crossed arrived⟩

theorem Brings.satisfiable {paths : Int} {edge : Edge} (brings : Brings t paths v edge w) :
    w.condition.isFalse = false := by
  obtain ⟨_, -, _, -, -, _, -, _, -, -, satisfiable, -, condition, -⟩ := brings
  rw [condition]
  exact satisfiable

theorem Sent.delivered {edge : Edge} (sent : Sent t limits s v edge) :
    Delivered t limits.paths s v edge := by
  obtain ⟨cs, crossed, arrived⟩ := sent
  obtain ⟨exported, passed, -⟩ := Outcome.bind_ok.mp crossed
  have evaluated := pass_ok.mp passed
  refine ⟨exported, evaluated, fun left among accepted => ?_⟩
  obtain ⟨imported, entering, brings⟩ := mem_crossings crossed evaluated among accepted
  refine ⟨imported, entering, fun entered inside admitted satisfiable => ?_⟩
  obtain ⟨w, arrival, node, condition, -⟩ := brings entered inside admitted satisfiable
  obtain ⟨kept, member, there, key⟩ := arrived w arrival
  refine ⟨kept, member, there.trans node, key.trans ?_⟩
  rw [Variant.key, condition]

omit [Arithmetic] in
/-- Variants start under the condition true. -/
theorem condition_of_origins {q : Query} (starts : q.origins t = .ok origins) :
    ∀ v ∈ origins, v.condition = .bool true := by
  obtain ⟨_, -, starts⟩ := Outcome.bind_ok.mp starts
  obtain ⟨target, -, starts⟩ := Outcome.bind_ok.mp starts
  obtain ⟨originated, -, starts⟩ := Outcome.bind_ok.mp starts
  obtain ⟨announced, -, same⟩ := Outcome.bind_ok.mp starts
  cases same
  intro v member
  obtain ⟨n, -, starts⟩ := List.mem_filterMap.mp member
  unfold Query.origin? at starts
  split at starts
  · cases starts
    rfl
  · split at starts
    · cases starts
      rfl
    · cases starts

/-- The table that propagation rests in is closed and justified. -/
theorem explored {q : Query} (ran : t.Propagates limits q origins s) :
    Explored t limits origins s := by
  obtain ⟨runs, -⟩ := settle_runs ran.rests
  have justified : ∀ before w after, s.variants = before ++ w :: after →
      (w ∈ origins ∧ w.condition = .bool true) ∨
        ∃ v ∈ before, ∃ edge ∈ edgesFrom t v.node, Brings t limits.paths v edge w := by
    intro before w after line
    rcases runs.ordered before w after line with first | ⟨v, earlier, sends⟩
    · exact .inl ⟨first, condition_of_origins ran.starts w first⟩
    · exact .inr ⟨v, earlier, sends.brings⟩
  refine ⟨runs.apart, ?_, ?_, justified⟩
  · intro w member
    obtain ⟨before, after, line⟩ := List.append_of_mem member
    rcases justified before w after line with ⟨-, condition⟩ | ⟨v, -, edge, -, brings⟩
    · rw [condition]
      rfl
    · exact brings.satisfiable
  · exact fun v kept edge leaves => (settle_sent ran.rests kept leaves).delivered

end

end Propagation

/-- The work list of a query that is answered ends in a closed and justified table, whether or not
crossed edges are remembered. The reported number of iterations is the number of edges that its
variants leave by, and within the bound unless no edge is crossed. -/
theorem worklist_closed_and_justified [Arithmetic] {t : Topology} {limits : Limits} {q : Query}
    {a : Answer} (asked : t.ask limits q = .ok a) :
    ∃ origins s, q.origins t = .ok origins ∧
      Propagation.settle t limits (Propagation.start origins) = .ok s ∧
      Propagation.settleNew t limits [] (Propagation.start origins) = .ok s ∧
      a = Propagation.answer t q s ∧ Propagation.Explored t limits origins s ∧
      a.iterations =
        (s.variants.map fun v => (Propagation.edgesFrom t v.node).length).sum ∧
      ((a.iterations : Int) ≤ limits.iterations ∨ a.iterations = 0) := by
  obtain ⟨origins, s, ran, rfl⟩ := Topology.ask_ok.mp asked
  obtain ⟨runs, rests⟩ := Propagation.settle_runs ran.rests
  have remembered := (Propagation.settleNew_start origins).trans ran.rests
  have variants : s.variants = s.settled := by
    rw [Propagation.State.variants, rests, List.append_nil]
  refine ⟨origins, s, ran.starts, ran.rests, remembered, rfl, Propagation.explored ran, ?_,
    runs.bounded.symm⟩
  rw [variants]
  exact runs.counted

open Propagation

/-! ### Two nodes that send each other what they have -/

/-- A node that owns a network and a node that owns none, and what they may send each other. -/
def loop (edges : List Edge) : Topology :=
  ⟨[⟨"a", none, ["10.0.0.0/8"], [("e", .empty)], [], false⟩,
    ⟨"b", none, [], [("e", .empty)], [], false⟩], edges⟩

namespace Loop

def forth : Edge := ⟨⟨"a", "e"⟩, ⟨"b", "e"⟩⟩

def back : Edge := ⟨⟨"b", "e"⟩, ⟨"a", "e"⟩⟩

def query : Query := ⟨"10.0.0.0/8", none, none, none, []⟩

theorem starts (edges : List Edge) : ∃ o, query.origins (loop edges) = .ok [o] ∧ o.node = "a" ∧
    o.condition = .bool true :=
  ⟨_, by with_unfolding_all rfl, rfl, rfl⟩

variable [Arithmetic]

/-- Nodes without policies send on what they have. -/
theorem sends {v : Variant} (condition : v.condition = .bool true) {edge : Edge}
    (known : edge = forth ∨ edge = back) : ∃ w, crossings (loop [forth, back]) 1024 v edge =
      .ok [.arrival w] ∧ w.node = edge.target.node ∧ w.condition = .bool true := by
  have own : v.condition.conjuncts = [] := by rw [condition]; rfl
  rcases known with rfl | rfl
  · exact ⟨_, by unfold crossings; rw [own]; with_unfolding_all rfl, by rfl, by rfl⟩
  · exact ⟨_, by unfold crossings; rw [own]; with_unfolding_all rfl, by rfl, by rfl⟩

omit [Arithmetic] in
theorem key_eq {v w : Variant} (left : v.condition = .bool true) (right : w.condition = .bool true) :
    v.key = w.key := by
  rw [Variant.key, Variant.key, left, right]

/-- What `a` owns reaches `b` and comes back to `a`, where it is known. -/
theorem rests {o : Variant} (home : o.node = "a") (first : o.condition = .bool true) :
    ∃ w, w.node = "b" ∧ w.condition = .bool true ∧
      settle (loop [forth, back]) .default (start [o]) = .ok ⟨[o, w], [], [], 2⟩ := by
  obtain ⟨w, gone, there, second⟩ := sends first (.inl rfl)
  obtain ⟨u, returned, again, third⟩ := sends second (.inr rfl)
  refine ⟨w, there, second, ?_⟩
  have arrived : (⟨[o], [], [], 1⟩ : State).add w = ⟨[o], [w], [], 1⟩ := by
    apply State.add_new
    intro v member
    obtain rfl := List.mem_singleton.mp member
    rw [home, there]
    exact fun same => absurd same (by decide)
  have known : (⟨[o, w], [], [], 2⟩ : State).add u = ⟨[o, w], [], [], 2⟩ :=
    State.add_known ⟨o, List.mem_cons_self, home.trans again.symm, key_eq first third⟩
  have sent : crossAll (loop [forth, back]) .default o (edgesFrom (loop [forth, back]) o.node)
      ⟨[o], [], [], 0⟩ = .ok ⟨[o], [w], [], 1⟩ := by
    have edges : edgesFrom (loop [forth, back]) "a" = [forth] := rfl
    have within : ((0 : Nat) : Int) + 1 ≤ Limits.default.iterations := by decide
    rw [home, edges, crossAll, cross_of_crossings within gone]
    exact congrArg Except.ok arrived
  have resent : crossAll (loop [forth, back]) .default w (edgesFrom (loop [forth, back]) w.node)
      ⟨[o, w], [], [], 1⟩ = .ok ⟨[o, w], [], [], 2⟩ := by
    have edges : edgesFrom (loop [forth, back]) "b" = [back] := rfl
    have here : w.node = "b" := there
    have within : ((1 : Nat) : Int) + 1 ≤ Limits.default.iterations := by decide
    rw [here, edges, crossAll, cross_of_crossings within returned]
    exact congrArg Except.ok known
  have waits : (start [o]).waiting = [o] := rfl
  rw [settle_of_sent waits sent, settle_of_sent rfl resent, settle_of_rest rfl]

theorem answered : ∃ a, (loop [forth, back]).ask .default query = .ok a := by
  obtain ⟨o, origins, home, first⟩ := starts [forth, back]
  obtain ⟨w, -, -, rests⟩ := rests home first
  exact ⟨_, Outcome.bind_ok.mpr ⟨_, origins, Outcome.bind_ok.mpr ⟨_, rests, rfl⟩⟩⟩

/-- Where no edge is crossed, no bound is met. -/
theorem answered_alone (limits : Limits) :
    ∃ a, (loop []).ask limits query = .ok a ∧ a.iterations = 0 := by
  obtain ⟨o, origins, home, -⟩ := starts []
  have sent : crossAll (loop []) limits o (edgesFrom (loop []) o.node) ⟨[o], [], [], 0⟩ =
      .ok ⟨[o], [], [], 0⟩ := rfl
  have rests : settle (loop []) limits (start [o]) = .ok ⟨[o], [], [], 0⟩ := by
    have waits : (start [o]).waiting = [o] := rfl
    rw [settle_of_sent waits sent, settle_of_rest rfl]
  exact ⟨_, Outcome.bind_ok.mpr ⟨_, origins, Outcome.bind_ok.mpr ⟨_, rests, rfl⟩⟩, rfl⟩

end Loop

theorem loop_worklist_closed :
    ∃ a, @Topology.ask .binary64 (loop [Loop.forth, Loop.back]) .default Loop.query = .ok a ∧
      ∃ origins s, Loop.query.origins (loop [Loop.forth, Loop.back]) = .ok origins ∧
        @settle .binary64 (loop [Loop.forth, Loop.back]) .default (start origins) = .ok s ∧
        @settleNew .binary64 (loop [Loop.forth, Loop.back]) .default [] (start origins) = .ok s ∧
        a = answer (loop [Loop.forth, Loop.back]) Loop.query s ∧
        @Explored .binary64 (loop [Loop.forth, Loop.back]) .default origins s ∧
        a.iterations =
          (s.variants.map fun v => (edgesFrom (loop [Loop.forth, Loop.back]) v.node).length).sum ∧
        ((a.iterations : Int) ≤ Limits.default.iterations ∨ a.iterations = 0) := by
  obtain ⟨a, asked⟩ := @Loop.answered .binary64
  exact ⟨a, asked, @worklist_closed_and_justified .binary64 _ _ _ _ asked⟩

/-- A negative bound is not met by the answer of a topology without edges. -/
theorem iterations_not_literally_bounded :
    ¬∀ (t : Topology) (limits : Limits) (q : Query) (a : Answer),
      @Topology.ask .binary64 t limits q = .ok a → (a.iterations : Int) ≤ limits.iterations := by
  intro bounded
  obtain ⟨a, asked, none⟩ := @Loop.answered_alone .binary64 ⟨-1, Execution.defaultLimit⟩
  have within := bounded _ _ _ _ asked
  rw [none] at within
  exact absurd within (by decide)

end RoutePolicy
