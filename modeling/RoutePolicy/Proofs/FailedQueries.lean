import RoutePolicy.Proofs.NestedCalls
import RoutePolicy.Proofs.Reachability
import RoutePolicy.Proofs.Tables

/-!
How a query fails. It is refused as it stands, the bound on crossings is met, or the policies of a
chain cannot be evaluated over a route that has come to it.
-/

set_option autoImplicit false

namespace RoutePolicy

/-! ### Origins -/

theorem Given.fault_of_integer {name : Attribute} {value : Number} {cause : Cause}
    (fails : (Given.integer name value).FailsWith cause) : ∃ fault, cause = .query fault := by
  unfold Given.integer at fails
  split at fails
  · exact (Outcome.not_failsWith_ok fails).elim
  · exact ⟨_, (Outcome.failsWith_error.mp fails).symm⟩

theorem Given.fault_of_literal {given : Given} {cause : Cause}
    (fails : given.literal.FailsWith cause) : ∃ fault, cause = .query fault := by
  unfold Given.literal at fails
  split at fails
  case h_1 | h_2 | h_3 | h_8 =>
    split at fails
    all_goals first
      | exact (Outcome.not_failsWith_ok fails).elim
      | exact ⟨_, (Outcome.failsWith_error.mp fails).symm⟩
  all_goals exact Given.fault_of_integer fails

theorem Record.fault_of_givenSlots {values : List Given} {openSlots : Bool} {names : List Attribute}
    {cause : Cause} (fails : (givenSlots values openSlots names).FailsWith cause) :
    ∃ fault, cause = .query fault := by
  induction names with
  | nil => exact (Outcome.not_failsWith_ok fails).elim
  | cons name rest ih =>
      rw [givenSlots, Outcome.failsWith_bind] at fails
      rcases fails with fails | ⟨slot, -, fails⟩
      · unfold givenSlot at fails
        split at fails
        · rcases Outcome.failsWith_bind.mp fails with fails | ⟨_, -, fails⟩
          · exact Given.fault_of_literal fails
          · exact (Outcome.not_failsWith_ok fails).elim
        · exact (Outcome.not_failsWith_ok fails).elim
      · rcases Outcome.failsWith_bind.mp fails with fails | ⟨_, -, fails⟩
        · exact ih fails
        · exact (Outcome.not_failsWith_ok fails).elim

/-- A record of given values fails with a fault of the query. -/
theorem Record.fault_of_ofGiven {values : List Given} {openSlots : Bool} {cause : Cause}
    (fails : (Record.ofGiven values openSlots).FailsWith cause) :
    ∃ fault, cause = .query fault := by
  rcases Outcome.failsWith_bind.mp fails with fails | ⟨_, -, fails⟩
  · exact fault_of_givenSlots fails
  · exact (Outcome.not_failsWith_ok fails).elim

theorem Query.fault_of_origins {t : Topology} {q : Query} {cause : Cause}
    (fails : (q.origins t).FailsWith cause) : ∃ fault, cause = .query fault := by
  unfold Query.origins at fails
  rw [Outcome.failsWith_bind] at fails
  rcases fails with fails | ⟨_, -, fails⟩
  · unfold Query.checkSource at fails
    split at fails
    · exact (Outcome.not_failsWith_ok fails).elim
    · split at fails
      · exact (Outcome.not_failsWith_ok fails).elim
      · exact ⟨_, (Outcome.failsWith_error.mp fails).symm⟩
  rw [Outcome.failsWith_bind] at fails
  rcases fails with fails | ⟨target, -, fails⟩
  · unfold Query.network at fails
    split at fails
    · exact (Outcome.not_failsWith_ok fails).elim
    · exact ⟨_, (Outcome.failsWith_error.mp fails).symm⟩
  rw [Outcome.failsWith_bind] at fails
  rcases fails with fails | ⟨originated, -, fails⟩
  · exact Record.fault_of_ofGiven fails
  rw [Outcome.failsWith_bind] at fails
  rcases fails with fails | ⟨announced, -, fails⟩
  · exact Record.fault_of_ofGiven fails
  · exact (Outcome.not_failsWith_ok fails).elim

/-! ### Propagation -/

variable [Arithmetic]

/-- The evaluation of policies of a chain at an endpoint fails with a cause, over some route and
under some assumptions. -/
def Topology.ChainFails (t : Topology) (paths : Int) (cause : Cause) : Prop :=
  ∃ (e : Endpoint) (names : List String) (assumptions : List Expr) (r : Record),
    (evaluateChain ⟨assumptions, paths, t.policies e.node⟩ (t.chainOf e names) r).FailsWith cause

namespace Propagation

variable {t : Topology} {limits : Limits} {paths : Int} {v : Variant} {cause : Cause}

omit [Arithmetic] in
/-- The policies of a chain are those of the node, and they call policies of the node. -/
theorem mem_chainOf {e : Endpoint} {names : List String} {p : Policy}
    (member : p ∈ t.chainOf e names) :
    ∃ n ∈ t.nodes, t.policies e.node = n.policies ∧ p ∈ n.policies.values := by
  unfold Topology.chainOf at member
  split at member
  · rename_i n found
    obtain ⟨name, -, known⟩ := List.mem_filterMap.mp member
    refine ⟨n, Topology.mem_of_node? found, ?_, List.mem_map.mpr ⟨_, Table.mem_of_get? known, rfl⟩⟩
    rw [Topology.policies, found]
  · cases member

theorem leaveAll_failed {edge : Edge} {left : List Path}
    (fails : (leaveAll t paths v edge left).FailsWith cause) : t.ChainFails paths cause := by
  induction left with
  | nil => exact (Outcome.not_failsWith_ok fails).elim
  | cons path rest ih =>
      rw [leaveAll, Outcome.failsWith_bind] at fails
      rcases fails with fails | ⟨first, -, fails⟩
      · unfold leave at fails
        dsimp only at fails
        split at fails
        · exact (Outcome.not_failsWith_ok fails).elim
        · rcases Outcome.failsWith_bind.mp fails with fails | ⟨_, -, fails⟩
          · exact ⟨_, _, _, _, Outcome.failsWith_inContext.mp fails⟩
          · exact (Outcome.not_failsWith_ok fails).elim
      · rcases Outcome.failsWith_bind.mp fails with fails | ⟨_, -, fails⟩
        · exact ih fails
        · exact (Outcome.not_failsWith_ok fails).elim

/-- An edge is not crossed if a chain cannot be evaluated, and for no other reason. -/
theorem crossings_failed {edge : Edge} (fails : (crossings t paths v edge).FailsWith cause) :
    t.ChainFails paths cause := by
  rcases Outcome.failsWith_bind.mp fails with fails | ⟨left, -, fails⟩
  · exact ⟨_, _, _, _, Outcome.failsWith_inContext.mp fails⟩
  · exact leaveAll_failed fails

theorem crossAll_failed {edges : List Edge} {s : State}
    (fails : (crossAll t limits v edges s).FailsWith cause) :
    (∃ bound, cause = .cycleBound bound) ∨ t.ChainFails limits.paths cause := by
  induction edges generalizing s with
  | nil => exact (Outcome.not_failsWith_ok fails).elim
  | cons edge rest ih =>
      rw [crossAll, Outcome.failsWith_bind] at fails
      rcases fails with fails | ⟨next, -, fails⟩
      · unfold cross at fails
        split at fails
        · exact .inl ⟨_, (Outcome.failsWith_error.mp fails).symm⟩
        · rcases Outcome.failsWith_bind.mp fails with fails | ⟨_, -, fails⟩
          · exact .inr (crossings_failed fails)
          · exact (Outcome.not_failsWith_ok fails).elim
      · exact ih fails

/-- Propagation fails while it sends a waiting variant on, in a state that all steps before have
led to. -/
theorem settle_failed {I : State → Prop}
    (step : ∀ s v rest next, I s → s.waiting = v :: rest →
      crossAll t limits v (edgesFrom t v.node)
        { s with settled := s.settled ++ [v], waiting := rest } = .ok next → I next)
    {s : State} (holds : I s) {f : Failure} (failed : settle t limits s = .error f) :
    ∃ s v rest, I s ∧ s.waiting = v :: rest ∧ crossAll t limits v (edgesFrom t v.node)
      { s with settled := s.settled ++ [v], waiting := rest } = .error f := by
  induction s using settle.induct t limits with
  | case1 s waits =>
      rw [settle_of_rest waits] at failed
      cases failed
  | case2 s v rest waits g crossed =>
      rw [settle_of_failed waits crossed] at failed
      cases failed
      exact ⟨s, v, rest, holds, waits, crossed⟩
  | case3 s v rest waits next crossed ih =>
      rw [settle_of_sent waits crossed] at failed
      exact ih (step s v rest next holds waits crossed) failed

end Propagation

/-- A query that fails is refused, meets the bound on crossings, or comes to a chain that fails. -/
theorem Topology.ask_failed {t : Topology} {limits : Limits} {q : Query} {cause : Cause}
    (fails : (t.ask limits q).FailsWith cause) : (∃ fault, cause = .query fault) ∨
      (∃ bound, cause = .cycleBound bound) ∨ t.ChainFails limits.paths cause := by
  rcases Outcome.failsWith_bind.mp fails with fails | ⟨origins, -, fails⟩
  · exact .inl (Query.fault_of_origins fails)
  · rcases Outcome.failsWith_bind.mp fails with ⟨f, failed, same⟩ | ⟨_, -, fails⟩
    · obtain ⟨s, v, rest, -, -, stopped⟩ :=
        Propagation.settle_failed (fun _ _ _ _ _ _ _ => trivial) trivial failed
      exact .inr (Propagation.crossAll_failed ⟨f, stopped, same⟩)
    · exact (Outcome.not_failsWith_ok fails).elim

theorem Topology.ChainFails.fault {t : Topology} {paths : Int} {cause : Cause}
    (fails : t.ChainFails paths cause) : ∃ fault, cause = .evaluation fault := by
  obtain ⟨e, names, assumptions, r, fails⟩ := fails
  exact fault_of_evaluateChain fails

end RoutePolicy
