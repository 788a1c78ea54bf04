import RoutePolicy.Proofs.Composition
import RoutePolicy.Proofs.LiteralEvaluation
import RoutePolicy.Proofs.Outlines

/-!
The attributes that an expression reads. Its result depends on their slots alone, and where they are
all given it is a literal.
-/

set_option autoImplicit false

namespace RoutePolicy

/-- A literal in a record of given values has the type of its attribute. -/
theorem Record.get?_of_isConcrete {values : List Given} {openSlots : Bool} {r : Record}
    (given : ofGiven values openSlots = .ok r) {name : Attribute}
    (concrete : r.isConcrete name = true) :
    ∃ x, r.get? name = some x ∧ x.Definite ∧ x.type = name.type := by
  unfold isConcrete at concrete
  cases found : r.get? name with
  | none =>
      rw [found] at concrete
      cases concrete
  | some x =>
      rw [found] at concrete
      refine ⟨x, rfl, ?_⟩
      rcases mem_ofGiven given _ (mem_of_get? found) with ⟨l, own, residual⟩ | ⟨-, own⟩
      · have own : x = .lit none l := own
        exact own ▸ ⟨⟨rfl, residual.1.root.written⟩, residual.2⟩
      · have own : x = .ref name := own
        rw [own] at concrete
        cases concrete

namespace Expr

variable [Arithmetic] {calls : Calls} {r : Record} {e : Expr}

/-- A known integer can be moved. -/
theorem Definite.moved_ok (definite : e.Definite) (typed : e.type = .integer) (delta : Int) :
    ∃ y, e.moved delta = .ok y ∧ y.Definite ∧ y.type = .integer := by
  obtain ⟨cls, l, rfl, integer⟩ := LiteralOf.of_type definite.literal typed
  cases l <;> cases integer
  exact ⟨_, rfl, ⟨rfl, rfl⟩, rfl⟩

/-- An expression comes to a literal of its type when it reads literals of the types that attributes
have. -/
theorem evaluate_of_known (residual : e.Each Residual) (foldable : e.Each Foldable)
    (known : ∀ name ∈ e.attributes, ∃ x, r.get? name = some x ∧ x.Definite ∧ x.type = name.type) :
    ∃ y, e.evaluate calls r = .ok y ∧ y.Definite ∧ y.type = e.type := by
  induction e using childrenInduction with
  | step e ih =>
    by_cases operator : e.isOperator = true
    · obtain ⟨xs, computed, definite⟩ := exists_forall₂_of_mem fun part member =>
        ih part member (residual.child member) (foldable.child member) fun name reads =>
          known name (attributes_child member reads)
      have types : xs.map type = e.children.map type :=
        map_eq_iff_forall₂.mpr (definite.flip.imp fun _ _ own => own.2)
      have fits := (fitted_withChildren types).trans residual.root.fits
      exact ⟨_, (evaluate_operator operator).mpr ⟨xs, computed, fits, rfl⟩,
        simplifyNode_definite operator foldable.root computed.length_eq.symm
          (forall_of_forall₂ definite fun _ _ own => own.1) fits⟩
    · cases e with
      | lit cls l => exact ⟨_, rfl, ⟨rfl, foldable.root.written⟩, rfl⟩
      | attr cls name =>
          obtain ⟨x, found, own⟩ := known name (attributes_own rfl)
          exact ⟨x, Record.lookup_ok.mpr found, own⟩
      | adjust cls shift amount =>
          obtain ⟨x, found, definite, typed⟩ := known .localPreference (attributes_own rfl)
          obtain ⟨y, moved, own⟩ := definite.moved_ok typed (shift.delta amount)
          exact ⟨y, Outcome.bind_ok.mpr ⟨x, Record.lookup_ok.mpr found, moved⟩, own⟩
      | call _ _ | inList _ _ _ _ | namedSet _ _ | unsupported _ _ => cases residual.root.resolved
      | _ => exact absurd rfl operator

/-- Only the attributes that an expression reads matter. Where a record of given values has them all,
an expression of a document comes to a literal of its type; and over any two records that agree on
them an expression without calls has the same result or fails alike. -/
theorem known_attributes_decide (e : Expr) (calls others : Calls) :
    (∀ values openSlots r, e.ValidResidual e.type → Record.ofGiven values openSlots = .ok r →
      (∀ name ∈ e.attributes, r.isConcrete name = true) →
      ∃ y, e.evaluateConcrete calls r = .ok y ∧ y.LiteralOf e.type) ∧
    (e.calls = [] → ∀ r s : Record, (∀ name ∈ e.attributes, r.get? name = s.get? name) →
      e.evaluate calls r = e.evaluate others s) := by
  refine ⟨fun values openSlots r valid given concrete => ?_, fun free r s agree => ?_⟩
  · obtain ⟨keep, j, read⟩ := valid.read
    obtain ⟨y, value, definite, typed⟩ : ∃ y, e.evaluate calls r = .ok y ∧ y.Definite ∧
        y.type = e.type :=
      evaluate_of_known valid.residual.1 (Encoding.readExpr_foldable read) fun name reads =>
        Record.get?_of_isConcrete given (concrete name reads)
    refine ⟨y, Outcome.bind_ok.mpr ⟨y, value, ?_⟩, .of_type definite.literal typed⟩
    rw [definite.literal]
    rfl
  · refine evaluate_congr (fun name called => ?_) agree
    rw [free] at called
    cases called

end Expr

namespace Sample

/-- A shift reads the local preference, though it does not name it. -/
def raisedAbove : Expr := .compare none .gt (.adjust none .increment 10) (.ref .metric)

theorem raisedAbove_valid : raisedAbove.ValidResidual .boolean :=
  ⟨⟨false, .obj [("class", .str "IntComparison"), ("comparator", .str "GT"),
    ("left", .obj [("class", .str "IncrementLocalPreference"), ("addend", .int 10)]),
    ("right", ref "metric")], by with_unfolding_all rfl⟩, by decide, by decide, rfl⟩

/-- The local preference and the metric are given, the rest is left open. -/
def metered : Record :=
  ⟨[(.network, .ref .network), (.nextHop, .ref .nextHop), (.communities, .ref .communities),
    (.localPreference, .int 100), (.metric, .int 7), (.weight, .ref .weight), (.tag, .ref .tag),
    (.asPath, .ref .asPath)]⟩

theorem metered_given :
    Record.ofGiven [.metric (.ofInt 7), .localPreference (.ofInt 100)] true = .ok metered := by
  with_unfolding_all rfl

end Sample

open Sample in
theorem raised_above_decided :
    raisedAbove.ValidResidual .boolean ∧
      Record.ofGiven [.metric (.ofInt 7), .localPreference (.ofInt 100)] true = .ok metered ∧
      raisedAbove.attributes = [.localPreference, .metric] ∧
      (∃ y, @Expr.evaluateConcrete .binary64 Calls.none metered raisedAbove = .ok y ∧
        y.LiteralOf .boolean) ∧
      @Expr.evaluate .binary64 Calls.none full raisedAbove =
        @Expr.evaluate .binary64 Calls.none metered raisedAbove := by
  obtain ⟨decided, unread⟩ :=
    @Expr.known_attributes_decide .binary64 raisedAbove Calls.none Calls.none
  have reads : raisedAbove.attributes = [.localPreference, .metric] := by decide
  refine ⟨raisedAbove_valid, metered_given, reads, ?_, unread (by decide) full metered ?_⟩
  · exact decided _ true metered raisedAbove_valid metered_given (by decide)
  · rw [reads]
    exact List.forall_mem_cons.mpr ⟨rfl, List.forall_mem_singleton.mpr rfl⟩

end RoutePolicy
