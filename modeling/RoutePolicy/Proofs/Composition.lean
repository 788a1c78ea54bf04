import RoutePolicy.Proofs.GivenRoutes
import RoutePolicy.Proofs.Inlining
import RoutePolicy.Proofs.SymbolicExecution

/-!
Evaluation in two steps. What a record leaves open of an expression is decided by a record of all
attributes, with the value that the expression has over the first record after its slots have been
decided. A slot that unites a lone literal set is an exception.
-/

set_option autoImplicit false

namespace RoutePolicy

/-! ### Two steps -/

theorem Calls.none_answers : Calls.none.AnswerResiduals := nofun

theorem Calls.none_agrees (route : Route) : Calls.Agree route Calls.none Calls.none := nofun

namespace Record

variable [Arithmetic]

def evaluateSlots (full : Record) :
    List (Attribute × Expr) → Outcome (List (Attribute × Expr))
  | [] => .ok []
  | (name, slot) :: rest => do
    let value ← slot.evaluate Calls.none full
    let values ← evaluateSlots full rest
    .ok ((name, value) :: values)

/-- The record with every slot replaced by its value over another one. -/
def evaluatedOver (r full : Record) : Outcome Record := do
  let slots ← evaluateSlots full r.slots
  .ok ⟨slots⟩

/-- Shifts of the local preference one after another. -/
def shifted (r : Record) : List (Shift × Int) → Outcome Record
  | [] => .ok r
  | (shift, amount) :: rest => do
    let value ← (Expr.adjust none shift amount).evaluate Calls.none r
    let r ← r.assign .localPreference value
    r.shifted rest

end Record

namespace Expr

/-- A node that is no union, or unites at least two operands. -/
def isRoomy : Expr → Bool
  | union _ operands => 2 ≤ operands.length
  | _ => true

theorem Crowded.of_roomy {e : Expr} (written : e.isWritten = true) (roomy : e.isRoomy = true) :
    Crowded e := by
  refine ⟨written, ?_⟩
  rintro cls es rfl
  exact of_decide_eq_true roomy

theorem crowded_leaf {e : Expr} (written : e.isWritten = true) (roomy : e.isRoomy = true)
    (leaf : e.children = []) : e.Each Crowded :=
  each_leaf (.of_roomy written roomy) leaf

theorem crowded_offset (delta : Int) : (offset delta).Each Crowded := by
  unfold offset
  split
  · exact crowded_leaf rfl rfl rfl
  · split
    · exact crowded_leaf rfl rfl rfl
    · exact crowded_leaf rfl rfl rfl

/-- Evaluation over crowded slots leaves crowded expressions. -/
theorem evaluate_crowded [Arithmetic] {r : Record} (slots : ∀ slot ∈ r.slots, slot.2.Each Crowded)
    {e x : Expr} (foldable : e.Each Foldable) (value : e.evaluate Calls.none r = .ok x) :
    x.Each Crowded := by
  induction e using childrenInduction generalizing x with
  | step e ih =>
    cases e with
    | junction _ _ _ | union _ _ | compare _ _ _ _ | not _ _ | prepend _ _ _ | hasCommunity _ _ _
    | inRanges _ _ _ _ =>
        obtain ⟨xs, operands, _, rfl⟩ := (evaluate_operator rfl).mp value
        have parts : ∀ y ∈ xs, y.Each Crowded := by
          refine forall₂_right operands
            (P := fun c => ∀ {y}, c.evaluate Calls.none r = .ok y → y.Each Crowded) ?_ ?_
          · intro c member y known
            exact ih c member (foldable.child member) known
          · intro c y known value
            exact known value
        have ready := foldable.root.ready operands.length_eq.symm parts
        exact (crowded_stable.eachOf_simplifyNode ready).1
    | lit cls literal =>
        cases value
        exact crowded_leaf foldable.root.written rfl rfl
    | attr cls name => exact slots (name, x) (Record.mem_of_get? (Record.lookup_ok.mp value))
    | adjust cls shift amount =>
        obtain ⟨current, _, moved⟩ := Outcome.bind_ok.mp value
        unfold Expr.moved at moved
        split at moved <;> cases moved
        · exact crowded_leaf rfl rfl rfl
        · exact crowded_offset _
        · exact crowded_offset _
    | call _ _ | inList _ _ _ _ | namedSet _ _ | unsupported _ _ => cases value

/-- What is left of an expression is decided by a record that knows a route. -/
theorem evaluate_residual_known [Arithmetic] (exact : ∀ i : Int, Arithmetic.round i = i)
    {route : Route} {full : Record} (knows : full.Knows route) {expected : ValueType} {x : Expr}
    (residual : x.ResidualOf expected) (crowded : x.Each Crowded) :
    ∃ y, x.evaluate Calls.none full = .ok y ∧ y.Denotes (x.valueAt route) := by
  apply evaluate_known exact knows.tells
  intro node member
  have known := residual.1 node member
  exact ⟨(crowded node member).foldable, known.fits, .of_resolved knows known.resolved⟩

/-- Shifts of the incoming local preference add up to one. -/
theorem moved_offset [Arithmetic] (exact : ∀ i : Int, Arithmetic.round i = i) (first delta : Int) :
    (offset first).moved delta = .ok (offset (first + delta)) := by
  by_cases none : first = 0
  · simp [offset, none, moved, ref]
  · by_cases up : 0 < first
    · simp [offset, none, up, moved, Shift.delta, exact]
    · simp [offset, none, up, moved, Shift.delta, exact]

end Expr

namespace Record

variable [Arithmetic] {route : Route} {r c full : Record}

/-- Slots that reach literals come to their values at the route that is known. -/
theorem evaluatedOver_known (exact : ∀ i : Int, Arithmetic.round i = i)
    (knows : full.Knows route) (residual : r.Residual)
    (crowded : ∀ slot ∈ r.slots, slot.2.Each Expr.Crowded) :
    ∃ known, r.evaluatedOver full = .ok known ∧ r.ComesTo route known := by
  obtain ⟨slots⟩ := r
  suffices evaluated : ∃ values, evaluateSlots full slots = .ok values ∧
      ComesTo route ⟨slots⟩ ⟨values⟩ by
    obtain ⟨values, done, comes⟩ := evaluated
    exact ⟨⟨values⟩, Outcome.bind_ok.mpr ⟨values, done, rfl⟩, comes⟩
  unfold Residual at residual
  dsimp only at residual crowded
  induction slots with
  | nil => exact ⟨[], rfl, .nil⟩
  | cons slot rest ih =>
      obtain ⟨here, others⟩ := List.forall_mem_cons.mp residual
      obtain ⟨full, further⟩ := List.forall_mem_cons.mp crowded
      obtain ⟨y, value, denotes⟩ := Expr.evaluate_residual_known exact knows here full
      obtain ⟨values, done, comes⟩ := ih others further
      refine ⟨(slot.1, y) :: values, ?_, .cons ⟨rfl, denotes⟩ comes⟩
      exact Outcome.bind_ok.mpr ⟨y, value, Outcome.bind_ok.mpr ⟨values, done, rfl⟩⟩

/-- Shifts of a symbolic local preference succeed and leave one shift. -/
theorem shifted_offset (exact : ∀ i : Int, Arithmetic.round i = i) (shifts : List (Shift × Int))
    (first : Int) (found : r.get? .localPreference = some (.offset first)) :
    ∃ s total, r.shifted shifts = .ok s ∧ s.get? .localPreference = some (.offset total) := by
  induction shifts generalizing r first with
  | nil => exact ⟨r, first, rfl, found⟩
  | cons shift rest ih =>
      have value : (Expr.adjust none shift.1 shift.2).evaluate Calls.none r =
          .ok (.offset (first + shift.1.delta shift.2)) :=
        Outcome.bind_ok.mpr ⟨_, lookup_ok.mpr found, Expr.moved_offset exact _ _⟩
      obtain ⟨next, assigned⟩ := assign_of_get? found (.offset (first + shift.1.delta shift.2))
      obtain ⟨s, total, later, known⟩ := ih _ (get?_assign assigned)
      refine ⟨s, total, ?_, known⟩
      exact Outcome.bind_ok.mpr ⟨_, value, Outcome.bind_ok.mpr ⟨next, assigned, later⟩⟩

/-- Shifts over a record of values come to the shifts of the symbolic record. -/
theorem shifted_agrees (exact : ∀ i : Int, Arithmetic.round i = i) (shifts : List (Shift × Int))
    {s : Record} (residual : r.Residual) (comes : r.ComesTo route c)
    (done : r.shifted shifts = .ok s) :
    ∃ k, c.shifted shifts = .ok k ∧ s.ComesTo route k := by
  induction shifts generalizing r c with
  | nil =>
      cases done
      exact ⟨c, rfl, comes⟩
  | cons shift rest ih =>
      obtain ⟨x, value, done⟩ := Outcome.bind_ok.mp done
      obtain ⟨next, assigned, done⟩ := Outcome.bind_ok.mp done
      have foldable : (Expr.adjust none shift.1 shift.2).Each Expr.Foldable :=
        Expr.each_leaf (Expr.Filled.foldable trivial rfl) rfl
      have moved : x.ResidualOf Attribute.localPreference.type :=
        Expr.evaluate_residual Calls.none_answers residual
          (foldable.mono fun _ => Expr.Foldable.written) value
      obtain ⟨y, known, denotes⟩ := Expr.evaluate_agrees exact Calls.none_answers
        (Calls.none_agrees route) residual comes foldable value
      obtain ⟨d, also, follows⟩ := comes.assign assigned denotes
      obtain ⟨k, later, ends⟩ := ih (residual.assign moved assigned) follows done
      exact ⟨k, Outcome.bind_ok.mpr ⟨y, known, Outcome.bind_ok.mpr ⟨d, also, later⟩⟩, ends⟩

end Record

/-- Evaluation composes. What an expression leaves open over a record comes, over a record of all
attributes, to the value that the expression has over the first record with its slots evaluated; and
shifts of a symbolic local preference come to the same number as the shifts of the known one. -/
theorem evaluation_composes [Arithmetic] (exact : ∀ i : Int, Arithmetic.round i = i) {e x : Expr}
    {r full : Record} {values : List Given} {openSlots : Bool} (expr : e.ValidResidual e.type)
    (record : r.Valid)
    (roomy : ∀ slot ∈ r.slots, ∀ node ∈ slot.2.nodes, node.isRoomy = true)
    (given : Record.ofGiven values openSlots = .ok full)
    (complete : ∀ name, (Given.find? values name).isSome = true)
    (value : e.evaluate Calls.none r = .ok x) :
    ∃ known, r.evaluatedOver full = .ok known ∧
      (∃ y z v, x.evaluate Calls.none full = .ok y ∧ e.evaluate Calls.none known = .ok z ∧
        y.Denotes v ∧ z.Denotes v) ∧
      (r.get? .localPreference = some (.ref .localPreference) → ∀ shifts, ∃ s k shift y z i,
        r.shifted shifts = .ok s ∧ known.shifted shifts = .ok k ∧
        s.get? .localPreference = some shift ∧ shift.evaluate Calls.none full = .ok y ∧
        k.get? .localPreference = some z ∧ y.Denotes (.int i) ∧ z.Denotes (.int i)) := by
  obtain ⟨route, knows⟩ := Record.knows_of_given given complete
  have residual := record.residual
  have crowded : ∀ slot ∈ r.slots, slot.2.Each Expr.Crowded := by
    intro slot member node inside
    exact .of_roomy ((residual slot member).1 node inside).written (roomy slot member node inside)
  obtain ⟨known, done, comes⟩ := Record.evaluatedOver_known exact knows residual crowded
  obtain ⟨keep, j, read⟩ := expr.read
  have foldable := Encoding.readExpr_foldable read
  refine ⟨known, done, ?_, ?_⟩
  · have left := Expr.evaluate_residual Calls.none_answers residual
      (foldable.mono fun _ => Expr.Foldable.written) value
    have parts := Expr.evaluate_crowded crowded foldable value
    obtain ⟨y, later, denotes⟩ := Expr.evaluate_residual_known exact knows left parts
    obtain ⟨z, once, same⟩ := Expr.evaluate_agrees exact Calls.none_answers
      (Calls.none_agrees route) residual comes foldable value
    exact ⟨y, z, _, later, once, denotes, same⟩
  · intro symbolic shifts
    obtain ⟨s, total, ran, shift⟩ := Record.shifted_offset exact shifts 0 symbolic
    obtain ⟨k, also, follows⟩ := Record.shifted_agrees exact shifts residual comes ran
    obtain ⟨y, later, denotes⟩ := Expr.evaluate_residual_known exact knows
      (Expr.residualOf_offset total) (Expr.crowded_offset total)
    obtain ⟨z, found, same⟩ := follows.get? shift
    rw [Expr.valueAt_offset] at denotes same
    exact ⟨s, k, _, y, z, _, ran, also, shift, later, found, denotes, same⟩

namespace Sample

/-- Values for all attributes. -/
def values : List Given :=
  [.network "10.0.0.0/8", .nextHop "192.0.2.1", .communities ["65000:3"], .localPreference (.ofInt 100),
    .metric (.ofInt 7), .weight (.ofInt 0), .tag (.ofInt 1), .asPath []]

def full : Record :=
  ⟨[(.network, .lit none (.network "10.0.0.0/8")), (.nextHop, .lit none (.address "192.0.2.1")),
    (.communities, .lit none (.communities ["65000:3"])), (.localPreference, .int 100),
    (.metric, .int 7), (.weight, .int 0), (.tag, .int 1), (.asPath, .lit none (.asPath []))]⟩

theorem full_given : Record.ofGiven values false = .ok full := by with_unfolding_all rfl

theorem high_valid : high.ValidResidual .boolean :=
  ⟨⟨false, .obj [("class", .str "IntComparison"), ("comparator", .str "GT"), ("left", ref "metric"),
    ("right", .obj [("class", .str "LiteralLong"), ("value", .int 5)])], by with_unfolding_all rfl⟩,
    by decide, by decide, rfl⟩

/-- A record that unites a lone literal set. -/
def united : Record := ⟨[(.communities, .union none [.lit none (.communities ["65000:1"])])]⟩

def matching : Expr := .hasCommunity none (.ref .communities) "65000:2"

/-- The set that decides the match is dropped, and an empty union is left. -/
def undecided : Expr := .hasCommunity none (.union none []) "65000:2"

theorem united_valid : united.Valid := by
  intro slot member
  cases List.mem_singleton.mp member
  exact ⟨⟨false, .obj [("class", .str "CommunitySetUnion"), ("exprs", .arr [
    .obj [("class", .str "LiteralCommunitySet"), ("communitySet", .strs ["65000:1"])]])],
    by with_unfolding_all rfl⟩, by decide, by decide, rfl⟩

theorem matching_valid : matching.ValidResidual .boolean :=
  ⟨⟨false, .obj [("class", .str "MatchCommunity"), ("community", .str "65000:2"),
    ("communitySetExpr", ref "communities")], by with_unfolding_all rfl⟩, by decide, by decide, rfl⟩

end Sample

/-- A match over a known route, and two shifts of a symbolic local preference. -/
theorem sample_evaluation_composes :
    ∃ known, @Record.evaluatedOver .exact Sample.record Sample.full = .ok known ∧
      (∃ y z v, @Expr.evaluate .exact Calls.none Sample.full Sample.high = .ok y ∧
        @Expr.evaluate .exact Calls.none known Sample.high = .ok z ∧ y.Denotes v ∧ z.Denotes v) ∧
      ∃ s k shift y z i,
        @Record.shifted .exact Sample.record [(.increment, 5), (.decrement, 2)] = .ok s ∧
        @Record.shifted .exact known [(.increment, 5), (.decrement, 2)] = .ok k ∧
        s.get? .localPreference = some shift ∧
        @Expr.evaluate .exact Calls.none Sample.full shift = .ok y ∧
        k.get? .localPreference = some z ∧ y.Denotes (.int i) ∧ z.Denotes (.int i) := by
  obtain ⟨known, done, once, shifts⟩ := @evaluation_composes .exact (fun _ => rfl) Sample.high
    Sample.high Sample.record Sample.full Sample.values false Sample.high_valid Sample.record_valid
    (by decide) Sample.full_given (fun name => by cases name <;> rfl) (by rfl)
  exact ⟨known, done, once, shifts rfl _⟩

/-- Without room in its unions a record can leave a match open that all attributes together do not
decide any more. -/
theorem lone_set_does_not_compose :
    Sample.matching.ValidResidual .boolean ∧ Sample.united.Valid ∧
      Record.ofGiven Sample.values false = .ok Sample.full ∧
      (∀ name, (Given.find? Sample.values name).isSome = true) ∧
      Sample.matching.evaluate Calls.none Sample.united = .ok Sample.undecided ∧
      ∃ known, Sample.united.evaluatedOver Sample.full = .ok known ∧
        Sample.undecided.evaluate Calls.none Sample.full = .ok Sample.undecided ∧
        Sample.matching.evaluate Calls.none known = .ok (.bool false) := by
  refine ⟨Sample.matching_valid, Sample.united_valid, Sample.full_given, ?_, by rfl,
    ⟨[(.communities, .lit none (.communities ["65000:1"]))]⟩, by rfl, by rfl, by rfl⟩
  intro name
  cases name <;> rfl

end RoutePolicy
