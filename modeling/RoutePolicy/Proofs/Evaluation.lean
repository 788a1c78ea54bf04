import RoutePolicy.Proofs.Residual

/-!
Evaluation over a record of residuals and over a record that has the values of these residuals at a
route: the first result is a residual, the second one the literal of its value at the route.
-/

set_option autoImplicit false

namespace RoutePolicy

/-- The steps of a computation that succeeds. -/
theorem Outcome.bind_ok {α β : Type} {first : Outcome α} {next : α → Outcome β} {b : β} :
    (first >>= next) = .ok b ↔ ∃ a, first = .ok a ∧ next a = .ok b := by
  cases first <;> simp [bind, Except.bind]

theorem Outcome.bind_error {α β : Type} {first : Outcome α} {next : α → Outcome β} {f : Failure} :
    (first >>= next) = .error f ↔ first = .error f ∨ ∃ a, first = .ok a ∧ next a = .error f := by
  cases first <;> simp [bind, Except.bind]

theorem Outcome.map_ok {α β : Type} {first : Outcome α} {f : α → β} {b : β} :
    first.map f = .ok b ↔ ∃ a, first = .ok a ∧ f a = b := by
  cases first <;> simp [Except.map]

theorem Outcome.inContext_ok {α : Type} {context : Context} {r : Outcome α} {a : α} :
    Outcome.inContext context r = .ok a ↔ r = .ok a := by
  cases r <;> simp [Outcome.inContext, Except.mapError]

theorem forall₂_right {α β : Type} {R : α → β → Prop} {P : α → Prop} {Q : β → Prop} {as : List α}
    {bs : List β} (related : List.Forall₂ R as bs) (all : ∀ a ∈ as, P a)
    (step : ∀ a b, P a → R a b → Q b) : ∀ b ∈ bs, Q b := by
  induction related with
  | nil => simp
  | @cons a b _ _ first _ ih =>
      rw [List.forall_mem_cons] at all ⊢
      exact ⟨step a b all.1 first, ih all.2⟩

theorem forall_of_forall₂ {α β : Type} {R : α → β → Prop} {Q : β → Prop} {as : List α}
    {bs : List β} (related : List.Forall₂ R as bs) (step : ∀ a b, R a b → Q b) : ∀ b ∈ bs, Q b :=
  forall₂_right related (P := fun _ => True) (fun _ _ => trivial) fun a b _ => step a b

/-- Sums of local preferences without rounding. -/
@[reducible] def Arithmetic.exact : Arithmetic := ⟨id⟩

/-- Calls that are answered by conditions on the incoming route. -/
def Calls.AnswerResiduals (calls : Calls) : Prop :=
  ∀ policy r x, r.Residual → calls policy r = .ok x → x.ResidualOf .boolean

/-- Concrete calls that are answered by the values of the conditions that symbolic ones get. -/
def Calls.Agree (route : Route) (calls concrete : Calls) : Prop :=
  ∀ policy r c x, r.Residual → r.ComesTo route c → calls policy r = .ok x →
    ∃ y, concrete policy c = .ok y ∧ y.Denotes (x.valueAt route)

namespace Expr

/-- A node that reaches a literal when its operands do: no empty union and no malformed network. -/
structure Foldable (e : Expr) : Prop where
  written : e.isWritten = true
  filled : ∀ cls es, e = union cls es → es ≠ []

/-- A node whose operands are evaluated first. -/
def isOperator : Expr → Bool
  | junction _ _ _ | union _ _ | not _ _ | prepend _ _ _ | compare _ _ _ _ | hasCommunity _ _ _
  | inRanges _ _ _ _ => true
  | _ => false

theorem isResolved_of_isOperator {e : Expr} (operator : e.isOperator = true) :
    e.isResolved = true := by
  cases e <;> first | rfl | cases operator

theorem isWritten_of_isOperator {e : Expr} (operator : e.isOperator = true) :
    e.isWritten = true := by
  cases e <;> first | rfl | cases operator

theorem combine_ok {e x : Expr} : e.combine = .ok x ↔ e.fitted = true ∧ e.simplifyNode = x := by
  unfold combine fitted
  cases e.operandType? with
  | none => simp
  | some expected =>
      have fits : e.children.all (·.type.fits expected) = true ↔
          e.children.find? (!·.type.fits expected) = none := by
        simp
      dsimp only
      rw [fits]
      split
      · rename_i operand found
        simp [found]
      · rename_i nothing
        simp [nothing]

theorem residualOf_int (value : Int) : (Expr.int value).ResidualOf .integer :=
  residualOf_lit rfl

theorem residualOf_offset (delta : Int) : (Expr.offset delta).ResidualOf .integer := by
  unfold offset
  split
  · exact residualOf_ref .localPreference
  · split
    · exact ⟨each_leaf ⟨rfl, rfl, rfl⟩ rfl, rfl⟩
    · exact ⟨each_leaf ⟨rfl, rfl, rfl⟩ rfl, rfl⟩

/-- The operands of an operator are evaluated to residuals, over which the operator is one. -/
theorem each_of_operands {e : Expr} {xs : List Expr} (operator : e.isOperator = true)
    (fits : (e.withChildren xs).fitted = true) (lengths : xs.length = e.children.length)
    (operands : ∀ x ∈ xs, x.Each Residual) : (e.withChildren xs).Each Residual := by
  have resolved : (e.withChildren xs).isResolved = true := by
    rw [isResolved_withChildren, isResolved_of_isOperator operator]
  have written : (e.withChildren xs).isWritten = true := by
    rw [isWritten_withChildren, isWritten_of_isOperator operator]
  rw [each_iff, children_withChildren lengths]
  exact ⟨⟨resolved, fits, written⟩, operands⟩

/-! ### Folding of literals -/

/-- A literal of a type. -/
def LiteralOf (expected : ValueType) (e : Expr) : Prop := ∃ cls l, e = lit cls l ∧ l.type = expected

theorem LiteralOf.of_type {e : Expr} {expected : ValueType} (literal : e.isLiteral = true)
    (typed : e.type = expected) : e.LiteralOf expected := by
  cases e with
  | lit cls l => exact ⟨cls, l, rfl, typed⟩
  | _ => cases literal

theorem LiteralOf.bool? {e : Expr} (literal : e.LiteralOf .boolean) :
    ∃ value, e.bool? = some value := by
  obtain ⟨cls, l, rfl, typed⟩ := literal
  cases l <;> cases typed
  exact ⟨_, rfl⟩

theorem LiteralOf.communities? {e : Expr} (literal : e.LiteralOf .communities) :
    ∃ members, e.communities? = some members := by
  obtain ⟨cls, l, rfl, typed⟩ := literal
  cases l <;> cases typed
  exact ⟨_, rfl⟩

theorem flatMap_eq_self {α : Type} {f : α → List α} {xs : List α} (single : ∀ x ∈ xs, f x = [x]) :
    xs.flatMap f = xs := by
  induction xs with
  | nil => rfl
  | cons x rest ih =>
      obtain ⟨here, later⟩ := List.forall_mem_cons.mp single
      rw [List.flatMap_cons, here, ih later, List.singleton_append]

theorem junctionParts_literal {e : Expr} {expected : ValueType} (op : Junction)
    (literal : e.LiteralOf expected) : junctionParts op e = [e] := by
  obtain ⟨cls, l, rfl, _⟩ := literal
  rfl

theorem unionParts_literal {e : Expr} {expected : ValueType} (literal : e.LiteralOf expected) :
    unionParts e = [e] := by
  obtain ⟨cls, l, rfl, _⟩ := literal
  rfl

/-- A junction of constants is one. -/
theorem isLiteral_simplifyJunction (op : Junction) {operands : List Expr}
    (literals : ∀ e ∈ operands, e.LiteralOf .boolean) :
    (simplifyJunction op operands).isLiteral = true := by
  have parts : operands.flatMap (junctionParts op) = operands := by
    apply flatMap_eq_self
    intro e member
    exact junctionParts_literal op (literals e member)
  have kept : operands.filter (·.bool?.isNone) = [] := by
    rw [List.filter_eq_nil_iff]
    intro e member
    obtain ⟨value, constant⟩ := (literals e member).bool?
    simp [constant]
  unfold simplifyJunction
  simp only [parts, kept]
  split <;> rfl

/-- A union of literal sets is one, unless it is empty. -/
theorem isLiteral_simplifyUnion {operands : List Expr} (filled : operands ≠ [])
    (literals : ∀ e ∈ operands, e.LiteralOf .communities) :
    (simplifyUnion operands).isLiteral = true := by
  have parts : operands.flatMap unionParts = operands := by
    apply flatMap_eq_self
    intro e member
    exact unionParts_literal (literals e member)
  have rest : operands.filter (·.communities?.isNone) = [] := by
    rw [List.filter_eq_nil_iff]
    intro e member
    obtain ⟨members, constant⟩ := (literals e member).communities?
    simp [constant]
  have sets : (operands.filterMap communities?).isEmpty = false := by
    obtain ⟨e, member⟩ := List.exists_mem_of_ne_nil _ filled
    obtain ⟨members, constant⟩ := (literals e member).communities?
    rw [List.isEmpty_eq_false_iff]
    exact List.ne_nil_of_mem (List.mem_filterMap.mpr ⟨e, member, constant⟩)
  simp only [simplifyUnion_eq, mergedParts, parts, rest, sets, distinct, Bool.false_eq_true,
    if_false, List.take_nil, List.drop_nil, List.nil_append]
  rfl

/-- An operator over literals reaches one. -/
theorem isLiteral_simplifyNode {e : Expr} (operator : e.isOperator = true) (foldable : Foldable e)
    (each : e.Each Residual) (literals : ∀ c ∈ e.children, c.isLiteral = true) :
    e.simplifyNode.isLiteral = true := by
  have operands : ∀ {expected c}, e.operandType? = some expected → c ∈ e.children →
      c.LiteralOf expected := by
    intro expected c takes member
    have typed := (residual_stable.eachOf_child each takes member).2
    exact .of_type (literals c member) typed
  cases e with
  | junction cls op es => exact isLiteral_simplifyJunction op fun c member => operands rfl member
  | union cls es =>
      exact isLiteral_simplifyUnion (foldable.filled cls es rfl) fun c member => operands rfl member
  | not cls operand =>
      obtain ⟨_, l, rfl, typed⟩ := operands rfl (List.mem_singleton_self operand)
      cases l <;> cases typed
      rfl
  | compare cls comparator left right =>
      obtain ⟨_, l, rfl, typed⟩ := operands (c := left) rfl (by simp [children])
      cases l <;> cases typed
      obtain ⟨_, l, rfl, typed⟩ := operands (c := right) rfl (by simp [children])
      cases l <;> cases typed
      rfl
  | hasCommunity cls subject community =>
      obtain ⟨_, l, rfl, typed⟩ := operands rfl (List.mem_singleton_self subject)
      cases l <;> cases typed
      rfl
  | inRanges cls subject ranges setCls =>
      have written := (each.child (List.mem_singleton_self subject)).root.written
      obtain ⟨_, l, rfl, typed⟩ := operands rfl (List.mem_singleton_self subject)
      cases l <;> cases typed
      obtain ⟨n, parsed⟩ := Option.isSome_iff_exists.mp written
      simp only [simplifyNode, simplifyInRanges, parsed]
      rfl
  | prepend cls asns operand =>
      obtain ⟨_, l, rfl, typed⟩ := operands rfl (List.mem_singleton_self operand)
      cases l <;> cases typed
      simp only [simplifyNode, simplifyPrepend]
      split <;> rfl
  | lit _ _ | attr _ _ | call _ _ | adjust _ _ _ | namedSet _ _ | unsupported _ _
  | inList _ _ _ _ => cases operator

/-- A literal has its value at every route, whatever names mean. -/
theorem denotes_value {names : Names} {route : Route} {e : Expr} (literal : e.isLiteral = true) :
    e.Denotes (e.value names route) := by
  cases e with
  | lit cls l => exact ⟨cls, l, rfl, rfl⟩
  | _ => cases literal

theorem denotes_of_isLiteral {route : Route} {e : Expr} (literal : e.isLiteral = true) :
    e.Denotes (e.valueAt route) :=
  denotes_value literal

theorem valueAt_offset {route : Route} (delta : Int) :
    (Expr.offset delta).valueAt route = .int (route.localPreference + delta) := by
  unfold offset
  split
  · rename_i zero
    simp [valueAt, ref, value, Route.literal, Literal.value, zero]
  · split
    · rfl
    · simp [valueAt, value, Shift.delta]

theorem isOperator_withChildren (e : Expr) (es : List Expr) :
    (e.withChildren es).isOperator = e.isOperator := by
  unfold withChildren
  split <;> rfl

theorem Foldable.withChildren {e : Expr} (foldable : Foldable e) {es : List Expr}
    (lengths : es.length = e.children.length) : Foldable (e.withChildren es) := by
  refine ⟨(isWritten_withChildren e es).trans foldable.written, ?_⟩
  intro cls parts same
  have own : e.children.length = parts.length := by
    rw [← lengths, ← children_withChildren lengths, same]
    rfl
  cases e with
  | union _ operands =>
      have filled := foldable.filled _ operands rfl
      rintro rfl
      exact filled (List.length_eq_zero_iff.mp own)
  | compare _ _ _ _ =>
      obtain ⟨_, _, rfl⟩ := List.length_eq_two.mp lengths
      cases same
  | not _ _ | prepend _ _ _ | hasCommunity _ _ _ | inRanges _ _ _ _ | inList _ _ _ _ =>
      obtain ⟨_, rfl⟩ := List.length_eq_one_iff.mp lengths
      cases same
  | _ => cases same

variable [Arithmetic]

theorem evaluateAll_ok {calls : Calls} {r : Record} {es xs : List Expr} :
    evaluateAll calls r es = .ok xs ↔
      List.Forall₂ (fun e x => e.evaluate calls r = .ok x) es xs := by
  induction es generalizing xs with
  | nil => simp [evaluateAll, eq_comm]
  | cons e rest ih =>
      simp only [evaluateAll, Outcome.bind_ok, List.forall₂_cons_left_iff, Except.ok.injEq]
      constructor
      · rintro ⟨x, value, others, later, rfl⟩
        exact ⟨x, others, value, ih.mp later, rfl⟩
      · rintro ⟨x, others, value, later, rfl⟩
        exact ⟨x, value, others, ih.mpr later, rfl⟩

/-- An operator is applied to the values of its operands. -/
theorem evaluate_isOperator {calls : Calls} {r : Record} {e : Expr} (operator : e.isOperator = true) :
    e.evaluate calls r =
      evaluateAll calls r e.children >>= fun operands => combine (e.withChildren operands) := by
  cases e with
  | junction _ _ _ | union _ _ => rfl
  | compare _ _ _ _ | not _ _ | prepend _ _ _ | hasCommunity _ _ _ | inRanges _ _ _ _ =>
      simp only [evaluate, evaluateAll, children, bind_assoc]
      rfl
  | lit _ _ | attr _ _ | call _ _ | adjust _ _ _ | namedSet _ _ | unsupported _ _
  | inList _ _ _ _ => cases operator

theorem evaluate_operator {calls : Calls} {r : Record} {e x : Expr}
    (operator : e.isOperator = true) :
    e.evaluate calls r = .ok x ↔
      ∃ xs, List.Forall₂ (fun c y => c.evaluate calls r = .ok y) e.children xs ∧
        (e.withChildren xs).fitted = true ∧ (e.withChildren xs).simplifyNode = x := by
  simp only [evaluate_isOperator operator, Outcome.bind_ok, evaluateAll_ok, combine_ok]

/-! ### Residuals -/

theorem residualOf_moved {current x : Expr} {delta : Int} (moved : current.moved delta = .ok x) :
    x.ResidualOf .integer := by
  unfold Expr.moved at moved
  split at moved
  · cases moved
    exact residualOf_int _
  · cases moved
    exact residualOf_offset _
  · cases moved
    exact residualOf_offset _
  · cases moved

/-- Evaluation over residuals gives a residual of the expression's type. -/
theorem evaluate_residual {calls : Calls} (answers : calls.AnswerResiduals) {r : Record}
    (record : r.Residual) {e x : Expr} (written : e.Each (·.isWritten = true))
    (value : e.evaluate calls r = .ok x) : x.ResidualOf e.type := by
  induction e using childrenInduction generalizing x with
  | step e ih =>
    cases e with
    | junction _ _ _ | union _ _ | compare _ _ _ _ | not _ _ | prepend _ _ _ | hasCommunity _ _ _
    | inRanges _ _ _ _ =>
        obtain ⟨xs, operands, fits, rfl⟩ := (evaluate_operator rfl).mp value
        have parts : ∀ x ∈ xs, x.Each Residual := by
          refine forall₂_right operands
            (P := fun c => ∀ {y}, c.evaluate calls r = .ok y → y.ResidualOf c.type) ?_ ?_
          · intro c member y known
            exact ih c member (written.child member) known
          · intro c y known value
            exact (known value).1
        have each := each_of_operands rfl fits operands.length_eq.symm parts
        have simplified := residual_stable.eachOf_simplifyNode (residual_stable.ready each)
        rwa [type_withChildren] at simplified
    | lit cls literal =>
        cases value
        exact residualOf_lit written.root
    | attr cls name => exact record.get? (Record.lookup_ok.mp value)
    | call cls policy => exact answers policy r x record value
    | adjust cls shift amount =>
        obtain ⟨current, _, moved⟩ := Outcome.bind_ok.mp value
        exact residualOf_moved moved
    | inList _ _ _ _ | namedSet _ _ | unsupported _ _ => cases value

/-! ### Agreement -/

/-- Shifts of the incoming local preference are shifts of its value, when sums are exact. -/
theorem moved_agrees (exact : ∀ i : Int, Arithmetic.round i = i) {route : Route}
    {current x literal : Expr} {delta : Int} (moved : current.moved delta = .ok x)
    (denotes : literal.Denotes (current.valueAt route)) :
    ∃ y, literal.moved delta = .ok y ∧ y.Denotes (x.valueAt route) := by
  obtain ⟨cls, l, rfl, same⟩ := denotes
  unfold Expr.moved at moved
  split at moved
  · cases moved
    cases l <;> cases same
    exact ⟨_, rfl, none, _, rfl, rfl⟩
  · rename_i shift amount
    cases moved
    cases l <;> cases same
    refine ⟨_, rfl, none, _, rfl, ?_⟩
    rw [valueAt_offset]
    simp only [Literal.value, exact, Int.add_assoc]
  · cases moved
    cases l <;> cases same
    refine ⟨_, rfl, none, _, rfl, ?_⟩
    rw [valueAt_offset]
    simp only [Literal.value, exact]
  · cases moved

/-- The literals that operands have over a concrete record are residuals of the same types and
values as the results over residuals. -/
theorem operands_agree {route : Route} {calls concrete : Calls} {r c : Record}
    {parts xs : List Expr}
    (evaluated : List.Forall₂ (fun part x => part.evaluate calls r = .ok x) parts xs)
    (agree : ∀ part ∈ parts, ∀ x, part.evaluate calls r = .ok x → x.ResidualOf part.type ∧
      ∃ y, part.evaluate concrete c = .ok y ∧ y.Denotes (x.valueAt route)) :
    ∃ ys, List.Forall₂ (fun part y => part.evaluate concrete c = .ok y) parts ys ∧
      ys.map type = xs.map type ∧ ys.map (valueAt route) = xs.map (valueAt route) ∧
      (∀ y ∈ ys, y.isLiteral = true) ∧ ∀ y ∈ ys, y.Each Residual := by
  induction evaluated with
  | nil => exact ⟨[], .nil, rfl, rfl, by simp, by simp⟩
  | @cons part x parts xs first _ ih =>
      obtain ⟨here, later⟩ := List.forall_mem_cons.mp agree
      obtain ⟨residual, y, value, denotes⟩ := here x first
      obtain ⟨ys, values, types, valuesAt, literals, residuals⟩ := ih later
      have known := denotes.residual residual
      refine ⟨y :: ys, .cons value values, ?_, ?_, ?_, ?_⟩
      · rw [List.map_cons, List.map_cons, types, known.2, residual.2]
      · rw [List.map_cons, List.map_cons, valuesAt, denotes.valueAt]
      · exact List.forall_mem_cons.mpr ⟨denotes.isLiteral, literals⟩
      · exact List.forall_mem_cons.mpr ⟨known.1, residuals⟩

omit [Arithmetic] in
/-- An operator over literals that have the types and values of other operands reaches the literal
of the value that it has over these. -/
theorem operator_of_literals {route : Route} {e : Expr} {xs ys : List Expr}
    (operator : e.isOperator = true) (foldable : Foldable e)
    (lengths : xs.length = e.children.length) (fits : (e.withChildren xs).fitted = true)
    (operands : ∀ x ∈ xs, x.Each Residual) (types : ys.map type = xs.map type)
    (values : ys.map (valueAt route) = xs.map (valueAt route))
    (literals : ∀ y ∈ ys, y.isLiteral = true) (residuals : ∀ y ∈ ys, y.Each Residual) :
    (e.withChildren ys).fitted = true ∧
      (e.withChildren ys).simplifyNode.Denotes ((e.withChildren xs).simplifyNode.valueAt route) := by
  have ysFit : ys.length = xs.length := by simpa using congrArg List.length types
  have symbolic := each_of_operands operator fits lengths operands
  have known : (e.withChildren ys).Each Residual := by
    have rebuilt := residual_typed.each_withChildren symbolic.root
      (by rwa [children_withChildren lengths]) residuals
    rwa [withChildren_withChildren lengths ysFit] at rebuilt
  have literal : (e.withChildren ys).simplifyNode.isLiteral = true :=
    isLiteral_simplifyNode ((isOperator_withChildren e ys).trans operator)
      (foldable.withChildren (ysFit.trans lengths)) known
      (by rwa [children_withChildren (ysFit.trans lengths)])
  have same : (e.withChildren ys).simplifyNode.valueAt route =
      (e.withChildren xs).simplifyNode.valueAt route := by
    have overYs : (e.withChildren ys).simplifyNode.valueAt route =
        (e.withChildren ys).valueAt route :=
      value_simplifyNode (known.mono fun _ => Residual.proper)
    have overXs : (e.withChildren xs).simplifyNode.valueAt route =
        (e.withChildren xs).valueAt route :=
      value_simplifyNode (symbolic.mono fun _ => Residual.proper)
    have between : ((e.withChildren xs).withChildren ys).valueAt route =
        (e.withChildren xs).valueAt route :=
      value_withChildren (by rwa [children_withChildren lengths])
    rw [withChildren_withChildren lengths ysFit] at between
    exact overYs.trans (between.trans overXs.symm)
  exact ⟨known.root.fits, same ▸ denotes_of_isLiteral literal⟩

/-- An operator agrees if its operands do. -/
theorem operator_agrees {route : Route} {calls concrete : Calls} {r c : Record} {e x : Expr}
    (operator : e.isOperator = true) (foldable : Foldable e)
    (agree : ∀ part ∈ e.children, ∀ z, part.evaluate calls r = .ok z → z.ResidualOf part.type ∧
      ∃ y, part.evaluate concrete c = .ok y ∧ y.Denotes (z.valueAt route))
    (value : e.evaluate calls r = .ok x) :
    ∃ y, e.evaluate concrete c = .ok y ∧ y.Denotes (x.valueAt route) := by
  obtain ⟨xs, evaluated, fits, rfl⟩ := (evaluate_operator operator).mp value
  obtain ⟨ys, computed, types, values, literals, residuals⟩ := operands_agree evaluated agree
  have operands : ∀ x ∈ xs, x.Each Residual := by
    refine forall₂_right evaluated agree ?_
    intro part z known result
    exact (known z result).1.1
  obtain ⟨fit, denotes⟩ := operator_of_literals operator foldable evaluated.length_eq.symm fits
    operands types values literals residuals
  exact ⟨_, (evaluate_operator operator).mpr ⟨ys, computed, fit, rfl⟩, denotes⟩

/-- Evaluation over a concrete record gives the literal of the value that the residual has. -/
theorem evaluate_agrees (exact : ∀ i : Int, Arithmetic.round i = i) {route : Route}
    {calls concrete : Calls} (answers : calls.AnswerResiduals)
    (agree : Calls.Agree route calls concrete) {r c : Record} (record : r.Residual)
    (comes : r.ComesTo route c) {e x : Expr} (foldable : e.Each Foldable)
    (value : e.evaluate calls r = .ok x) :
    ∃ y, e.evaluate concrete c = .ok y ∧ y.Denotes (x.valueAt route) := by
  induction e using childrenInduction generalizing x with
  | step e ih =>
    cases e with
    | junction _ _ _ | union _ _ | compare _ _ _ _ | not _ _ | prepend _ _ _ | hasCommunity _ _ _
    | inRanges _ _ _ _ =>
        apply operator_agrees rfl foldable.root _ value
        intro part member z known
        have below := foldable.child member
        constructor
        · exact evaluate_residual answers record (below.mono fun _ => Foldable.written) known
        · exact ih part member below known
    | lit cls literal =>
        cases value
        exact ⟨_, rfl, cls, literal, rfl, rfl⟩
    | attr cls name =>
        obtain ⟨y, found, denotes⟩ := comes.get? (Record.lookup_ok.mp value)
        exact ⟨y, Record.lookup_ok.mpr found, denotes⟩
    | call cls policy => exact agree policy r c x record comes value
    | adjust cls shift amount =>
        obtain ⟨current, known, moved⟩ := Outcome.bind_ok.mp value
        obtain ⟨y, found, denotes⟩ := comes.get? (Record.lookup_ok.mp known)
        obtain ⟨z, shifted, same⟩ := moved_agrees exact moved denotes
        exact ⟨z, Outcome.bind_ok.mpr ⟨y, Record.lookup_ok.mpr found, shifted⟩, same⟩
    | inList _ _ _ _ | namedSet _ _ | unsupported _ _ => cases value

end Expr

end RoutePolicy
