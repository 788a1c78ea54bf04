import RoutePolicy.Proofs.LiteralRecords
import RoutePolicy.Proofs.SimplifiedPolicies

/-!
Evaluation over records without open slots. Where operands turn out to have the types that operators
need, an expression comes to a literal; the simplified expression comes to the same value, and so
does every expression that is equal to it up to spelling. The types are those of the values, not
those that attributes should have.
-/

set_option autoImplicit false

namespace RoutePolicy

namespace Expr

/-! ### Values -/

/-- The value of a result, if that is a literal. -/
def known : Outcome Expr → Value
  | .ok (lit _ l) => l.value
  | _ => .bool false

variable [Arithmetic]

mutual

/-- The value of an expression that has the results of evaluation for leaves. -/
def valueOver (calls : Calls) (c : Record) : Expr → Value
  | lit _ l => l.value
  | junction _ op operands => .bool (op.join ((valuesOver calls c operands).map Value.truth))
  | not _ operand => .bool (!(operand.valueOver calls c).truth)
  | compare _ comparator left right =>
    .bool (comparator.holds (left.valueOver calls c).number (right.valueOver calls c).number)
  | hasCommunity _ subject community => .bool (community ∈ (subject.valueOver calls c).members)
  | inRanges _ subject ranges _ => .bool ((subject.valueOver calls c).inRanges ranges)
  | union _ operands => .communities (Value.union (valuesOver calls c operands))
  | prepend _ asns operand => .asPath (asns ++ (operand.valueOver calls c).asns)
  | e => known (e.evaluate calls c)

def valuesOver (calls : Calls) (c : Record) : List Expr → List Value
  | [] => []
  | e :: rest => e.valueOver calls c :: valuesOver calls c rest

end

variable {calls others : Calls} {c d : Record} {e a b x y z : Expr} {expected : ValueType}

theorem valuesOver_eq (es : List Expr) : valuesOver calls c es = es.map (valueOver calls c) := by
  induction es with
  | nil => rfl
  | cons e rest ih => rw [valuesOver, ih, List.map_cons]

theorem compositional_valueOver (calls : Calls) (c : Record) :
    Compositional (valueOver calls c) where
  lit _ _ := by rw [valueOver]
  junction _ op operands := by
    rw [valueOver, valuesOver_eq, List.map_map]
    rfl
  not _ _ := by rw [valueOver]
  compare _ _ _ _ := by rw [valueOver]
  hasCommunity _ _ _ := by rw [valueOver]
  inRanges _ _ _ _ := by rw [valueOver]
  union _ operands := by rw [valueOver, valuesOver_eq]
  prepend _ _ _ := by rw [valueOver]
  inList _ _ _ _ _ _ _ _ := by simp only [valueOver, evaluate]
  leaf a b leaf equal := by
    unfold same at equal
    split at equal
    case h_1 | h_2 | h_11 | h_12 | h_13 =>
      simp only [Bool.and_eq_true, decide_eq_true_eq] at equal
      simp only [valueOver, evaluate, equal]
    case h_14 =>
      simp only [valueOver, evaluate]
      rfl
    case h_15 => cases equal
    all_goals cases leaf

/-! ### Results -/

omit [Arithmetic] in
theorem LiteralOf.definite (literal : x.LiteralOf .boolean) : x.Definite := by
  obtain ⟨cls, l, rfl, typed⟩ := literal
  cases l <;> cases typed
  exact ⟨rfl, rfl⟩

/-- Shifts of literals are literals of one value. -/
theorem SameLiteral.moved {delta : Int} (same : x.SameLiteral z) (moved : x.moved delta = .ok y) :
    ∃ w, z.moved delta = .ok w ∧ y.SameLiteral w := by
  obtain ⟨v, ⟨cls, l, rfl, value⟩, cls', l', rfl, value'⟩ := same
  subst value
  cases l with
  | int i =>
      cases l' <;> cases value'
      cases moved
      exact ⟨_, rfl, _, ⟨none, _, rfl, rfl⟩, none, _, rfl, rfl⟩
  | _ => cases moved

theorem Definite.moved {delta : Int} (definite : x.Definite) (moved : x.moved delta = .ok y) :
    y.Definite := by
  obtain ⟨w, _, v, ⟨cls, l, rfl, _⟩, _⟩ := definite.sameLiteral.moved moved
  exact ⟨rfl, (residualOf_moved moved).1.root.written⟩

omit [Arithmetic] in
theorem denotes_known (literal : y.isLiteral = true) : y.Denotes (known (.ok y)) := by
  cases y with
  | lit cls l => exact ⟨cls, l, rfl, rfl⟩
  | _ => cases literal

theorem denotes_valueOver (literal : y.isLiteral = true) : y.Denotes (valueOver calls c y) := by
  cases y with
  | lit cls l => exact ⟨cls, l, rfl, by rw [valueOver]⟩
  | _ => cases literal

theorem Denotes.valueOver {v : Value} (denotes : y.Denotes v) : valueOver calls c y = v := by
  obtain ⟨cls, l, rfl, same⟩ := denotes
  rw [Expr.valueOver, same]

theorem valueOver_type (operator : e.operandType? = some expected) :
    (valueOver calls c e).type = e.type := by
  cases e with
  | lit _ _ | attr _ _ | call _ _ | adjust _ _ _ | namedSet _ _ | unsupported _ _ => cases operator
  | _ =>
      simp only [valueOver]
      rfl

omit [Arithmetic] in
theorem exists_operandType (operator : e.isOperator = true) :
    ∃ expected, e.operandType? = some expected := by
  cases e <;> first | exact ⟨_, rfl⟩ | cases operator

omit [Arithmetic] in
/-- An operator over literals that suit it comes to a literal of its type. -/
theorem simplifyNode_definite (operator : e.isOperator = true) (foldable : Foldable e)
    {xs : List Expr} (lengths : xs.length = e.children.length)
    (definite : ∀ x ∈ xs, x.Definite) (fits : (e.withChildren xs).fitted = true) :
    (e.withChildren xs).simplifyNode.Definite ∧ (e.withChildren xs).simplifyNode.type = e.type := by
  have each := each_of_operands operator fits lengths fun x member => (definite x member).residual.1
  have literal : (e.withChildren xs).simplifyNode.isLiteral = true := by
    refine isLiteral_simplifyNode ((isOperator_withChildren e xs).trans operator)
      (foldable.withChildren lengths) each ?_
    rw [children_withChildren lengths]
    exact fun x member => (definite x member).literal
  have simplified := residual_stable.eachOf_simplifyNode (residual_stable.ready each)
  rw [type_withChildren] at simplified
  exact ⟨⟨literal, simplified.1.root.written⟩, simplified.2⟩

/-- An operator over literals comes to the literal of its value, if the literals suit it. -/
theorem operator_definite (operator : e.isOperator = true) (foldable : Foldable e) {xs : List Expr}
    (operands : List.Forall₂ (fun part x => x.Definite ∧ x.Denotes (valueOver calls c part))
      e.children xs)
    (fits : (e.withChildren xs).fitted = true) :
    (e.withChildren xs).simplifyNode.Definite ∧
      (e.withChildren xs).simplifyNode.Denotes (valueOver calls c e) := by
  have definite : ∀ x ∈ xs, x.Definite := forall_of_forall₂ operands fun _ _ own => own.1
  obtain ⟨result, typed⟩ :=
    simplifyNode_definite operator foldable operands.length_eq.symm definite fits
  refine ⟨result, ?_⟩
  have laws := compositional_valueOver calls c
  have denotes : (e.withChildren xs).simplifyNode.Denotes
      (valueOver calls c (e.withChildren xs).simplifyNode) := denotes_valueOver result.literal
  have kept : (valueOver calls c (e.withChildren xs).simplifyNode).type =
      (valueOver calls c (e.withChildren xs)).type := by
    obtain ⟨expected, takes⟩ := exists_operandType ((isOperator_withChildren e xs).trans operator)
    rw [valueOver_type takes, ← denotes.type, type_withChildren]
    exact typed
  have values : xs.map (valueOver calls c) = e.children.map (valueOver calls c) := by
    rw [map_eq_iff_forall₂]
    exact operands.flip.imp fun _ _ own => own.2.valueOver
  rwa [laws.simplifyNode kept, laws.withChildren values] at denotes

/-- The value of an expression that is no operator is its result. -/
theorem leaf_definite (leaf : e.isOperator = false) (value : e.evaluate calls c = .ok y)
    (definite : y.Definite) : y.Definite ∧ y.Denotes (valueOver calls c e) := by
  have result : valueOver calls c e = known (e.evaluate calls c) := by
    cases e with
    | lit _ _ => simp only [valueOver, evaluate, known]
    | attr _ _ | call _ _ | adjust _ _ _ | namedSet _ _ | unsupported _ _ | inList _ _ _ _ =>
        simp only [valueOver]
    | _ => cases leaf
  rw [result, value]
  exact ⟨definite, denotes_known definite.literal⟩

/-- What an expression comes to is the literal of its value. -/
theorem evaluate_definite (firm : calls.Echoed others) (definite : c.Definite)
    (foldable : e.Each Foldable) (value : e.evaluate calls c = .ok y) :
    y.Definite ∧ y.Denotes (valueOver calls c e) := by
  induction e using childrenInduction generalizing y with
  | step e ih =>
    cases e with
    | junction _ _ _ | union _ _ | compare _ _ _ _ | not _ _ | prepend _ _ _ | hasCommunity _ _ _
    | inRanges _ _ _ _ =>
        obtain ⟨xs, operands, fits, rfl⟩ := (evaluate_operator rfl).mp value
        refine operator_definite rfl foldable.root (forall₂_of_mem operands ?_) fits
        intro part member x _ known
        exact ih part member (foldable.child member) known
    | lit cls l =>
        cases value
        exact leaf_definite rfl rfl ⟨rfl, foldable.root.written⟩
    | attr cls name =>
        exact leaf_definite rfl value (definite _ (Record.mem_of_get? (Record.lookup_ok.mp value)))
    | call cls policy =>
        exact leaf_definite rfl value (firm policy c c y definite.twin value).1.definite
    | adjust cls shift amount =>
        obtain ⟨current, found, moved⟩ := Outcome.bind_ok.mp value
        have own := definite _ (Record.mem_of_get? (Record.lookup_ok.mp found))
        exact leaf_definite rfl value (own.moved moved)
    | inList _ _ _ _ | namedSet _ _ | unsupported _ _ => cases value

/-! ### Twins -/

omit [Arithmetic] in
theorem SameLiteral.types_eq {ys zs : List Expr} (same : List.Forall₂ SameLiteral ys zs) :
    zs.map type = ys.map type ∧ zs.map (valueAt Route.blank) = ys.map (valueAt Route.blank) := by
  induction same with
  | nil => exact ⟨rfl, rfl⟩
  | cons first _ ih =>
      obtain ⟨v, left, right⟩ := first
      simp only [List.map_cons, ih, left.type, right.type, left.valueAt, right.valueAt, and_self]

/-- Over twins an expression comes to one value, if calls do. -/
theorem evaluate_twin (firm : calls.Echoed others) (twin : c.Twin d) (foldable : e.Each Foldable)
    (value : e.evaluate calls c = .ok y) :
    ∃ z, e.evaluate others d = .ok z ∧ y.SameLiteral z := by
  induction e using childrenInduction generalizing y with
  | step e ih =>
    cases e with
    | junction _ _ _ | union _ _ | compare _ _ _ _ | not _ _ | prepend _ _ _ | hasCommunity _ _ _
    | inRanges _ _ _ _ =>
        have literal := (evaluate_definite firm twin.definite foldable value).1.literal
        obtain ⟨xs, operands, fits, rfl⟩ := (evaluate_operator rfl).mp value
        obtain ⟨zs, computed, same⟩ := exists_forall₂ operands fun part member x known =>
          ih part member (foldable.child member) known
        have definite : ∀ x ∈ xs, x.Definite := by
          refine forall₂_right operands (fun _ member => member) ?_
          intro part x member known
          exact (evaluate_definite firm twin.definite (foldable.child member) known).1
        have others : ∀ z ∈ zs, z.Definite :=
          forall₂_right same definite fun _ _ own same => same.definite own
        obtain ⟨types, values⟩ := SameLiteral.types_eq same
        obtain ⟨fit, denotes⟩ := operator_of_literals rfl foldable.root operands.length_eq.symm fits
          (fun x member => (definite x member).residual.1) types values
          (fun z member => (others z member).literal) fun z member => (others z member).residual.1
        exact ⟨_, (evaluate_operator rfl).mpr ⟨zs, computed, fit, rfl⟩, _,
          denotes_of_isLiteral literal, denotes⟩
    | lit cls l =>
        cases value
        exact ⟨_, rfl, l.value, ⟨cls, l, rfl, rfl⟩, cls, l, rfl, rfl⟩
    | attr cls name =>
        obtain ⟨z, found, same⟩ := twin.get? (Record.lookup_ok.mp value)
        exact ⟨z, Record.lookup_ok.mpr found, same⟩
    | call cls policy => exact (firm policy c d y twin value).2
    | adjust cls shift amount =>
        obtain ⟨current, found, moved⟩ := Outcome.bind_ok.mp value
        obtain ⟨z, also, same⟩ := twin.get? (Record.lookup_ok.mp found)
        obtain ⟨w, shifted, equal⟩ := same.moved moved
        exact ⟨w, Outcome.bind_ok.mpr ⟨z, Record.lookup_ok.mpr also, shifted⟩, equal⟩
    | inList _ _ _ _ | namedSet _ _ | unsupported _ _ => cases value

/-! ### Nodes that a record decides -/

/-- An expression the value of which has a type. -/
def Yields (calls : Calls) (c : Record) (expected : ValueType) (e : Expr) : Prop :=
  (valueOver calls c e).type = expected

/-- A node that can be evaluated over a record once its parts can: they come to values of the type
that it needs, or it is a leaf with a result. -/
structure Grounded (calls : Calls) (c : Record) (e : Expr) : Prop where
  suited : ∀ expected, e.operandType? = some expected →
    ∀ part ∈ e.children, part.Yields calls c expected
  answered : e.isOperator = true ∨ ∃ y, e.evaluate calls c = .ok y

/-- New nodes are grounded when the values of their operands have the right types. -/
theorem grounded_stable (calls : Calls) (c : Record) :
    Stable (fun e => (valueOver calls c e).type) (Yields calls c) False (Grounded calls c) where
  own _ := rfl
  operator _ _ := valueOver_type
  constant _ l := by rw [valueOver, l.value_type]
  part _ part expected node _ operator := node.suited expected operator part
  room _ _ _ impossible := impossible.elim
  boolean _ := ⟨nofun, .inr ⟨_, rfl⟩⟩
  set _ _ := ⟨nofun, .inr ⟨_, rfl⟩⟩
  path _ _ := ⟨nofun, .inr ⟨_, rfl⟩⟩
  negated _ suits := ⟨by rintro _ ⟨⟩; simpa [children] using suits, .inl rfl⟩
  joined _ _ _ suits := ⟨by rintro _ ⟨⟩; exact suits, .inl rfl⟩
  united _ _ suits := ⟨by rintro _ ⟨⟩; exact suits, .inl rfl⟩
  matched _ _ _ suits := ⟨by rintro _ ⟨⟩; simpa [children] using suits, .inl rfl⟩
  ranged _ _ _ suits := ⟨by rintro _ ⟨⟩; simpa [children] using suits, .inl rfl⟩
  prepended _ _ _ suits := ⟨by rintro _ ⟨⟩; simpa [children] using suits, .inl rfl⟩

/-- Operands have values of the type that suits their operator, if their results do. -/
theorem yields_of_fitted (takes : e.operandType? = some expected) {xs : List Expr}
    (operands : List.Forall₂ (fun part x => x.Definite ∧ x.Denotes (valueOver calls c part))
      e.children xs)
    (fits : (e.withChildren xs).fitted = true) :
    ∀ part ∈ e.children, part.Yields calls c expected := by
  have suits := suits_of_fitted ((operandType?_withChildren e xs).trans takes) fits
  rw [children_withChildren operands.length_eq.symm] at suits
  refine forall₂_right operands.flip suits ?_
  rintro x part own ⟨definite, denotes⟩
  exact denotes.type.symm.trans ((fits_iff definite.residual.1.root.proper.supported).mp own)

/-- What can be evaluated is grounded. -/
theorem grounded_of_evaluate (firm : calls.Echoed others) (definite : c.Definite)
    (foldable : e.Each Foldable) (value : e.evaluate calls c = .ok y) :
    e.Each (Grounded calls c) := by
  induction e using childrenInduction generalizing y with
  | step e ih =>
    cases e with
    | junction _ _ _ | union _ _ | compare _ _ _ _ | not _ _ | prepend _ _ _ | hasCommunity _ _ _
    | inRanges _ _ _ _ =>
        obtain ⟨xs, operands, fits, -⟩ := (evaluate_operator rfl).mp value
        have results := forall₂_of_mem operands fun part member x _ known =>
          evaluate_definite firm definite (foldable.child member) known
        refine each_iff.mpr ⟨⟨fun expected takes => ?_, .inl rfl⟩, fun part member => ?_⟩
        · exact yields_of_fitted takes results fits
        · obtain ⟨x, _, known⟩ := exists_of_forall₂ operands member
          exact ih part member (foldable.child member) known
    | lit _ _ | attr _ _ | call _ _ | adjust _ _ _ =>
        exact each_leaf ⟨nofun, .inr ⟨y, value⟩⟩ rfl
    | inList _ _ _ _ | namedSet _ _ | unsupported _ _ => cases value

/-- What is grounded can be evaluated. -/
theorem evaluate_of_grounded (firm : calls.Echoed others) (definite : c.Definite)
    (foldable : e.Each Foldable) (grounded : e.Each (Grounded calls c)) :
    ∃ y, e.evaluate calls c = .ok y := by
  induction e using childrenInduction with
  | step e ih =>
    rcases grounded.root.answered with operator | result
    · obtain ⟨expected, takes⟩ := exists_operandType operator
      have results : ∀ part ∈ e.children, ∃ x, part.evaluate calls c = .ok x ∧
          x.type = expected := by
        intro part member
        obtain ⟨x, known⟩ := ih part member (foldable.child member) (grounded.child member)
        have denotes := (evaluate_definite firm definite (foldable.child member) known).2
        exact ⟨x, known, denotes.type.trans (grounded.root.suited expected takes part member)⟩
      obtain ⟨xs, computed, types⟩ := exists_forall₂_of_mem results
      have typed : ∀ x ∈ xs, HasType expected x := forall_of_forall₂ types fun _ _ own => own
      have fits : (e.withChildren xs).fitted = true := by
        refine fitted_of_hasType ((operandType?_withChildren e xs).trans takes) ?_
        rw [children_withChildren computed.length_eq.symm]
        exact typed
      exact ⟨_, (evaluate_operator operator).mpr ⟨xs, computed, fits, rfl⟩⟩
    · exact result

theorem Grounded.withChildren (grounded : Grounded calls c e) {es : List Expr}
    (same : List.Forall₂ (fun part x => x.Yields calls c (valueOver calls c part).type)
      e.children es) : Grounded calls c (e.withChildren es) := by
  have lengths : es.length = e.children.length := same.length_eq.symm
  constructor
  · intro expected takes
    rw [operandType?_withChildren] at takes
    rw [children_withChildren lengths]
    exact forall₂_right same (grounded.suited expected takes) fun _ _ own equal => equal.trans own
  · rcases grounded.answered with operator | ⟨y, value⟩
    · exact .inl ((isOperator_withChildren e es).trans operator)
    · cases takes : e.operandType? with
      | none =>
          rw [withChildren_of_leaf takes]
          exact grounded.answered
      | some expected =>
          cases e with
          | inList _ _ _ _ => cases value
          | lit _ _ | attr _ _ | call _ _ | adjust _ _ _ | namedSet _ _ | unsupported _ _ =>
              cases takes
          | _ => exact .inl ((isOperator_withChildren _ es).trans rfl)

theorem Grounded.ready (root : Grounded calls c e) {es : List Expr}
    (related : List.Forall₂ (fun part x =>
      x.EachOf (Yields calls c) (Grounded calls c) (valueOver calls c part).type) e.children es) :
    (e.withChildren es).Each (Grounded calls c) := by
  refine each_iff.mpr ⟨root.withChildren (related.imp fun _ _ own => own.2), ?_⟩
  rw [children_withChildren related.length_eq.symm]
  exact forall_of_forall₂ related fun _ _ own => own.1

/-- What is grounded stays so, and its value has the type that it had. -/
theorem grounded_simplify (grounded : e.Each (Grounded calls c)) :
    e.simplify.EachOf (Yields calls c) (Grounded calls c) (valueOver calls c e).type :=
  (grounded_stable calls c).eachOf_simplify
    (fun _ _ root related => (grounded_stable calls c).ready (root.ready related)) grounded

/-- Simplification keeps the value of what is grounded. -/
theorem valueOver_simplify (grounded : e.Each (Grounded calls c)) :
    valueOver calls c e.simplify = valueOver calls c e := by
  have laws := compositional_valueOver calls c
  induction e using childrenInduction with
  | step e ih =>
    have related : List.Forall₂ (fun part x =>
        x.EachOf (Yields calls c) (Grounded calls c) (valueOver calls c part).type)
        e.children (e.children.map simplify) := by
      rw [List.forall₂_map_right_iff, List.forall₂_same]
      exact fun part member => grounded_simplify (grounded.child member)
    have values : (e.children.map simplify).map (valueOver calls c) =
        e.children.map (valueOver calls c) := by
      rw [List.map_map]
      exact List.map_congr_left fun part member => ih part member (grounded.child member)
    have node := (grounded_stable calls c).eachOf_simplifyNode
      ((grounded_stable calls c).ready (grounded.root.ready related))
    rw [simplify_eq, ← laws.withChildren values]
    unfold settle
    dsimp only
    split
    · rfl
    · exact laws.simplifyNode node.2

/-! ### Expressions that are equal up to spelling -/

theorem answered_of_same (equal : same a b = true)
    (answered : b.isOperator = true ∨ ∃ y, b.evaluate calls c = .ok y) :
    a.isOperator = true ∨ ∃ y, a.evaluate calls c = .ok y := by
  unfold same at equal
  split at equal
  case h_1 => exact .inr ⟨_, rfl⟩
  case h_2 | h_11 | h_12 | h_13 =>
    simp only [Bool.and_eq_true, decide_eq_true_eq] at equal
    simpa only [evaluate, isOperator, equal] using answered
  case h_8 | h_14 =>
    rcases answered with operator | ⟨y, value⟩
    · cases operator
    · cases value
  case h_15 => cases equal
  all_goals exact .inl rfl

theorem grounded_of_same (equal : same a b = true) (grounded : Grounded calls c b) :
    Grounded calls c a := by
  have shape := sameShape_of_same equal
  refine ⟨fun expected takes => ?_, answered_of_same equal grounded.answered⟩
  rw [shape.operandType] at takes
  refine forall₂_right shape.children.flip (grounded.suited expected takes) ?_
  intro part other suits same
  have values := (compositional_valueOver calls c).same same
  exact (congrArg Value.type values).trans suits

/-! ### Replaced expressions -/

/-- What replaces an expression comes to the same value over a twin. -/
theorem evaluate_replaced (firm : calls.Echoed calls) (twin : c.Twin d) (foldable : e.Each Foldable)
    (replaces : x.Replaces e) (value : e.evaluate calls c = .ok y) :
    ∃ z, x.evaluate calls d = .ok z ∧ y.SameLiteral z := by
  obtain ⟨w, found, same⟩ := evaluate_twin firm twin foldable value
  have definite := twin.other
  have denotes := (evaluate_definite firm definite foldable found).2
  have grounded := grounded_of_evaluate firm definite foldable found
  -- what replaces the expression can be evaluated, and has its value
  have replaced : ∀ z : Expr, z.Each Foldable → z.Each (Grounded calls d) →
      valueOver calls d z = valueOver calls d e →
      ∃ y', z.evaluate calls d = .ok y' ∧ y.SameLiteral y' := by
    intro z folds holds equal
    obtain ⟨y', computed⟩ := evaluate_of_grounded firm definite folds holds
    have also := (evaluate_definite firm definite folds computed).2
    exact ⟨y', computed, same.trans ⟨_, denotes, equal ▸ also⟩⟩
  rcases replaces with rfl | equal
  · exact replaced _ (simplify_foldable foldable) (grounded_simplify grounded).1
      (valueOver_simplify grounded)
  · exact replaced x (each_of_same (fun _ _ => foldable_of_same) equal foldable)
      (each_of_same (fun _ _ => grounded_of_same) equal grounded)
      ((compositional_valueOver calls d).same equal)

end Expr

/-- Over records without open slots expressions may be replaced, whatever the types of attributes
and operands are. -/
theorem Calls.Echoed.tolerant [Arithmetic] {calls : Calls} (firm : calls.Echoed calls) :
    Calls.Tolerant calls (fun _ e => e.Each Expr.Foldable) Record.Twin where
  keeps _ _ := Expr.simplify_foldable
  other twin := twin.other.twin
  trans := .trans
  guard twin foldable replaces evaluated constant := by
    obtain ⟨z, found, same⟩ := Expr.evaluate_replaced firm twin foldable replaces evaluated
    exact ⟨z, found, same.bool? constant⟩
  assign twin foldable replaces evaluated assigned := by
    obtain ⟨z, found, same⟩ := Expr.evaluate_replaced firm twin foldable replaces evaluated
    have definite := (Expr.evaluate_definite firm twin.definite foldable evaluated).1
    obtain ⟨s', also, becomes⟩ := twin.assign definite assigned same
    exact ⟨z, s', found, also, becomes⟩

end RoutePolicy
