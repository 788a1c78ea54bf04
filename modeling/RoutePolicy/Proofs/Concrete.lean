import RoutePolicy.Proofs.Inlining
import RoutePolicy.Proofs.Known

/-!
Evaluation over concrete records, which have a literal in every slot. What an expression comes to
there, it comes to after simplification, and so does every expression that is equal to it up to
spelling.
-/

set_option autoImplicit false

namespace RoutePolicy

theorem forall₂_through {α β γ : Type} {R : α → β → Prop} {S : β → γ → Prop} {T : α → γ → Prop}
    {as : List α} {bs : List β} {cs : List γ} (first : List.Forall₂ R as bs)
    (second : List.Forall₂ S bs cs) (step : ∀ a b c, R a b → S b c → T a c) :
    List.Forall₂ T as cs := by
  induction first generalizing cs with
  | nil =>
      cases second
      exact .nil
  | cons here _ ih =>
      cases second with
      | cons next later => exact .cons (step _ _ _ here next) (ih later)

/-! ### Records -/

/-- A route of which nothing is said. -/
def Route.blank : Route := ⟨"0.0.0.0/0", "0.0.0.0", [], 0, 0, 0, 0, [], by decide⟩

theorem Route.isWritten_literal (route : Route) (name : Attribute) :
    (Expr.lit none (route.literal name)).isWritten = true := by
  cases name with
  | network => exact route.parses
  | _ => rfl

namespace Record

/-- A record of literals that have the types of their attributes. -/
structure Concrete (c : Record) : Prop where
  residual : c.Residual
  literal : ∀ slot ∈ c.slots, slot.2.isLiteral = true

variable {route : Route} {r c d : Record}

/-- What residuals come to is concrete. -/
theorem ComesTo.concrete (comes : r.ComesTo route c) (residual : r.Residual) : c.Concrete := by
  constructor
  · refine forall₂_right comes residual ?_
    rintro slot known residual ⟨named, denotes⟩
    rw [named]
    exact denotes.residual residual
  · refine forall₂_right comes residual ?_
    rintro slot known - ⟨-, denotes⟩
    exact denotes.isLiteral

theorem Concrete.comesTo (concrete : c.Concrete) (route : Route) : c.ComesTo route c :=
  List.forall₂_same.mpr fun slot member =>
    ⟨rfl, Expr.denotes_of_isLiteral (concrete.literal slot member)⟩

theorem ComesTo.trans (first : r.ComesTo route c) (second : c.ComesTo route d) :
    r.ComesTo route d := by
  refine forall₂_through first second ?_
  rintro slot known last ⟨named, denotes⟩ ⟨renamed, again⟩
  rw [denotes.valueAt] at again
  exact ⟨renamed.trans named, again⟩

/-- Of two concrete records with the same values one is as good as the other. -/
theorem ComesTo.back (comes : r.ComesTo route d) (alike : c.ComesTo route d)
    (concrete : c.Concrete) : r.ComesTo route c := by
  have others : List.Forall₂ (fun slot known => known.2.isLiteral = true ∧
      known.1 = slot.1 ∧ slot.2.Denotes (known.2.valueAt route)) d.slots c.slots := by
    refine List.Forall₂.flip ?_
    refine ((List.forall₂_and_left _ _).mpr ⟨concrete.literal, alike⟩).imp ?_
    rintro known slot ⟨literal, named, denotes⟩
    exact ⟨literal, named.symm, denotes⟩
  refine forall₂_through comes others ?_
  rintro slot last known ⟨named, denotes⟩ ⟨literal, renamed, again⟩
  have here : last.2.valueAt route = known.2.valueAt route := again.valueAt
  have same : last.2.valueAt route = slot.2.valueAt route := denotes.valueAt
  rw [here] at same
  exact ⟨renamed.trans named, same ▸ Expr.denotes_of_isLiteral literal⟩

theorem Concrete.get? {name : Attribute} {y : Expr} (concrete : c.Concrete)
    (found : c.get? name = some y) : y.ResidualOf name.type ∧ y.isLiteral = true :=
  ⟨concrete.residual.get? found, concrete.literal (name, y) (mem_of_get? found)⟩

/-- The slots of a concrete record are attributes of some route. -/
theorem Concrete.tells (concrete : c.Concrete) : ∃ route, c.Tells route := by
  have literals : ∀ name, ∃ l : Literal, l.type = name.type ∧
      (Expr.lit none l).isWritten = true ∧ ∀ y, c.get? name = some y → y.Denotes l.value := by
    intro name
    cases found : c.get? name with
    | none =>
        exact ⟨Route.blank.literal name, Route.literal_type _ _, Route.isWritten_literal _ _, nofun⟩
    | some y =>
        obtain ⟨residual, literal⟩ := concrete.get? found
        obtain ⟨cls, l, rfl, typed⟩ := Expr.LiteralOf.of_type literal residual.2
        have written := residual.1.root.written
        refine ⟨l, typed, ?_, ?_⟩
        · cases l <;> exact written
        · rintro _ ⟨⟩
          exact ⟨cls, l, rfl, rfl⟩
  choose f typed written denotes using literals
  obtain ⟨route, same⟩ := Route.exists_of_literals f typed written
  refine ⟨route, fun name y found => ?_⟩
  rw [same]
  exact denotes name y found

/-! ### Alike records -/

/-- Concrete records with the same values. -/
structure Alike (route : Route) (c d : Record) : Prop where
  concrete : c.Concrete
  comes : c.ComesTo route d

theorem Alike.other (alike : c.Alike route d) : d.Concrete :=
  alike.comes.concrete alike.concrete.residual

/-- Records stay alike when an attribute gets one value in both. -/
theorem Alike.assign {s : Record} (alike : c.Alike route d) {name : Attribute} {y z : Expr}
    (residual : y.ResidualOf name.type) (literal : y.isLiteral = true)
    (assigned : c.assign name y = .ok s) (denotes : z.Denotes (y.valueAt route)) :
    ∃ s', d.assign name z = .ok s' ∧ s.Alike route s' := by
  obtain ⟨own, same, comesOwn⟩ := (alike.concrete.comesTo route).assign assigned
    (Expr.denotes_of_isLiteral literal)
  rw [assigned] at same
  cases same
  obtain ⟨s', also, comes⟩ := alike.comes.assign assigned denotes
  exact ⟨s', also, comesOwn.concrete (alike.concrete.residual.assign residual assigned), comes⟩

end Record

/-- Calls that are answered by residuals, and alike over alike concrete records. -/
structure Calls.Steady (route : Route) (calls : Calls) : Prop where
  answers : calls.AnswerResiduals
  agree : Calls.Agree route calls calls

namespace Expr

variable {names : Names} {calls : Calls} {c : Record} {e y : Expr}

/-! ### Expressions that a concrete record decides -/

theorem Answered.of_isOperator (operator : e.isOperator = true) : Answered names calls c e := by
  cases e <;> first | rfl | cases operator

/-- What expressions that are equal up to spelling have in common. -/
structure SameShape (a b : Expr) : Prop where
  type : a.type = b.type
  operandType : a.operandType? = b.operandType?
  written : a.isWritten = b.isWritten
  united : a.isUnion = b.isUnion
  children : List.Forall₂ (fun x y => same x y = true) a.children b.children
  answered : ∀ names calls c, Answered names calls c b → Answered names calls c a

theorem forall₂_of_sameAll {as bs : List Expr} (equal : sameAll as bs = true) :
    List.Forall₂ (fun a b => same a b = true) as bs := by
  induction as generalizing bs with
  | nil =>
      cases bs with
      | nil => exact .nil
      | cons _ _ => cases equal
  | cons a as ih =>
      cases bs with
      | nil => cases equal
      | cons b bs =>
          simp only [sameAll, Bool.and_eq_true] at equal
          exact .cons equal.1 (ih equal.2)

theorem sameShape_of_same {a b : Expr} (equal : same a b = true) : SameShape a b := by
  unfold same at equal
  split at equal
  case h_1 cls l cls' l' =>
    obtain rfl := of_decide_eq_true equal
    refine ⟨rfl, rfl, ?_, rfl, .nil, fun _ _ _ known => known⟩
    cases l <;> rfl
  case h_2 | h_11 | h_12 | h_13 =>
    simp only [Bool.and_eq_true, decide_eq_true_eq] at equal
    simp only [equal]
    exact ⟨rfl, rfl, rfl, rfl, .nil, fun _ _ _ known => known⟩
  case h_3 =>
    simp only [Bool.and_eq_true] at equal
    exact ⟨rfl, rfl, rfl, rfl, forall₂_of_sameAll equal.2, fun _ _ _ known => known⟩
  case h_4 => exact ⟨rfl, rfl, rfl, rfl, .cons equal .nil, fun _ _ _ known => known⟩
  case h_5 =>
    simp only [Bool.and_eq_true] at equal
    exact ⟨rfl, rfl, rfl, rfl, .cons equal.1.2 (.cons equal.2 .nil), fun _ _ _ known => known⟩
  case h_6 | h_7 | h_8 | h_10 =>
    simp only [Bool.and_eq_true] at equal
    exact ⟨rfl, rfl, rfl, rfl, .cons equal.2 .nil, fun _ _ _ known => known⟩
  case h_9 => exact ⟨rfl, rfl, rfl, rfl, forall₂_of_sameAll equal, fun _ _ _ known => known⟩
  case h_14 => exact ⟨rfl, rfl, rfl, rfl, .nil, fun _ _ _ known => known⟩
  case h_15 => cases equal

/-- A property of nodes which spelling has no part in is one of all equal expressions. -/
theorem each_of_same {Q : Expr → Prop} (respected : ∀ a b, same a b = true → Q b → Q a)
    {a b : Expr} (equal : same a b = true) (each : b.Each Q) : a.Each Q := by
  induction a using childrenInduction generalizing b with
  | step a ih =>
    refine each_iff.mpr ⟨respected a b equal each.root, fun part member => ?_⟩
    obtain ⟨other, inside, same⟩ := exists_of_forall₂ (sameShape_of_same equal).children member
    exact ih part member same (each.child inside)

theorem foldable_of_same {a b : Expr} (equal : same a b = true) (foldable : Foldable b) :
    Foldable a := by
  have shape := sameShape_of_same equal
  refine ⟨shape.written.trans foldable.written, ?_⟩
  rintro cls es rfl rfl
  have united := shape.united
  have empty := shape.children
  cases b with
  | union cls' es' => exact foldable.filled cls' es' rfl (by cases empty; rfl)
  | _ => cases united

/-- What decides an expression decides all that are equal to it up to spelling. -/
theorem closed_of_same {a b : Expr} (equal : same a b = true)
    (closed : b.Each (Closed names calls c)) : a.Each (Closed names calls c) := by
  refine each_of_same (fun a b equal closed => ?_) equal closed
  have shape := sameShape_of_same equal
  have types : a.children.map type = b.children.map type := by
    rw [map_eq_iff_forall₂]
    exact shape.children.imp fun _ _ equal => (sameShape_of_same equal).type
  have fits := (fitted_congr shape.operandType types).trans closed.fits
  exact ⟨foldable_of_same equal closed.foldable, fits, shape.answered _ _ _ closed.answered⟩

/-- A node of which neither the construct nor the types nor the answers are in the way. -/
structure Settled (names : Names) (calls : Calls) (c : Record) (e : Expr) : Prop where
  proper : Proper e
  answered : Answered names calls c e

theorem settled_typed : Typed (Settled names calls c) where
  own _ := rfl
  operator _ _ _ := rfl
  constant _ _ := rfl
  part _ _ _ node part operator member := node.proper.hasType part.proper operator member
  room _ _ _ impossible := impossible.elim
  boolean value := ⟨proper_stable.boolean value, rfl⟩
  set _ _ := ⟨⟨rfl, rfl⟩, rfl⟩
  path _ _ := ⟨⟨rfl, rfl⟩, rfl⟩
  negated e typed := ⟨proper_stable.negated e typed, rfl⟩
  joined _ _ _ typed := ⟨⟨rfl, fitted_of_hasType rfl typed⟩, rfl⟩
  united es enough typed := ⟨proper_stable.united es enough typed, rfl⟩
  matched _ _ _ typed := ⟨⟨rfl, fitted_of_hasType rfl (by simpa [children] using typed)⟩, rfl⟩
  ranged _ _ _ typed := ⟨⟨rfl, fitted_of_hasType rfl (by simpa [children] using typed)⟩, rfl⟩
  prepended _ _ _ typed := ⟨⟨rfl, fitted_of_hasType rfl (by simpa [children] using typed)⟩, rfl⟩
  rebuilt e es node types := by
    refine ⟨node.proper.withChildren types, ?_⟩
    cases e with
    | lit _ _ | attr _ _ | call _ _ | adjust _ _ _ | namedSet _ _ | unsupported _ _ =>
        exact node.answered
    | inList _ _ _ _ => cases node.answered
    | _ => exact .of_isOperator ((isOperator_withChildren _ es).trans rfl)

/-- What decides an expression decides the simplified one. -/
theorem closed_simplify (closed : e.Each (Closed names calls c)) :
    e.simplify.Each (Closed names calls c) := by
  have settled : e.Each (Settled names calls c) :=
    closed.mono fun _ node => ⟨node.proper, node.answered⟩
  have kept := (settled_typed.eachOf_simplify settled).1
  have foldable := simplify_foldable (closed.mono fun _ => Closed.foldable)
  intro node member
  exact ⟨foldable node member, (kept node member).proper.fits, (kept node member).answered⟩

variable [Arithmetic]

/-- An operator that can be evaluated over a concrete record is decided by it, if its operands
are. -/
theorem operator_closed (answers : calls.AnswerResiduals) (concrete : c.Concrete)
    (operator : e.isOperator = true) (foldable : e.Each Foldable)
    (parts : ∀ part ∈ e.children, ∀ x, part.evaluate calls c = .ok x →
      part.Each (Closed names calls c))
    (value : e.evaluate calls c = .ok y) : e.Each (Closed names calls c) := by
  obtain ⟨xs, operands, fits, -⟩ := (evaluate_operator operator).mp value
  have types : xs.map type = e.children.map type := by
    refine (types_eq_of_forall₂ (Q := Residual) ?_).1
    refine ((List.forall₂_and_left _ _).mpr ⟨fun part member => foldable.child member,
      operands⟩).imp ?_
    rintro part x ⟨below, evaluated⟩
    exact evaluate_residual answers concrete.residual (below.mono fun _ => Foldable.written)
      evaluated
  rw [fitted_withChildren types] at fits
  have closed : ∀ part ∈ e.children, part.Each (Closed names calls c) := by
    intro part member
    obtain ⟨x, _, known⟩ := exists_of_forall₂ operands member
    exact parts part member x known
  exact each_iff.mpr ⟨⟨foldable.root, fits, .of_isOperator operator⟩, closed⟩

/-- What can be evaluated over a concrete record is decided by it, if the answers to calls are
literals of what the calls mean. -/
theorem closed_of_evaluate (answers : calls.AnswerResiduals)
    (answered : ∀ policy x, calls policy c = .ok x → x.Denotes (.bool (names.accepts policy)))
    (concrete : c.Concrete) (foldable : e.Each Foldable) (value : e.evaluate calls c = .ok y) :
    e.Each (Closed names calls c) := by
  induction e using childrenInduction generalizing y with
  | step e ih =>
    cases e with
    | junction _ _ _ | union _ _ | compare _ _ _ _ | not _ _ | prepend _ _ _ | hasCommunity _ _ _
    | inRanges _ _ _ _ =>
        refine operator_closed answers concrete rfl foldable ?_ value
        intro part member x known
        exact ih part member (foldable.child member) known
    | lit cls literal => exact each_leaf ⟨foldable.root, rfl, rfl⟩ rfl
    | attr cls name =>
        have found := Record.lookup_ok.mp value
        exact each_leaf ⟨foldable.root, rfl, Option.isSome_iff_exists.mpr ⟨y, found⟩⟩ rfl
    | call cls policy => exact each_leaf ⟨foldable.root, rfl, y, value, answered policy y value⟩ rfl
    | adjust cls shift amount =>
        obtain ⟨current, found, _⟩ := Outcome.bind_ok.mp value
        have has := Option.isSome_iff_exists.mpr ⟨current, Record.lookup_ok.mp found⟩
        exact each_leaf ⟨foldable.root, rfl, has⟩ rfl
    | inList _ _ _ _ | namedSet _ _ | unsupported _ _ => cases value

/-- What the names of policies mean where their calls are answered over a record. -/
def namesOver (calls : Calls) (c : Record) : Names where
  accepts policy :=
    match calls policy c with
    | .ok x => x.holdsAt Route.blank
    | .error _ => false
  members _ := ∅
  permits _ _ := false

/-! ### Values over alike records -/

variable {route : Route} {d : Record}

omit [Arithmetic] in
/-- Over a concrete record the answer to a call is the literal of what the call means. -/
theorem answer_denotes (steady : calls.Steady route) (concrete : c.Concrete) {policy : String}
    {x : Expr} (called : calls policy c = .ok x) :
    x.Denotes (.bool ((namesOver calls c).accepts policy)) := by
  obtain ⟨z, again, denotes⟩ :=
    steady.agree policy c c x concrete.residual (concrete.comesTo route) called
  rw [called] at again
  cases again
  have truth : x.valueAt Route.blank = .bool (x.holdsAt Route.blank) :=
    valueAt_bool (steady.answers policy c x concrete.residual called)
  have meaning : (namesOver calls c).accepts policy = x.holdsAt Route.blank := by
    simp only [namesOver, called]
  rw [meaning, ← truth]
  exact denotes_of_isLiteral denotes.isLiteral

/-- Over a concrete record an expression comes to a literal. -/
theorem evaluate_literal (exact : ∀ i : Int, Arithmetic.round i = i) (steady : calls.Steady route)
    (concrete : c.Concrete) (foldable : e.Each Foldable) (value : e.evaluate calls c = .ok y) :
    y.isLiteral = true := by
  obtain ⟨z, again, denotes⟩ := evaluate_agrees exact steady.answers steady.agree concrete.residual
    (concrete.comesTo route) foldable value
  rw [value] at again
  cases again
  exact denotes.isLiteral

/-- What can be evaluated over a concrete record is decided by alike ones, and its value is the one
that it has at a route with their attributes. -/
theorem evaluate_decided (exact : ∀ i : Int, Arithmetic.round i = i) (steady : calls.Steady route)
    (alike : c.Alike route d) (foldable : e.Each Foldable) (value : e.evaluate calls c = .ok y) :
    e.Each (Closed (namesOver calls d) calls d) ∧
      ∃ known, d.Tells known ∧ e.value (namesOver calls d) known = y.valueAt route := by
  obtain ⟨z, evaluated, same⟩ := evaluate_agrees exact steady.answers steady.agree
    alike.concrete.residual alike.comes foldable value
  have closed := closed_of_evaluate steady.answers
    (fun policy x called => answer_denotes steady alike.other called) alike.other foldable evaluated
  obtain ⟨known, tells⟩ := alike.other.tells
  obtain ⟨w, again, denotes⟩ := evaluate_known exact tells closed
  rw [evaluated] at again
  cases again
  have here : z.valueAt route = e.value (namesOver calls d) known := denotes.valueAt
  exact ⟨closed, known, tells, here.symm.trans same.valueAt⟩

/-- Over alike records an expression and the simplified one come to one value. -/
theorem evaluate_simplify (exact : ∀ i : Int, Arithmetic.round i = i) (steady : calls.Steady route)
    (alike : c.Alike route d) (foldable : e.Each Foldable) (value : e.evaluate calls c = .ok y) :
    ∃ z, e.simplify.evaluate calls d = .ok z ∧ z.Denotes (y.valueAt route) := by
  obtain ⟨closed, known, tells, same⟩ := evaluate_decided exact steady alike foldable value
  rw [← same, ← value_simplify (closed.mono fun _ => Closed.proper)]
  exact evaluate_known exact tells (closed_simplify closed)

/-- Over alike records expressions that are equal up to spelling come to one value. -/
theorem evaluate_same (exact : ∀ i : Int, Arithmetic.round i = i) (steady : calls.Steady route)
    (alike : c.Alike route d) (foldable : e.Each Foldable) (value : e.evaluate calls c = .ok y)
    {other : Expr} (equal : same other e = true) :
    ∃ z, other.evaluate calls d = .ok z ∧ z.Denotes (y.valueAt route) := by
  obtain ⟨closed, known, tells, same⟩ := evaluate_decided exact steady alike foldable value
  rw [← same, ← same_value equal]
  exact evaluate_known exact tells (closed_of_same equal closed)

end Expr

end RoutePolicy
