import Mathlib.Data.Finset.Sort
import Mathlib.Data.String.Basic
import RoutePolicy.Proofs.Simplification

/-!
Residuals, which are what is left of an expression over the attributes of the incoming route, and
records of residuals. A concrete record has the values of a record of residuals at some route.
-/

set_option autoImplicit false

namespace RoutePolicy

namespace Expr

/-- A node that stands for itself: it names no policy, set or list. -/
def isResolved : Expr → Bool
  | call _ _ | inList _ _ _ _ | namedSet _ _ | unsupported _ _ => false
  | _ => true

/-- A node that is no malformed network. -/
def isWritten : Expr → Bool
  | lit _ (.network text) => (Network.parse? text).isSome
  | _ => true

/-- A node of a residual. -/
structure Residual (e : Expr) : Prop where
  resolved : e.isResolved = true
  fits : e.fitted = true
  written : e.isWritten = true

theorem isSupported_of_isResolved {e : Expr} (resolved : e.isResolved = true) :
    e.isSupported = true := by
  cases e <;> first | rfl | cases resolved

theorem Residual.proper {e : Expr} (residual : Residual e) : Proper e :=
  ⟨isSupported_of_isResolved residual.resolved, residual.fits⟩

theorem isResolved_withChildren (e : Expr) (es : List Expr) :
    (e.withChildren es).isResolved = e.isResolved := by
  unfold withChildren
  split <;> rfl

theorem isWritten_withChildren (e : Expr) (es : List Expr) :
    (e.withChildren es).isWritten = e.isWritten := by
  unfold withChildren
  split <;> rfl

theorem residual_stable : Stable type HasType False Residual where
  own _ := rfl
  operator _ _ _ := rfl
  constant _ _ := rfl
  part _ _ _ node part operator member := node.proper.hasType part.proper operator member
  room _ _ _ impossible := impossible.elim
  boolean value := ⟨rfl, (proper_stable.boolean value).fits, rfl⟩
  set _ _ := ⟨rfl, rfl, rfl⟩
  path _ _ := ⟨rfl, rfl, rfl⟩
  negated e typed := ⟨rfl, (proper_stable.negated e typed).fits, rfl⟩
  joined _ _ _ typed := ⟨rfl, fitted_of_hasType rfl typed, rfl⟩
  united es enough typed := ⟨rfl, (proper_stable.united es enough typed).fits, rfl⟩
  matched _ _ _ typed := ⟨rfl, fitted_of_hasType rfl (by simpa [children] using typed), rfl⟩
  ranged _ _ _ typed := ⟨rfl, fitted_of_hasType rfl (by simpa [children] using typed), rfl⟩
  prepended _ _ _ typed := ⟨rfl, fitted_of_hasType rfl (by simpa [children] using typed), rfl⟩

theorem residual_typed : Typed Residual where
  toStable := residual_stable
  rebuilt e es node types :=
    ⟨(isResolved_withChildren e es).trans node.resolved, (node.proper.withChildren types).fits,
      (isWritten_withChildren e es).trans node.written⟩

/-- A residual of a type. -/
abbrev ResidualOf (type : ValueType) (e : Expr) : Prop := e.EachOf HasType Residual type

variable {route : Route} {expected : ValueType} {e : Expr}

theorem ResidualOf.each_proper (residual : e.ResidualOf expected) : e.Each Proper :=
  residual.1.mono fun _ => Residual.proper

theorem residualOf_lit {cls : Spelling} {l : Literal} (written : (lit cls l).isWritten = true) :
    (lit cls l).ResidualOf l.type :=
  ⟨each_leaf ⟨rfl, rfl, written⟩ rfl, rfl⟩

theorem residualOf_bool (value : Bool) : (Expr.bool value).ResidualOf .boolean :=
  residual_stable.eachOf_bool value

theorem residualOf_ref (name : Attribute) : (Expr.ref name).ResidualOf name.type :=
  ⟨each_leaf ⟨rfl, rfl, rfl⟩ rfl, rfl⟩

theorem residualOf_negate (residual : e.ResidualOf .boolean) : e.negate.ResidualOf .boolean :=
  residual_stable.eachOf_negate residual

theorem residualOf_junction (op : Junction) {es : List Expr}
    (residual : ∀ e ∈ es, e.ResidualOf .boolean) :
    (junction none op es).ResidualOf .boolean :=
  ⟨each_iff.mpr ⟨⟨rfl, fitted_of_hasType rfl fun e member => (residual e member).2, rfl⟩,
    fun e member => (residual e member).1⟩, rfl⟩

theorem residualOf_simplify (residual : e.ResidualOf expected) : e.simplify.ResidualOf expected :=
  residual.2 ▸ residual_typed.eachOf_simplify residual.1

/-! ### Values of residuals -/

theorem valueAt_simplify (residual : e.ResidualOf expected) :
    e.simplify.valueAt route = e.valueAt route :=
  value_simplify residual.each_proper

theorem holdsAt_simplify (residual : e.ResidualOf expected) :
    e.simplify.holdsAt route = e.holdsAt route :=
  congrArg Value.truth (valueAt_simplify residual)

theorem valueAt_type (residual : e.ResidualOf expected) : (e.valueAt route).type = expected :=
  (value_type residual.1.root.proper.supported).trans residual.2

theorem valueAt_bool (residual : e.ResidualOf .boolean) :
    e.valueAt route = .bool (e.holdsAt route) :=
  Value.eq_bool (valueAt_type residual)

@[simp] theorem holdsAt_negate (e : Expr) : e.negate.holdsAt route = !e.holdsAt route :=
  (compositional_value Names.none route).truth_negate e

@[simp] theorem holdsAt_all (es : List Expr) :
    (Expr.all es).holdsAt route = es.all (holdsAt route) := by
  simp only [holdsAt, valueAt, all, value, Value.truth, Junction.join, values_eq, List.map_map,
    List.all_map]
  rfl

@[simp] theorem holdsAt_any (es : List Expr) :
    (Expr.any es).holdsAt route = es.any (holdsAt route) := by
  simp only [holdsAt, valueAt, any, value, Value.truth, Junction.join, values_eq, List.map_map,
    List.any_map]
  rfl

theorem holdsAt_of_bool? {value : Bool} (constant : e.bool? = some value) :
    e.holdsAt route = value :=
  (compositional_value Names.none route).truth_of_bool? constant

/-- Networks are well formed when they are written so. -/
theorem parses_value {names : Names} (written : e.isWritten = true) (typed : e.type = .network)
    {text : String} (value : e.value names route = .network text) :
    (Network.parse? text).isSome = true := by
  cases e with
  | lit cls literal =>
      cases literal <;> cases typed
      cases value
      exact written
  | attr cls name =>
      cases name <;> cases typed
      cases value
      exact route.parses
  | unsupported _ _ => cases typed
  | _ => cases typed

theorem parses_valueAt (residual : e.ResidualOf .network) {text : String}
    (value : e.valueAt route = .network text) : (Network.parse? text).isSome = true :=
  parses_value residual.1.root.written residual.2 value

/-! ### Literals -/

/-- The literal of a value. -/
def Denotes (v : Value) (e : Expr) : Prop := ∃ cls l, e = lit cls l ∧ l.value = v

theorem Denotes.value {names : Names} {v : Value} (denotes : e.Denotes v) :
    e.value names route = v := by
  obtain ⟨cls, l, rfl, same⟩ := denotes
  exact same

theorem Denotes.valueAt {v : Value} (denotes : e.Denotes v) : e.valueAt route = v :=
  denotes.value

theorem Denotes.type {v : Value} (denotes : e.Denotes v) : e.type = v.type := by
  obtain ⟨cls, l, rfl, rfl⟩ := denotes
  exact l.value_type.symm

theorem Denotes.bool? {value : Bool} (denotes : e.Denotes (.bool value)) :
    e.bool? = some value := by
  obtain ⟨cls, l, rfl, same⟩ := denotes
  cases l <;> cases same
  rfl

theorem Denotes.isLiteral {v : Value} (denotes : e.Denotes v) : e.isLiteral = true := by
  obtain ⟨cls, l, rfl, _⟩ := denotes
  rfl

/-- The literal of a residual's value is a residual. -/
theorem Denotes.residual {x : Expr} (residual : x.ResidualOf expected)
    (denotes : e.Denotes (x.valueAt route)) : e.ResidualOf expected := by
  have typed : e.type = expected := denotes.type.trans (valueAt_type residual)
  obtain ⟨cls, l, rfl, same⟩ := denotes
  cases typed
  apply residualOf_lit
  cases l with
  | network text => exact parses_valueAt residual same.symm
  | _ => rfl

end Expr

/-- A literal with a value. -/
def Value.literal : Value → Literal
  | bool value => .bool value
  | int value => .int value
  | address text => .address text
  | network text => .network text
  | communities members => .communities members.sort
  | asPath asns => .asPath asns

@[simp] theorem Value.literal_value (v : Value) : v.literal.value = v := by
  cases v <;> simp [literal, Literal.value]

namespace Record

/-- A record every slot of which is a residual of its attribute's type. -/
def Residual (r : Record) : Prop := ∀ slot ∈ r.slots, slot.2.ResidualOf slot.1.type

/-- A record of literals that has the values another record has at a route. -/
def ComesTo (route : Route) (r c : Record) : Prop :=
  List.Forall₂ (fun slot known => known.1 = slot.1 ∧ known.2.Denotes (slot.2.valueAt route))
    r.slots c.slots

/-- Every slot replaced by its value at a route. -/
def atRoute (route : Route) (r : Record) : Record :=
  ⟨r.slots.map fun slot => (slot.1, .lit none (slot.2.valueAt route).literal)⟩

theorem comesTo_atRoute (route : Route) (r : Record) : r.ComesTo route (r.atRoute route) :=
  List.forall₂_map_right_iff.mpr
    (List.forall₂_same.mpr fun _ _ => ⟨rfl, none, _, rfl, Value.literal_value _⟩)

variable {route : Route} {r c : Record} {name : Attribute} {x y : Expr}

/-- Only the values of the slots matter. -/
theorem ComesTo.congr {s : Record} (comes : r.ComesTo route c)
    (same : r.slots.map (fun slot => (slot.1, slot.2.valueAt route)) =
      s.slots.map fun slot => (slot.1, slot.2.valueAt route)) : s.ComesTo route c := by
  have values : ∀ r : Record, r.ComesTo route c ↔
      List.Forall₂ (fun (slot : Attribute × Value) known =>
          known.1 = slot.1 ∧ Expr.Denotes slot.2 known.2)
        (r.slots.map fun slot => (slot.1, slot.2.valueAt route)) c.slots := by
    intro r
    rw [List.forall₂_map_left_iff]
    rfl
  rw [values] at comes ⊢
  rwa [← same]

theorem lookup_ok : r.lookup name = .ok x ↔ r.get? name = some x := by
  unfold lookup
  split
  · rename_i slot found
    rw [found, Except.ok.injEq, Option.some.injEq]
  · rename_i missing
    simp [missing]

theorem mem_of_get? (found : r.get? name = some x) : (name, x) ∈ r.slots := by
  obtain ⟨slot, first, rfl⟩ := Option.map_eq_some_iff.mp found
  have named : slot.1 = name := by simpa using List.find?_some first
  exact named ▸ List.mem_of_find?_eq_some first

theorem Residual.get? (residual : r.Residual) (found : r.get? name = some x) :
    x.ResidualOf name.type :=
  residual (name, x) (mem_of_get? found)

theorem ComesTo.get? (comes : r.ComesTo route c) (found : r.get? name = some x) :
    ∃ y, c.get? name = some y ∧ y.Denotes (x.valueAt route) := by
  obtain ⟨slots⟩ := r
  obtain ⟨knowns⟩ := c
  unfold ComesTo at comes
  unfold Record.get? at found ⊢
  dsimp only at comes found ⊢
  induction comes with
  | nil => cases found
  | @cons slot known others knowns first _ ih =>
      rw [List.find?_cons] at found ⊢
      by_cases named : slot.1 = name
      · simp only [named, decide_true, Option.map_some, Option.some.injEq] at found
        subst found
        exact ⟨known.2, by simp [first.1, named], first.2⟩
      · simp only [named, decide_false] at found
        simpa [first.1, named] using ih found

/-- What is true of all slots and of a new one is true of all slots when this is assigned. -/
theorem forall_assign {P : Attribute × Expr → Prop} (slots : ∀ slot ∈ r.slots, P slot)
    (own : P (name, x)) (assigned : r.assign name x = .ok c) : ∀ slot ∈ c.slots, P slot := by
  unfold Record.assign at assigned
  split at assigned
  · cases assigned
    refine List.forall_mem_map.mpr fun slot member => ?_
    split
    · exact own
    · exact slots slot member
  · cases assigned

theorem Residual.assign (residual : r.Residual) (value : x.ResidualOf name.type)
    (assigned : r.assign name x = .ok c) : c.Residual :=
  forall_assign (P := fun slot => slot.2.ResidualOf slot.1.type) residual value assigned

theorem ComesTo.assign {s : Record} (comes : r.ComesTo route c)
    (assigned : r.assign name x = .ok s) (denotes : y.Denotes (x.valueAt route)) :
    ∃ d, c.assign name y = .ok d ∧ s.ComesTo route d := by
  unfold Record.assign at assigned ⊢
  split at assigned
  · rename_i has
    cases assigned
    have known : c.has name = true := by
      obtain ⟨old, found⟩ := Option.isSome_iff_exists.mp has
      obtain ⟨literal, same, _⟩ := comes.get? found
      exact Option.isSome_iff_exists.mpr ⟨literal, same⟩
    refine ⟨_, if_pos known, ?_⟩
    refine List.forall₂_map_left_iff.mpr (List.forall₂_map_right_iff.mpr (comes.imp ?_))
    rintro slot known ⟨same, value⟩
    rw [same]
    split
    · exact ⟨rfl, denotes⟩
    · exact ⟨same, value⟩
  · cases assigned

theorem get?_assign {s : Record} (assigned : r.assign name x = .ok s) : s.get? name = some x := by
  unfold Record.assign at assigned
  split at assigned
  · rename_i has
    cases assigned
    obtain ⟨old, found⟩ := Option.isSome_iff_exists.mp has
    clear has
    obtain ⟨slots⟩ := r
    unfold Record.get? at found ⊢
    dsimp only at found ⊢
    induction slots with
    | nil => cases found
    | cons slot rest ih =>
        by_cases here : slot.1 = name
        · simp [here]
        · simp only [List.find?_cons, here, decide_false] at found
          simpa [here] using ih found
  · cases assigned

theorem assign_of_get? (found : r.get? name = some x) (value : Expr) :
    ∃ s, r.assign name value = .ok s := by
  refine ⟨_, if_pos ?_⟩
  exact Option.isSome_iff_exists.mpr ⟨x, found⟩

end Record

end RoutePolicy
