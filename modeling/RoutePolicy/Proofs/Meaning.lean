import Mathlib.Data.Finset.Basic
import RoutePolicy.Proofs.WellTyped

/-!
What an expression means: its value at a route all attributes of which are known. Policies and lists
that an expression names may mean anything of the right type.
-/

set_option autoImplicit false

namespace RoutePolicy

/-- A value. A set of communities has neither order nor repetitions. -/
inductive Value where
  | bool (value : Bool)
  | int (value : Int)
  | address (text : String)
  | network (text : String)
  | communities (members : Finset String)
  | asPath (asns : List Int)
deriving DecidableEq

namespace Value

def type : Value → ValueType
  | bool _ => .boolean
  | int _ => .integer
  | address _ => .address
  | network _ => .network
  | communities _ => .communities
  | asPath _ => .asPath

/-- The truth value; any other value is not true. -/
def truth : Value → Bool
  | bool value => value
  | _ => false

def number : Value → Int
  | int value => value
  | _ => 0

def members : Value → Finset String
  | communities members => members
  | _ => ∅

def asns : Value → List Int
  | asPath asns => asns
  | _ => []

/-- Whether some range covers the value. -/
def inRanges (ranges : List String) : Value → Bool
  | network text => (Network.parse? text).any fun n => ranges.any (NetworkRange.textCovers · n)
  | _ => false

theorem eq_bool {v : Value} (typed : v.type = .boolean) : v = bool v.truth := by
  cases v <;> first | rfl | cases typed

theorem eq_communities {v : Value} (typed : v.type = .communities) : v = communities v.members := by
  cases v <;> first | rfl | cases typed

theorem eq_asPath {v : Value} (typed : v.type = .asPath) : v = asPath v.asns := by
  cases v <;> first | rfl | cases typed

end Value

def Literal.value : Literal → Value
  | bool value => .bool value
  | int value => .int value
  | address text => .address text
  | network text => .network text
  | communities members => .communities members.toFinset
  | asPath asns => .asPath asns

@[simp] theorem Literal.value_type (l : Literal) : l.value.type = l.type := by
  cases l <;> rfl

/-- A route all attributes of which are known. -/
structure Route where
  network : String
  nextHop : String
  communities : List String
  localPreference : Int
  metric : Int
  weight : Int
  tag : Int
  asPath : List Int
  parses : (Network.parse? network).isSome

namespace Route

def literal (route : Route) : Attribute → Literal
  | .network => .network route.network
  | .nextHop => .address route.nextHop
  | .communities => .communities route.communities
  | .localPreference => .int route.localPreference
  | .metric => .int route.metric
  | .weight => .int route.weight
  | .tag => .int route.tag
  | .asPath => .asPath route.asPath

@[simp] theorem literal_type (route : Route) (name : Attribute) :
    (route.literal name).type = name.type := by
  cases name <;> rfl

end Route

/-- What the policies, community sets and lists of networks mean that an expression names. -/
structure Names where
  accepts : String → Bool
  members : String → Finset String
  permits : String → Value → Bool

/-- Names without a meaning of their own. -/
def Names.none : Names := ⟨fun _ => false, fun _ => ∅, fun _ _ => false⟩

def Junction.join : Junction → List Bool → Bool
  | .all, values => values.all id
  | .any, values => values.any id

/-- The communities of some value of a list. -/
def Value.union (values : List Value) : Finset String :=
  values.foldr (fun v found => v.members ∪ found) ∅

namespace Expr

mutual

/-- The value of an expression at a route. A construct outside the vocabulary has none to speak
of. -/
def value (names : Names) (route : Route) : Expr → Value
  | lit _ literal => literal.value
  | attr _ name => (route.literal name).value
  | junction _ op operands => .bool (op.join ((values names route operands).map Value.truth))
  | not _ operand => .bool (!(operand.value names route).truth)
  | compare _ comparator left right =>
    .bool (comparator.holds (left.value names route).number (right.value names route).number)
  | hasCommunity _ subject community =>
    .bool (community ∈ (subject.value names route).members)
  | inRanges _ subject ranges _ => .bool ((subject.value names route).inRanges ranges)
  | inList _ subject name _ => .bool (names.permits name (subject.value names route))
  | union _ operands => .communities (Value.union (values names route operands))
  | prepend _ asns operand => .asPath (asns ++ (operand.value names route).asns)
  | call _ policy => .bool (names.accepts policy)
  | adjust _ shift amount => .int (route.localPreference + shift.delta amount)
  | namedSet _ name => .communities (names.members name)
  | unsupported _ _ => .bool false

def values (names : Names) (route : Route) : List Expr → List Value
  | [] => []
  | e :: rest => e.value names route :: values names route rest

end

/-- The value of an expression that names nothing. -/
def valueAt (route : Route) (e : Expr) : Value := e.value Names.none route

/-- Whether a condition is true of a route. -/
def holdsAt (route : Route) (e : Expr) : Bool := (e.valueAt route).truth

variable {names : Names} {route : Route}

theorem values_eq (es : List Expr) : values names route es = es.map (value names route) := by
  induction es with
  | nil => rfl
  | cons e rest ih => simp only [values, ih, List.map_cons]

theorem value_type {e : Expr} (supported : e.isSupported) :
    (e.value names route).type = e.type := by
  cases e with
  | lit _ literal => exact literal.value_type
  | attr _ name => exact (Literal.value_type _).trans (route.literal_type name)
  | unsupported _ _ => cases supported
  | _ => rfl

theorem mem_union {values : List Value} {community : String} :
    community ∈ Value.union values ↔ ∃ v ∈ values, community ∈ v.members := by
  induction values with
  | nil => simp [Value.union]
  | cons v rest ih =>
      simp only [Value.union, List.foldr_cons, Finset.mem_union, List.exists_mem_cons_iff]
      exact or_congr_right ih

/-- What equal expressions have in common, lists of equal expressions have in common. -/
theorem sameAll_map {α : Type} {f : Expr → α} {as bs : List Expr} (equal : sameAll as bs = true)
    (respected : ∀ a ∈ as, ∀ b, same a b = true → f a = f b) : as.map f = bs.map f := by
  induction as generalizing bs with
  | nil =>
      cases bs with
      | nil => rfl
      | cons _ _ => cases equal
  | cons a as ih =>
      cases bs with
      | nil => cases equal
      | cons b bs =>
          simp only [sameAll, Bool.and_eq_true] at equal
          rw [List.map_cons, List.map_cons, respected a (by simp) b equal.1,
            ih equal.2 fun other member => respected other (List.mem_cons_of_mem a member)]

/-- Values of expressions which follow from the values of operands as the operators say. What
attributes, calls, shifts and names come to is left open, and so are the types of that. -/
structure Compositional (v : Expr → Value) : Prop where
  lit : ∀ cls literal, v (.lit cls literal) = literal.value
  junction : ∀ cls op operands,
    v (.junction cls op operands) = .bool (op.join (operands.map fun e => (v e).truth))
  not : ∀ cls operand, v (.not cls operand) = .bool (!(v operand).truth)
  compare : ∀ cls comparator left right, v (.compare cls comparator left right) =
    .bool (comparator.holds (v left).number (v right).number)
  hasCommunity : ∀ cls subject community,
    v (.hasCommunity cls subject community) = .bool (community ∈ (v subject).members)
  inRanges : ∀ cls subject ranges setCls,
    v (.inRanges cls subject ranges setCls) = .bool ((v subject).inRanges ranges)
  union : ∀ cls operands, v (.union cls operands) = .communities (Value.union (operands.map v))
  prepend : ∀ cls asns operand, v (.prepend cls asns operand) = .asPath (asns ++ (v operand).asns)
  inList : ∀ cls cls' subject subject' name setCls setCls', v subject = v subject' →
    v (.inList cls subject name setCls) = v (.inList cls' subject' name setCls')
  leaf : ∀ a b, a.operandType? = none → same a b = true → v a = v b

theorem compositional_value (names : Names) (route : Route) :
    Compositional (value names route) where
  lit _ _ := rfl
  junction _ op operands := by
    rw [value, values_eq, List.map_map]
    rfl
  not _ _ := rfl
  compare _ _ _ _ := rfl
  hasCommunity _ _ _ := rfl
  inRanges _ _ _ _ := rfl
  union _ operands := by rw [value, values_eq]
  prepend _ _ _ := rfl
  inList _ _ _ _ _ _ _ equal := by simp only [value, equal]
  leaf a b leaf equal := by
    unfold same at equal
    split at equal
    case h_1 | h_2 | h_11 | h_12 | h_13 =>
      simp only [Bool.and_eq_true, decide_eq_true_eq] at equal
      simp only [value, equal]
    case h_14 => rfl
    case h_15 => cases equal
    all_goals cases leaf

/-- Expressions that are equal up to spelling have one value. -/
theorem Compositional.same {v : Expr → Value} (compositional : Compositional v) {a b : Expr}
    (equal : same a b = true) : v a = v b := by
  induction a using childrenInduction generalizing b with
  | step a ih =>
    cases takes : a.operandType? with
    | none => exact compositional.leaf a b takes equal
    | some expected =>
      unfold Expr.same at equal
      -- one case for each construct; `ih` is for operands, which are equal up to spelling
      split at equal
      case h_3 cls op as cls' op' bs =>
        simp only [Bool.and_eq_true, decide_eq_true_eq] at equal
        have parts := sameAll_map (f := fun e => (v e).truth) equal.2 fun c member d same =>
          congrArg Value.truth (ih c member same)
        rw [compositional.junction, compositional.junction, equal.1, parts]
      case h_4 =>
        rw [compositional.not, compositional.not, ih _ (List.mem_singleton_self _) equal]
      case h_5 =>
        simp only [Bool.and_eq_true, decide_eq_true_eq] at equal
        have left := ih _ (by simp [children]) equal.1.2
        have right := ih _ (by simp [children]) equal.2
        rw [compositional.compare, compositional.compare, equal.1.1, left, right]
      case h_6 =>
        simp only [Bool.and_eq_true, decide_eq_true_eq] at equal
        have operand := ih _ (List.mem_singleton_self _) equal.2
        rw [compositional.hasCommunity, compositional.hasCommunity, equal.1, operand]
      case h_7 =>
        simp only [Bool.and_eq_true, decide_eq_true_eq] at equal
        have operand := ih _ (List.mem_singleton_self _) equal.2
        rw [compositional.inRanges, compositional.inRanges, equal.1, operand]
      case h_8 =>
        simp only [Bool.and_eq_true, decide_eq_true_eq] at equal
        have operand := ih _ (List.mem_singleton_self _) equal.2
        rw [equal.1]
        exact compositional.inList _ _ _ _ _ _ _ operand
      case h_9 =>
        have parts := sameAll_map (f := v) equal fun c member d same => ih c member same
        rw [compositional.union, compositional.union, parts]
      case h_10 =>
        simp only [Bool.and_eq_true, decide_eq_true_eq] at equal
        have operand := ih _ (List.mem_singleton_self _) equal.2
        rw [compositional.prepend, compositional.prepend, equal.1, operand]
      case h_15 => cases equal
      all_goals cases takes

theorem same_value {a b : Expr} (equal : same a b = true) :
    a.value names route = b.value names route :=
  (compositional_value names route).same equal

end Expr

end RoutePolicy
