import RoutePolicy.Proofs.Concrete
import RoutePolicy.Proofs.GivenRoutes

/-!
Records that have a literal in every slot, whatever its type. Policies are read without a look at
types, so an attribute may come to hold any value.
-/

set_option autoImplicit false

namespace RoutePolicy

/-! ### Literals -/

namespace Expr

/-- A literal, and a well-formed one if it is a network. -/
structure Definite (e : Expr) : Prop where
  literal : e.isLiteral = true
  written : e.isWritten = true

/-- Literals of one value. -/
def SameLiteral (y z : Expr) : Prop := ∃ v, y.Denotes v ∧ z.Denotes v

variable {x y z : Expr}

theorem Definite.residual (definite : y.Definite) : y.ResidualOf y.type := by
  obtain ⟨literal, written⟩ := definite
  cases y with
  | lit cls l => exact residualOf_lit written
  | _ => cases literal

theorem Definite.sameLiteral (definite : y.Definite) : y.SameLiteral y :=
  ⟨y.valueAt Route.blank, denotes_of_isLiteral definite.literal,
    denotes_of_isLiteral definite.literal⟩

theorem SameLiteral.denotes {v : Value} (same : y.SameLiteral z) (denotes : y.Denotes v) :
    z.Denotes v := by
  obtain ⟨w, first, second⟩ := same
  have here : y.valueAt Route.blank = v := denotes.valueAt
  have equal : v = w := here.symm.trans first.valueAt
  exact equal ▸ second

theorem SameLiteral.bool? {value : Bool} (same : y.SameLiteral z)
    (constant : y.bool? = some value) : z.bool? = some value := by
  obtain ⟨cls, rfl⟩ := bool?_eq_some constant
  exact (same.denotes ⟨cls, _, rfl, rfl⟩).bool?

theorem SameLiteral.trans (first : x.SameLiteral y) (second : y.SameLiteral z) :
    x.SameLiteral z := by
  obtain ⟨v, left, right⟩ := first
  exact ⟨v, left, second.denotes right⟩

theorem SameLiteral.definite (same : y.SameLiteral z) (definite : y.Definite) : z.Definite := by
  obtain ⟨v, ⟨cls, l, rfl, value⟩, denotes⟩ := same
  refine ⟨denotes.isLiteral, ?_⟩
  obtain ⟨cls', l', rfl, value'⟩ := denotes
  subst value
  cases l' with
  | network text =>
      cases l <;> cases value'
      exact definite.written
  | _ => rfl

end Expr

/-! ### Records -/

namespace Record

/-- A record with a literal in every slot. -/
def Definite (r : Record) : Prop := ∀ slot ∈ r.slots, slot.2.Definite

/-- Records of the same attributes, each with one value in both. Sets of communities have no
order. -/
def SameValues (c d : Record) : Prop :=
  List.Forall₂ (fun slot other => other.1 = slot.1 ∧ slot.2.SameLiteral other.2) c.slots d.slots

/-- A record without open slots, and one with the same values. -/
structure Twin (c d : Record) : Prop where
  definite : c.Definite
  values : c.SameValues d

variable {c d e s : Record} {name : Attribute} {y z : Expr}

theorem Definite.twin (definite : c.Definite) : c.Twin c :=
  ⟨definite, List.forall₂_same.mpr fun slot member => ⟨rfl, (definite slot member).sameLiteral⟩⟩

theorem Twin.other (twin : c.Twin d) : d.Definite := by
  refine forall₂_right twin.values twin.definite ?_
  rintro slot other definite ⟨-, same⟩
  exact same.definite definite

theorem Twin.trans (first : c.Twin d) (second : d.Twin e) : c.Twin e := by
  refine ⟨first.definite, forall₂_through first.values second.values ?_⟩
  rintro slot other last ⟨named, same⟩ ⟨renamed, again⟩
  exact ⟨renamed.trans named, same.trans again⟩

/-- Records without open slots have the same values if one comes to the other. -/
theorem Definite.sameValues_iff (definite : c.Definite) (route : Route) :
    c.SameValues d ↔ c.ComesTo route d := by
  constructor
  · refine List.Forall₂.imp ?_
    rintro slot other ⟨named, v, denotes, same⟩
    exact ⟨named, denotes.valueAt ▸ same⟩
  · intro comes
    refine ((List.forall₂_and_left _ _).mpr ⟨definite, comes⟩).imp ?_
    rintro slot other ⟨definite, named, denotes⟩
    exact ⟨named, _, Expr.denotes_of_isLiteral definite.literal, denotes⟩

theorem Twin.get? (twin : c.Twin d) (found : c.get? name = some y) :
    ∃ z, d.get? name = some z ∧ y.SameLiteral z := by
  obtain ⟨z, also, denotes⟩ :=
    ((twin.definite.sameValues_iff Route.blank).mp twin.values).get? found
  have definite := twin.definite (name, y) (mem_of_get? found)
  exact ⟨z, also, _, Expr.denotes_of_isLiteral definite.literal, denotes⟩

theorem Definite.assign (definite : c.Definite) (value : y.Definite)
    (assigned : c.assign name y = .ok s) : s.Definite :=
  forall_assign (P := fun slot => slot.2.Definite) definite value assigned

/-- Records stay twins when an attribute gets one value in both. -/
theorem Twin.assign (twin : c.Twin d) (value : y.Definite) (assigned : c.assign name y = .ok s)
    (same : y.SameLiteral z) : ∃ s', d.assign name z = .ok s' ∧ s.Twin s' := by
  have comes := (twin.definite.sameValues_iff Route.blank).mp twin.values
  obtain ⟨s', also, becomes⟩ := comes.assign assigned
    (same.denotes (Expr.denotes_of_isLiteral value.literal))
  have definite := twin.definite.assign value assigned
  exact ⟨s', also, definite, (definite.sameValues_iff Route.blank).mpr becomes⟩

/-- A record of given values leaves nothing open unless it is told to. -/
theorem definite_of_ofGiven {values : List Given} {r : Record}
    (given : ofGiven values false = .ok r) : r.Definite := by
  intro slot member
  rcases mem_ofGiven given slot member with ⟨l, own, residual⟩ | ⟨impossible, -⟩
  · exact own ▸ ⟨rfl, residual.1.root.written⟩
  · cases impossible

end Record

/-- Calls that are answered by truth values over records without open slots, and whose answers other
calls repeat over twins of these records. -/
def Calls.Echoed (calls others : Calls) : Prop :=
  ∀ policy c d x, c.Twin d → calls policy c = .ok x →
    x.LiteralOf .boolean ∧ ∃ z, others policy d = .ok z ∧ x.SameLiteral z

end RoutePolicy
