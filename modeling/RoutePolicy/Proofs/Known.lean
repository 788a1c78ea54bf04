import RoutePolicy.Proofs.Evaluation

/-!
Evaluation over a record that has attributes of a route. Nothing is left open: the result of an
expression that reads no other attribute is the literal of the value that it has at the route.
-/

set_option autoImplicit false

namespace RoutePolicy

/-! ### Records that know a route -/

/-- A record that has a literal for every attribute of a route. -/
def Record.Knows (route : Route) (c : Record) : Prop :=
  ∀ name, ∃ y, c.get? name = some y ∧ y.Denotes (route.literal name).value

/-- A record the slots of which are literals for attributes of a route. -/
def Record.Tells (route : Route) (c : Record) : Prop :=
  ∀ name y, c.get? name = some y → y.Denotes (route.literal name).value

theorem Record.Knows.tells {route : Route} {c : Record} (knows : c.Knows route) :
    c.Tells route := by
  intro name y found
  obtain ⟨z, same, denotes⟩ := knows name
  rw [found] at same
  cases same
  exact denotes

theorem Record.Knows.has {route : Route} {c : Record} (knows : c.Knows route) (name : Attribute) :
    c.has name = true := by
  obtain ⟨y, found, _⟩ := knows name
  exact Option.isSome_iff_exists.mpr ⟨y, found⟩

/-- Literals of the right types are the attributes of a route. -/
theorem Route.exists_of_literals (f : Attribute → Literal)
    (typed : ∀ name, (f name).type = name.type)
    (written : ∀ name, (Expr.lit none (f name)).isWritten = true) :
    ∃ route : Route, ∀ name, route.literal name = f name := by
  have integer : ∀ name, name.type = .integer → ∃ i, f name = .int i := by
    intro name same
    have own := (typed name).trans same
    cases found : f name <;> rw [found] at own <;> cases own
    exact ⟨_, rfl⟩
  obtain ⟨network, networkIs⟩ : ∃ text, f .network = .network text := by
    have own := typed .network
    cases found : f .network <;> rw [found] at own <;> cases own
    exact ⟨_, rfl⟩
  obtain ⟨nextHop, nextHopIs⟩ : ∃ text, f .nextHop = .address text := by
    have own := typed .nextHop
    cases found : f .nextHop <;> rw [found] at own <;> cases own
    exact ⟨_, rfl⟩
  obtain ⟨members, membersIs⟩ : ∃ members, f .communities = .communities members := by
    have own := typed .communities
    cases found : f .communities <;> rw [found] at own <;> cases own
    exact ⟨_, rfl⟩
  obtain ⟨asns, asnsIs⟩ : ∃ asns, f .asPath = .asPath asns := by
    have own := typed .asPath
    cases found : f .asPath <;> rw [found] at own <;> cases own
    exact ⟨_, rfl⟩
  obtain ⟨localPreference, preferenceIs⟩ := integer .localPreference rfl
  obtain ⟨metric, metricIs⟩ := integer .metric rfl
  obtain ⟨weight, weightIs⟩ := integer .weight rfl
  obtain ⟨tag, tagIs⟩ := integer .tag rfl
  have parses : (Network.parse? network).isSome = true := by
    have own := written .network
    rwa [networkIs] at own
  refine ⟨⟨network, nextHop, members, localPreference, metric, weight, tag, asns, parses⟩, ?_⟩
  intro name
  cases name <;> simp only [literal, networkIs, nextHopIs, membersIs, asnsIs, preferenceIs,
    metricIs, weightIs, tagIs]

namespace Expr

variable {names : Names} {route : Route}

/-! ### Expressions -/

/-- A node that names nothing and reads only attributes that a record has, or a policy whose answer
over the record is known. -/
def Answered (names : Names) (calls : Calls) (c : Record) : Expr → Prop
  | call _ policy => ∃ y, calls policy c = .ok y ∧ y.Denotes (.bool (names.accepts policy))
  | attr _ name => c.has name = true
  | adjust _ _ _ => c.has .localPreference = true
  | e => e.isResolved = true

/-- A node that evaluation over a record of literals decides. -/
structure Closed (names : Names) (calls : Calls) (c : Record) (e : Expr) : Prop where
  foldable : Foldable e
  fits : e.fitted = true
  answered : Answered names calls c e

variable {calls : Calls} {c : Record} {e : Expr}

theorem Answered.of_resolved (knows : c.Knows route) (resolved : e.isResolved = true) :
    Answered names calls c e := by
  cases e with
  | call _ _ => cases resolved
  | attr _ name => exact knows.has name
  | adjust _ _ _ => exact knows.has .localPreference
  | _ => exact resolved

theorem Answered.isSupported (answered : Answered names calls c e) : e.isSupported = true := by
  cases e with
  | call _ _ | attr _ _ | adjust _ _ _ => rfl
  | _ => exact isSupported_of_isResolved answered

theorem Closed.proper (node : Closed names calls c e) : Proper e :=
  ⟨node.answered.isSupported, node.fits⟩

/-- The literal that a closed node comes to is a residual of its type. -/
theorem Closed.residual {y : Expr} (node : Closed names calls c e)
    (denotes : y.Denotes (e.value names route)) : y.ResidualOf e.type := by
  have typed : y.type = e.type := denotes.type.trans (value_type node.proper.supported)
  obtain ⟨cls, l, rfl, same⟩ := denotes
  refine typed ▸ residualOf_lit ?_
  cases l with
  | network text => exact parses_value node.foldable.written typed.symm same.symm
  | _ => rfl

variable [Arithmetic]

/-- An operator comes to the literal of its value when its operands do. -/
theorem operator_known (operator : e.isOperator = true) (node : Closed names calls c e)
    {ys : List Expr}
    (evaluated : List.Forall₂ (fun part y => part.evaluate calls c = .ok y) e.children ys)
    (types : ys.map type = e.children.map type)
    (values : ys.map (value names route) = e.children.map (value names route))
    (literals : ∀ y ∈ ys, y.isLiteral = true) (residuals : ∀ y ∈ ys, y.Each Residual) :
    ∃ y, e.evaluate calls c = .ok y ∧ y.Denotes (e.value names route) := by
  have lengths : ys.length = e.children.length := evaluated.length_eq.symm
  have fits := (node.proper.withChildren types).fits
  have known := each_of_operands operator fits lengths residuals
  have literal : (e.withChildren ys).simplifyNode.isLiteral = true :=
    isLiteral_simplifyNode ((isOperator_withChildren e ys).trans operator)
      (node.foldable.withChildren lengths) known (by rwa [children_withChildren lengths])
  have same : (e.withChildren ys).simplifyNode.value names route = e.value names route :=
    (value_simplifyNode (known.mono fun _ => Residual.proper)).trans (value_withChildren values)
  refine ⟨_, (evaluate_operator operator).mpr ⟨ys, evaluated, fits, rfl⟩, ?_⟩
  rw [← same]
  exact denotes_value literal

/-- Literals for the parts of a node, from one for each. -/
theorem parts_known {parts : List Expr} (nodes : ∀ part ∈ parts, Closed names calls c part)
    (known : ∀ part ∈ parts,
      ∃ y, part.evaluate calls c = .ok y ∧ y.Denotes (part.value names route)) :
    ∃ ys, List.Forall₂ (fun part y => part.evaluate calls c = .ok y) parts ys ∧
      ys.map type = parts.map type ∧
      ys.map (value names route) = parts.map (value names route) ∧
      (∀ y ∈ ys, y.isLiteral = true) ∧ ∀ y ∈ ys, y.Each Residual := by
  induction parts with
  | nil => exact ⟨[], .nil, rfl, rfl, by simp, by simp⟩
  | cons part rest ih =>
      obtain ⟨node, others⟩ := List.forall_mem_cons.mp nodes
      obtain ⟨⟨y, here, denotes⟩, later⟩ := List.forall_mem_cons.mp known
      obtain ⟨ys, evaluated, types, values, literals, residuals⟩ := ih others later
      have residual : y.ResidualOf part.type := node.residual denotes
      have typed : y.type = part.type := residual.2
      refine ⟨y :: ys, .cons here evaluated, ?_, ?_, ?_, ?_⟩
      · rw [List.map_cons, List.map_cons, types, typed]
      · rw [List.map_cons, List.map_cons, values, denotes.value]
      · exact List.forall_mem_cons.mpr ⟨denotes.isLiteral, literals⟩
      · exact List.forall_mem_cons.mpr ⟨residual.1, residuals⟩

/-- A known local preference is moved by what is added to it, when sums are exact. -/
theorem moved_known (exact : ∀ i : Int, Arithmetic.round i = i) {current : Expr} {i : Int}
    (denotes : current.Denotes (.int i)) (delta : Int) :
    ∃ y, current.moved delta = .ok y ∧ y.Denotes (.int (i + delta)) := by
  obtain ⟨cls, l, rfl, same⟩ := denotes
  cases l <;> cases same
  refine ⟨_, rfl, none, .int _, rfl, ?_⟩
  rw [Literal.value, exact]

/-- Over a record of a route's attributes an expression that it decides comes to its value at the
route. -/
theorem evaluate_known (exact : ∀ i : Int, Arithmetic.round i = i) (tells : c.Tells route)
    (closed : e.Each (Closed names calls c)) :
    ∃ y, e.evaluate calls c = .ok y ∧ y.Denotes (e.value names route) := by
  induction e using childrenInduction with
  | step e ih =>
    cases e with
    | junction _ _ _ | union _ _ | compare _ _ _ _ | not _ _ | prepend _ _ _ | hasCommunity _ _ _
    | inRanges _ _ _ _ =>
        obtain ⟨ys, evaluated, types, values, literals, residuals⟩ := parts_known
          (fun part member => (closed.child member).root)
          (fun part member => ih part member (closed.child member))
        exact operator_known rfl closed.root evaluated types values literals residuals
    | lit cls literal => exact ⟨_, rfl, cls, literal, rfl, rfl⟩
    | attr cls name =>
        obtain ⟨y, found⟩ := Option.isSome_iff_exists.mp closed.root.answered
        exact ⟨y, Record.lookup_ok.mpr found, tells name y found⟩
    | call cls policy => exact closed.root.answered
    | adjust cls shift amount =>
        obtain ⟨current, found⟩ := Option.isSome_iff_exists.mp closed.root.answered
        have denotes := tells .localPreference current found
        obtain ⟨y, moved, same⟩ := moved_known exact denotes (shift.delta amount)
        exact ⟨y, Outcome.bind_ok.mpr ⟨current, Record.lookup_ok.mpr found, moved⟩, same⟩
    | inList _ _ _ _ | namedSet _ _ | unsupported _ _ => cases closed.root.answered

end Expr

end RoutePolicy
