import RoutePolicy.Proofs.Known
import RoutePolicy.Proofs.Reading

/-!
Records of values given for some attributes of a route. The attributes that are not given are those
of the route.
-/

set_option autoImplicit false

namespace RoutePolicy

namespace Route

/-- The record of a route. -/
def record (route : Route) : Record :=
  ⟨Attribute.all.map fun name => (name, .lit none (route.literal name))⟩

/-- The value given for an attribute, else the one of the route. -/
def literalOver (route : Route) (values : List Given) (name : Attribute) : Literal :=
  ((Given.find? values name).bind fun given => given.literal.toOption).getD (route.literal name)

/-- The record of a route some attributes of which are given. -/
def overridden (route : Route) (values : List Given) : Record :=
  ⟨Attribute.all.map fun name => (name, .lit none (route.literalOver values name))⟩

end Route

/-! ### Given values -/

theorem Given.name_of_find? {values : List Given} {name : Attribute} {given : Given}
    (found : Given.find? values name = some given) : given.name = name := by
  simpa using List.find?_some found

/-- A value that was given is a literal of its attribute's type. -/
theorem Given.literal_residual {given : Given} {l : Literal} (valid : given.literal = .ok l) :
    (Expr.lit none l).ResidualOf given.name.type := by
  have integers : ∀ {name : Attribute} {value : Number}, Given.integer name value = .ok l →
      (Expr.lit none l).ResidualOf .integer := by
    intro name value found
    unfold Given.integer at found
    split at found
    · cases found
      exact Expr.residualOf_int _
    · cases found
  cases given with
  | network text =>
      simp only [Given.literal] at valid
      split at valid
      · rename_i parses
        cases valid
        exact Expr.residualOf_lit (Network.isSome_parse? parses)
      · cases valid
  | nextHop text =>
      simp only [Given.literal] at valid
      split at valid
      · cases valid
        exact Expr.residualOf_lit rfl
      · cases valid
  | communities texts =>
      simp only [Given.literal] at valid
      split at valid
      · cases valid
      · cases valid
        exact Expr.residualOf_lit rfl
  | asPath asns =>
      simp only [Given.literal] at valid
      split at valid
      · cases valid
        exact Expr.residualOf_lit rfl
      · cases valid
  | localPreference value | metric value | weight value | tag value => exact integers valid

/-- The slots of a record are literals of given values, and attributes that are left open. -/
theorem Record.mem_givenSlots {values : List Given} {openSlots : Bool} {names : List Attribute}
    {slots : List (Attribute × Expr)} (given : givenSlots values openSlots names = .ok slots) :
    ∀ slot ∈ slots,
      (∃ value : Given, ∃ l, value.literal = .ok l ∧ slot = (value.name, .lit none l)) ∨
        (openSlots = true ∧ slot.2 = .ref slot.1) := by
  induction names generalizing slots with
  | nil =>
      cases given
      exact List.forall_mem_nil _
  | cons name rest ih =>
      obtain ⟨slot, own, given⟩ := Outcome.bind_ok.mp given
      obtain ⟨others, later, same⟩ := Outcome.bind_ok.mp given
      cases same
      refine List.forall_mem_append.mpr ⟨?_, ih later⟩
      unfold givenSlot at own
      split at own
      · rename_i value found
        obtain ⟨l, valid, same⟩ := Outcome.bind_ok.mp own
        cases same
        rw [← Given.name_of_find? found]
        exact List.forall_mem_singleton.mpr (.inl ⟨value, l, valid, rfl⟩)
      · cases own
        cases openSlots with
        | true => exact List.forall_mem_singleton.mpr (.inr ⟨rfl, rfl⟩)
        | false => exact List.forall_mem_nil _

/-- The same of the record. -/
theorem Record.given_of_mem {values : List Given} {openSlots : Bool} {r : Record}
    (given : ofGiven values openSlots = .ok r) :
    ∀ slot ∈ r.slots,
      (∃ value : Given, ∃ l, value.literal = .ok l ∧ slot = (value.name, .lit none l)) ∨
        (openSlots = true ∧ slot.2 = .ref slot.1) := by
  obtain ⟨slots, done, same⟩ := Outcome.bind_ok.mp given
  cases same
  exact mem_givenSlots done

/-- The slots of a record of given values are literals of the right types, and attributes that are
left open. -/
theorem Record.mem_ofGiven {values : List Given} {openSlots : Bool} {r : Record}
    (given : ofGiven values openSlots = .ok r) :
    ∀ slot ∈ r.slots, (∃ l, slot.2 = .lit none l ∧ (Expr.lit none l).ResidualOf slot.1.type) ∨
      (openSlots = true ∧ slot.2 = .ref slot.1) := by
  intro slot member
  rcases given_of_mem given slot member with ⟨value, l, valid, rfl⟩ | open'
  · exact .inl ⟨l, rfl, Given.literal_residual valid⟩
  · exact .inr open'

theorem Record.givenSlots_ok {values : List Given} {names : List Attribute}
    {slots : List (Attribute × Expr)} (given : Record.givenSlots values true names = .ok slots) :
    Record.Residual ⟨slots⟩ ∧ ∀ route : Route, Record.ComesTo route ⟨slots⟩
      ⟨names.map fun name => (name, .lit none (route.literalOver values name))⟩ := by
  induction names generalizing slots with
  | nil =>
      cases given
      exact ⟨nofun, fun _ => .nil⟩
  | cons name rest ih =>
      obtain ⟨slot, own, given⟩ := Outcome.bind_ok.mp given
      obtain ⟨others, later, same⟩ := Outcome.bind_ok.mp given
      cases same
      obtain ⟨residuals, comes⟩ := ih later
      unfold Record.givenSlot at own
      split at own
      · rename_i value found
        obtain ⟨l, valid, same⟩ := Outcome.bind_ok.mp own
        cases same
        constructor
        · have own := Given.literal_residual valid
          rw [Given.name_of_find? found] at own
          exact List.forall_mem_cons.mpr ⟨own, residuals⟩
        · intro route
          have chosen : route.literalOver values name = l := by
            simp [Route.literalOver, found, valid, Except.toOption]
          refine .cons ⟨rfl, none, _, rfl, ?_⟩ (comes route)
          rw [chosen]
          rfl
      · rename_i missing
        cases own
        constructor
        · exact List.forall_mem_cons.mpr ⟨Expr.residualOf_ref name, residuals⟩
        · intro route
          have chosen : route.literalOver values name = route.literal name := by
            simp [Route.literalOver, missing]
          refine .cons ⟨rfl, none, _, rfl, ?_⟩ (comes route)
          rw [chosen]
          rfl

/-- The record of given values comes to the route overridden by these values. -/
theorem Record.ofGiven_ok {values : List Given} {r : Record}
    (given : Record.ofGiven values true = .ok r) :
    r.Residual ∧ ∀ route : Route, r.ComesTo route (route.overridden values) := by
  obtain ⟨slots, found, same⟩ := Outcome.bind_ok.mp given
  cases same
  exact Record.givenSlots_ok found

theorem Route.literalOver_network (route : Route) (name : Attribute) :
    route.literalOver [.network route.network] name = route.literal name := by
  cases name with
  | network =>
      simp only [literalOver, Given.find?, List.find?_cons, Given.name, decide_true,
        Option.bind_some, Given.literal]
      split <;> rfl
  | _ => rfl

/-- A route that is given its own network is itself. -/
theorem Route.overridden_network {route : Route} {text : String} (same : route.network = text) :
    route.overridden [.network text] = route.record := by
  subst same
  simp only [overridden, literalOver_network, record]

/-! ### Records of all attributes -/

namespace Record

/-- Every attribute that is given has the slot of its value. -/
theorem givenSlots_find? {values : List Given} {openSlots : Bool} {names : List Attribute}
    {slots : List (Attribute × Expr)} (done : givenSlots values openSlots names = .ok slots)
    {name : Attribute} (listed : name ∈ names) {given : Given}
    (found : Given.find? values name = some given) :
    ∃ l, given.literal = .ok l ∧ get? ⟨slots⟩ name = some (.lit none l) := by
  induction names generalizing slots with
  | nil => cases listed
  | cons first rest ih =>
      obtain ⟨slot, own, done⟩ := Outcome.bind_ok.mp done
      obtain ⟨others, later, same⟩ := Outcome.bind_ok.mp done
      cases same
      by_cases here : first = name
      · subst here
        simp only [givenSlot, found] at own
        obtain ⟨l, valid, same⟩ := Outcome.bind_ok.mp own
        cases same
        exact ⟨l, valid, by simp [get?]⟩
      · have further : name ∈ rest := (List.mem_cons.mp listed).resolve_left (Ne.symm here)
        obtain ⟨l, valid, known⟩ := ih later further
        refine ⟨l, valid, ?_⟩
        -- the slot that stands before belongs to another attribute
        have other : ∀ x ∈ slot.toList, x.1 ≠ name := by
          unfold givenSlot at own
          split at own
          · obtain ⟨_, _, same⟩ := Outcome.bind_ok.mp own
            cases same
            simpa using here
          · cases own
            split
            · simpa using here
            · simp
        have skipped : slot.toList.find? (·.1 = name) = none := by
          rw [List.find?_eq_none]
          intro x member
          simpa using other x member
        simpa [get?, List.find?_append, skipped] using known

/-- A record all attributes of which are given knows a route. -/
theorem knows_of_given {values : List Given} {openSlots : Bool} {full : Record}
    (given : ofGiven values openSlots = .ok full)
    (complete : ∀ name, (Given.find? values name).isSome = true) :
    ∃ route, full.Knows route := by
  obtain ⟨slots, done, same⟩ := Outcome.bind_ok.mp given
  cases same
  have literals : ∀ name, ∃ l, get? ⟨slots⟩ name = some (.lit none l) ∧
      (Expr.lit none l).ResidualOf name.type := by
    intro name
    obtain ⟨value, found⟩ := Option.isSome_iff_exists.mp (complete name)
    obtain ⟨l, valid, slot⟩ := givenSlots_find? done (Attribute.mem_all name) found
    have residual := Given.literal_residual valid
    rw [Given.name_of_find? found] at residual
    exact ⟨l, slot, residual⟩
  choose f slot residual using literals
  obtain ⟨route, same⟩ := Route.exists_of_literals f (fun name => (residual name).2)
    fun name => (residual name).1.root.written
  exact ⟨route, fun name => ⟨_, slot name, none, f name, rfl, by rw [same]⟩⟩

end Record

end RoutePolicy
