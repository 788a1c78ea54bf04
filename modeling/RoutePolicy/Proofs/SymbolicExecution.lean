import RoutePolicy.Proofs.Reading

/-!
Symbolic execution of the policies that documents give. Its paths are a partition of the routes that
satisfy the assumptions, and it says of each route what concrete execution does.
-/

set_option autoImplicit false

namespace RoutePolicy

/-- A policy of a document, without type errors. -/
structure Policy.Valid (p : Policy) : Prop where
  read : ∃ keep j, Encoding.readPolicy keep j = .ok p
  typed : p.wellTyped = true

/-- A well-typed expression of a document that has a type and names nothing. -/
structure Expr.ValidResidual (expected : ValueType) (e : Expr) : Prop where
  read : ∃ keep j, Encoding.readExpr keep j = .ok e
  typed : e.wellTyped = true
  resolved : ∀ x ∈ e.nodes, x.isResolved = true
  hasType : e.type = expected

/-- A record of such expressions. -/
def Record.Valid (r : Record) : Prop := ∀ slot ∈ r.slots, slot.2.ValidResidual slot.1.type

theorem Policy.Valid.usable {p : Policy} (valid : p.Valid) : p.Usable := by
  obtain ⟨keep, j, read⟩ := valid.read
  exact (Encoding.readPolicy_foldable read).usable valid.typed

theorem Expr.ValidResidual.residual {expected : ValueType} {e : Expr}
    (valid : e.ValidResidual expected) : e.ResidualOf expected := by
  obtain ⟨keep, j, read⟩ := valid.read
  have foldable := Encoding.readExpr_foldable read
  have fitted := Expr.wellTyped_iff.mp valid.typed
  refine ⟨?_, valid.hasType⟩
  intro x member
  exact ⟨valid.resolved x member, fitted x member, (foldable x member).written⟩

theorem Record.Valid.residual {r : Record} (valid : r.Valid) : r.Residual :=
  fun slot member => (valid slot member).residual

namespace Sample

/-- Routes with a metric above 5 are preferred, others are rejected. -/
def document : Json :=
  .obj [("name", .str "prefer"), ("statements", .arr [
    .obj [("class", .str "If"),
      ("guard", .obj [("class", .str "IntComparison"), ("comparator", .str "GT"),
        ("left", .obj [("class", .str "RouteAttribute"), ("attribute", .str "metric")]),
        ("right", .obj [("class", .str "LiteralLong"), ("value", .int 5)])]),
      ("trueStatements", .arr [
        .obj [("class", .str "SetLocalPreference"), ("localPreference",
          .obj [("class", .str "IncrementLocalPreference"), ("addend", .int 10)])],
        .obj [("class", .str "StaticStatement"), ("type", .str "ExitAccept")]]),
      ("falseStatements", .arr [])]])]

def high : Expr := .compare none .gt (.ref .metric) (.int 5)

def policy : Policy :=
  ⟨"prefer", [.branch none high
    [.assign none .localPreference (.adjust none .increment 10), .finish none .accept] [] .absent]⟩

def tagged : Expr := .compare none .gt (.ref .tag) (.int 0)

def record : Record := ⟨[(.localPreference, .ref .localPreference), (.metric, .ref .metric)]⟩

def given : Assumed := ⟨[tagged], 1024, []⟩

def route : Route := { Expr.communityRoute with communities := [], metric := 7, tag := 1 }

theorem policy_valid : policy.Valid :=
  ⟨⟨false, document, by with_unfolding_all rfl⟩, by decide⟩

def ref (word : String) : Json := .obj [("class", .str "RouteAttribute"), ("attribute", .str word)]

theorem tagged_valid : tagged.ValidResidual .boolean :=
  ⟨⟨false, .obj [("class", .str "IntComparison"), ("comparator", .str "GT"), ("left", ref "tag"),
    ("right", .obj [("class", .str "LiteralLong"), ("value", .int 0)])], by with_unfolding_all rfl⟩,
    by decide, by decide, rfl⟩

theorem record_valid : record.Valid := by
  intro slot member
  rcases List.mem_cons.mp member with rfl | member
  · exact ⟨⟨false, ref "localPreference", by with_unfolding_all rfl⟩, by decide, by decide, rfl⟩
  · cases List.mem_singleton.mp member
    exact ⟨⟨false, ref "metric", by with_unfolding_all rfl⟩, by decide, by decide, rfl⟩

def position (i : Nat) : Position := [.index 0, .branch true, .index i]

def paths : List Path :=
  [⟨.accept, [tagged, high],
      ⟨[(.localPreference, .adjust none .increment 10), (.metric, .ref .metric)]⟩,
      [.branch "prefer" [.index 0] true true,
        .assign "prefer" [.index 0, .branch true, .index 0] .localPreference true,
        .finish "prefer" [.index 0, .branch true, .index 1] .accept]⟩,
    ⟨.reject, [tagged, .not none high], record,
      [.branch "prefer" [.index 0] false true, .fallOff "prefer"]⟩]

/-- The record of the route. -/
def known : Record := ⟨[(.localPreference, .int 100), (.metric, .int 7)]⟩

theorem comesTo_known : record.ComesTo route known :=
  .cons ⟨rfl, none, .int 100, rfl, rfl⟩ (.cons ⟨rfl, none, .int 7, rfl, rfl⟩ .nil)

end Sample

/-- Paths partition routes: of a route that satisfies all assumptions the condition of exactly one
path is true and the residual of its disposition alone; of another route no condition and no
residual is true. -/
theorem paths_partition_routes [Arithmetic] {given : Assumed} {p : Policy} {r : Record}
    {paths : List Path} (assumed : ∀ c ∈ given.assumptions, c.ValidResidual .boolean)
    (table : ∀ name q, given.table.get? name = some q → q.Valid) (policy : p.Valid)
    (record : r.Valid) (run : evaluatePolicy given p r = .ok paths) (route : Route) :
    (given.assumptions.all (·.holdsAt route) = true →
      ∃ path, paths.filter (·.holdsAt route) = [path] ∧
        ∀ d, (residual paths d).holdsAt route = decide (path.disposition = d)) ∧
    (given.assumptions.all (·.holdsAt route) = false →
      paths.filter (·.holdsAt route) = [] ∧
        ∀ d, (residual paths d).holdsAt route = false) := by
  have usable : given.table.Usable := fun name q found => (table name q found).usable
  have residuals : ∀ c ∈ given.assumptions, c.ResidualOf .boolean :=
    fun c member => (assumed c member).residual
  have partition :=
    evaluatePolicy_partition given residuals usable policy.usable record.residual run
  constructor
  · intro satisfied
    obtain ⟨path, single⟩ := partition.exactlyOne satisfied
    exact ⟨path, single, holdsAt_residual_of_single partition.sound single⟩
  · intro violated
    have nothing := partition.none_of_violated violated
    exact ⟨nothing, holdsAt_residual_of_none partition.sound nothing⟩

theorem sample_paths_partition_routes :
    evaluatePolicy Sample.given Sample.policy Sample.record = .ok Sample.paths ∧
      Sample.given.assumptions.all (·.holdsAt Sample.route) = true ∧
      ∃ path, Sample.paths.filter (·.holdsAt Sample.route) = [path] ∧
        ∀ d, (residual Sample.paths d).holdsAt Sample.route = decide (path.disposition = d) := by
  have run : evaluatePolicy Sample.given Sample.policy Sample.record = .ok Sample.paths := by rfl
  refine ⟨run, by decide, ?_⟩
  exact (paths_partition_routes
    (fun c member => by cases List.mem_singleton.mp member; exact Sample.tagged_valid)
    (fun _ _ found => by cases found) Sample.policy_valid Sample.record_valid run Sample.route).1
    (by decide)

/-- Symbolic execution agrees with concrete execution. For a route that satisfies the assumptions
take the path whose condition it satisfies: over any concrete record that has the values which the
slots have at the route, as the record at the route has, the policy has one path, which ends in the
same disposition with the values that the record of the symbolic path has at the route. -/
theorem symbolic_agrees_with_concrete [Arithmetic] (exact : ∀ i : Int, Arithmetic.round i = i)
    {given : Assumed} {p : Policy} {r : Record} {paths : List Path}
    (assumed : ∀ c ∈ given.assumptions, c.ValidResidual .boolean)
    (table : ∀ name q, given.table.get? name = some q → q.Valid) (policy : p.Valid)
    (record : r.Valid) (run : evaluatePolicy given p r = .ok paths) (route : Route)
    (satisfied : given.assumptions.all (·.holdsAt route) = true) :
    r.ComesTo route (r.atRoute route) ∧
    ∃ path, paths.filter (·.holdsAt route) = [path] ∧
      ∀ c limit, r.ComesTo route c →
        ∃ known, evaluatePolicy ⟨[], limit, given.table⟩ p c = .ok [known] ∧
          known.disposition = path.disposition ∧ path.record.ComesTo route known.record := by
  have usable : given.table.Usable := fun name q found => (table name q found).usable
  have residuals : ∀ c ∈ given.assumptions, c.ResidualOf .boolean :=
    fun c member => (assumed c member).residual
  have partition :=
    evaluatePolicy_partition given residuals usable policy.usable record.residual run
  obtain ⟨path, single⟩ := partition.exactlyOne satisfied
  obtain ⟨member, holds⟩ := List.mem_filter.mp (single ▸ List.mem_singleton_self path)
  refine ⟨Record.comesTo_atRoute route r, path, single, fun c limit comes => ?_⟩
  obtain ⟨known, ran, follows⟩ := evaluatePolicy_agrees exact given residuals usable policy.usable
    record.residual comes run member holds limit
  exact ⟨known, ran, follows.disposition, follows.record⟩

theorem sample_symbolic_agrees_with_concrete :
    ∃ path, Sample.paths.filter (·.holdsAt Sample.route) = [path] ∧
      ∃ known, @evaluatePolicy .exact ⟨[], 1, []⟩ Sample.policy Sample.known = .ok [known] ∧
        known.disposition = path.disposition ∧
        path.record.ComesTo Sample.route known.record := by
  obtain ⟨_, path, single, agrees⟩ := @symbolic_agrees_with_concrete .exact (fun _ => rfl)
    Sample.given Sample.policy Sample.record Sample.paths
    (fun c member => by cases List.mem_singleton.mp member; exact Sample.tagged_valid)
    (fun _ _ found => by cases found) Sample.policy_valid Sample.record_valid (by rfl) Sample.route
    (by decide)
  exact ⟨path, single, agrees Sample.known 1 Sample.comesTo_known⟩

end RoutePolicy
