import RoutePolicy.Proofs.Performing

/-!
Paths of policies and of the policies they call. A call is answered by the condition under which the
called policy accepts; over a concrete record that is a constant.
-/

set_option autoImplicit false

namespace RoutePolicy

namespace Path

/-- A path over residuals. -/
structure Sound (p : Path) : Prop where
  record : p.record.Residual
  condition : ∀ c ∈ p.condition, c.ResidualOf .boolean

/-- Whether a path is the one that a route takes. -/
def holdsAt (route : Route) (p : Path) : Bool := p.condition.all (·.holdsAt route)

/-- A path without conditions that ends where another one does at a route. -/
structure Follows (route : Route) (p known : Path) : Prop where
  disposition : known.disposition = p.disposition
  record : p.record.ComesTo route known.record
  condition : known.condition = []

end Path

/-- Paths over residuals that split the routes which satisfy some conditions. -/
structure Partition (conditions : List Expr) (paths : List Path) : Prop where
  sound : ∀ path ∈ paths, path.Sound
  count : ∀ route, paths.countP (·.holdsAt route) = (conditions.all (·.holdsAt route)).toNat

namespace Partition

variable {conditions : List Expr} {paths : List Path} {route : Route}

theorem exactlyOne (partition : Partition conditions paths)
    (satisfied : conditions.all (·.holdsAt route) = true) :
    ∃ path, paths.filter (·.holdsAt route) = [path] := by
  rw [← List.length_eq_one_iff, ← List.countP_eq_length_filter, partition.count, satisfied]
  rfl

theorem none_of_violated (partition : Partition conditions paths)
    (violated : conditions.all (·.holdsAt route) = false) :
    paths.filter (·.holdsAt route) = [] := by
  rw [← List.length_eq_zero_iff, ← List.countP_eq_length_filter, partition.count, violated]
  rfl

/-- Where some path holds, the conditions are satisfied. -/
theorem satisfied (partition : Partition conditions paths) {path : Path} (member : path ∈ paths)
    (holds : path.holdsAt route = true) : conditions.all (·.holdsAt route) = true := by
  cases same : conditions.all (·.holdsAt route) with
  | true => rfl
  | false =>
      have inside : path ∈ paths.filter (·.holdsAt route) := List.mem_filter.mpr ⟨member, holds⟩
      rw [partition.none_of_violated same] at inside
      cases inside

end Partition

/-! ### Residuals of evaluations -/

theorem residualOf_conditions {paths : List Path} (sound : ∀ path ∈ paths, path.Sound)
    (disposition : Disposition) :
    ∀ e ∈ (paths.filter (·.disposition = disposition)).map (fun p => Expr.all p.condition),
      e.ResidualOf .boolean := by
  rw [List.forall_mem_map]
  intro path member
  have condition := (sound path (List.mem_filter.mp member).1).condition
  exact Expr.residualOf_junction .all condition

theorem residual_residual {paths : List Path} (sound : ∀ path ∈ paths, path.Sound)
    (disposition : Disposition) : (residual paths disposition).ResidualOf .boolean := by
  unfold residual
  split
  · exact Expr.residualOf_bool false
  · exact Expr.residualOf_simplify (Expr.residualOf_junction .any (residualOf_conditions sound _))

/-- The residual of a disposition is true of the routes whose path ends in it. -/
theorem holdsAt_residual {route : Route} {paths : List Path} (sound : ∀ path ∈ paths, path.Sound)
    (disposition : Disposition) :
    (residual paths disposition).holdsAt route =
      (paths.filter (·.disposition = disposition)).any (·.holdsAt route) := by
  unfold residual
  split
  · rename_i nothing
    rw [nothing]
    rfl
  · have conditions := residualOf_conditions sound disposition
    rw [Expr.holdsAt_simplify (e := Expr.any _) (Expr.residualOf_junction .any conditions),
      Expr.holdsAt_any, List.any_map]
    congr 1
    funext path
    exact Expr.holdsAt_all path.condition

/-- Where one path holds, the residual of its disposition holds and no other one. -/
theorem holdsAt_residual_of_single {route : Route} {paths : List Path}
    (sound : ∀ path ∈ paths, path.Sound) {path : Path}
    (single : paths.filter (·.holdsAt route) = [path]) (disposition : Disposition) :
    (residual paths disposition).holdsAt route = decide (path.disposition = disposition) := by
  have among : (paths.filter (·.holdsAt route)).any (·.disposition = disposition) =
      (paths.filter (·.disposition = disposition)).any (·.holdsAt route) := by
    simp only [List.any_filter, Bool.and_comm]
  rw [holdsAt_residual sound, ← among, single]
  simp

/-- Where no path holds, no residual does. -/
theorem holdsAt_residual_of_none {route : Route} {paths : List Path}
    (sound : ∀ path ∈ paths, path.Sound) (nothing : paths.filter (·.holdsAt route) = [])
    (disposition : Disposition) : (residual paths disposition).holdsAt route = false := by
  rw [holdsAt_residual sound, List.any_filter, List.any_eq_false]
  intro path member
  have fails := List.filter_eq_nil_iff.mp nothing path member
  simp [fails]

/-- The residual of a lone path without conditions is a constant. -/
theorem residual_single {path : Path} (certain : path.condition = []) (disposition : Disposition) :
    residual [path] disposition = .bool (path.disposition = disposition) := by
  unfold residual
  by_cases same : path.disposition = disposition
  · simp only [List.filter_cons, same, decide_true, if_true, List.filter_nil, List.map_cons,
      certain, List.map_nil]
    rfl
  · simp only [List.filter_cons, same, decide_false, Bool.false_eq_true, if_false, List.filter_nil]

/-- A table of policies all of which are usable. -/
def Table.Usable (table : Table Policy) : Prop :=
  ∀ name p, table.get? name = some p → p.Usable

namespace Execution

/-! ### Policies -/

theorem toPath_condition (policy : String) (x : Ended) :
    (toPath policy x).condition = x.1.condition := by
  obtain ⟨t, _ | disposition⟩ := x <;> rfl

theorem toPath_record (policy : String) (x : Ended) : (toPath policy x).record = x.1.record := by
  obtain ⟨t, _ | disposition⟩ := x <;> rfl

theorem toPath_disposition (policy : String) (x : Ended) :
    (toPath policy x).disposition = x.2.getD .reject := by
  obtain ⟨t, _ | disposition⟩ := x <;> rfl

theorem toPath_holdsAt (policy : String) (route : Route) (x : Ended) :
    (toPath policy x).holdsAt route = x.1.holdsAt route := by
  rw [Path.holdsAt, toPath_condition, Thread.holdsAt]

variable [Arithmetic]

theorem runPolicy_ok {calls : Calls} {limit : Int} {assumptions : List Expr} {p : Policy}
    {r : Record} {paths : List Path} :
    runPolicy calls limit assumptions p r = .ok paths ↔
      ∃ ended after, runBlock ⟨p.name, limit, calls⟩ [] 0 p.statements ⟨r, assumptions, []⟩ 1 =
        .ok (ended, after) ∧ paths = ended.map (toPath p.name) := by
  unfold runPolicy
  rw [Outcome.bind_ok]
  constructor
  · rintro ⟨⟨ended, after⟩, run, same⟩
    cases same
    exact ⟨ended, after, run, rfl⟩
  · rintro ⟨ended, after, run, rfl⟩
    exact ⟨(ended, after), run, rfl⟩

/-- The paths of a policy split the routes that satisfy its assumptions. -/
theorem runPolicy_partition {calls : Calls} (answers : calls.AnswerResiduals) {limit : Int}
    {assumptions : List Expr} (assumed : ∀ c ∈ assumptions, c.ResidualOf .boolean) {p : Policy}
    (usable : p.Usable) {r : Record} (record : r.Residual) {paths : List Path}
    (run : runPolicy calls limit assumptions p r = .ok paths) : Partition assumptions paths := by
  obtain ⟨ended, after, ran, rfl⟩ := runPolicy_ok.mp run
  have splits := runBlock_splits ⟨p.name, limit, calls⟩ answers [] 0 p.statements usable
    (t := ⟨r, assumptions, []⟩) ⟨record, assumed⟩ ran
  constructor
  · rw [List.forall_mem_map]
    intro x member
    have sound := splits.sound x member
    constructor
    · rw [toPath_record]
      exact sound.record
    · rw [toPath_condition]
      exact sound.condition
  · intro route
    have same : (fun path : Path => path.holdsAt route) ∘ toPath p.name =
        fun x => x.1.holdsAt route := by
      funext x
      exact toPath_holdsAt p.name route x
    rw [List.countP_map, same, splits.count route, Thread.holdsAt]

/-- A policy that can be performed has one path. -/
theorem runPolicy_of_perform {calls : Calls} {p : Policy} {r s : Record} {d : Disposition}
    (performed : p.perform calls r = .ok (d, s)) (limit : Int) (assumptions : List Expr) :
    ∃ path, runPolicy calls limit assumptions p r = .ok [path] ∧ path.disposition = d ∧
      path.record = s ∧ path.condition = assumptions := by
  obtain ⟨ended, done, rfl⟩ := Policy.perform_ok.mp performed
  obtain ⟨y, ran, reaches⟩ := runBlock_of_perform ⟨p.name, limit, calls⟩ [] 0
    p.statements (t := ⟨r, assumptions, []⟩) done 1
  refine ⟨toPath p.name y, runPolicy_ok.mpr ⟨[y], 1, ran, rfl⟩, ?_, ?_, ?_⟩
  · rw [toPath_disposition, reaches.ending]
  · rw [toPath_record, reaches.record]
  · rw [toPath_condition, reaches.condition]

/-- Over a concrete record a policy is performed along the path that holds of the route. -/
theorem runPolicy_performs (exact : ∀ i : Int, Arithmetic.round i = i) {route : Route}
    {calls concrete : Calls} (answers : calls.AnswerResiduals)
    (agree : Calls.Agree route calls concrete) {limit : Int} {assumptions : List Expr}
    (assumed : ∀ c ∈ assumptions, c.ResidualOf .boolean) {p : Policy} (usable : p.Usable)
    {r c : Record} (record : r.Residual) (comes : r.ComesTo route c) {paths : List Path}
    (run : runPolicy calls limit assumptions p r = .ok paths) {path : Path} (member : path ∈ paths)
    (holds : path.holdsAt route = true) :
    ∃ d, p.perform concrete c = .ok (path.disposition, d) ∧ path.record.ComesTo route d := by
  obtain ⟨ended, after, ran, rfl⟩ := runPolicy_ok.mp run
  obtain ⟨x, inside, rfl⟩ := List.mem_map.mp member
  rw [toPath_holdsAt] at holds
  obtain ⟨d, done, comes⟩ := runBlock_performs exact answers agree [] 0 p.statements usable
    ⟨record, assumed⟩ ran inside holds comes
  refine ⟨d, Policy.perform_ok.mpr ⟨x.2, done, toPath_disposition _ _⟩, ?_⟩
  rwa [toPath_record]

/-- Over a concrete record a policy takes the path that holds of the route, and no other one. -/
theorem runPolicy_agrees (exact : ∀ i : Int, Arithmetic.round i = i) {route : Route}
    {calls concrete : Calls} (answers : calls.AnswerResiduals)
    (agree : Calls.Agree route calls concrete) {limit : Int} (otherLimit : Int)
    {assumptions : List Expr} (assumed : ∀ c ∈ assumptions, c.ResidualOf .boolean) {p : Policy}
    (usable : p.Usable)
    {r c : Record} (record : r.Residual) (comes : r.ComesTo route c) {paths : List Path}
    (run : runPolicy calls limit assumptions p r = .ok paths) {path : Path} (member : path ∈ paths)
    (holds : path.holdsAt route = true) :
    ∃ known, runPolicy concrete otherLimit [] p c = .ok [known] ∧ path.Follows route known := by
  obtain ⟨d, done, comes⟩ :=
    runPolicy_performs exact answers agree assumed usable record comes run member holds
  obtain ⟨known, ran, disposition, same, condition⟩ := runPolicy_of_perform done otherLimit []
  exact ⟨known, ran, disposition, same ▸ comes, condition⟩

/-! ### Calls -/

theorem callsFrom_ok {table : Table Policy} {limit : Int} {stack : List String} {name : String}
    {r : Record} {x : Expr} :
    callsFrom table limit stack name r = .ok x ↔
      name ∉ stack ∧ ∃ p paths, table.get? name = some p ∧
        runPolicy (callsFrom table limit (stack ++ [name])) limit [] p r = .ok paths ∧
        x = residual paths .accept := by
  rw [callsFrom]
  split
  · rename_i running
    simp [running]
  · rename_i fresh
    split
    · rename_i missing
      simp [missing]
    · rename_i p found
      simp only [Outcome.bind_ok, found, Option.some.injEq, Except.ok.injEq]
      constructor
      · rintro ⟨paths, run, rfl⟩
        exact ⟨fresh, p, paths, rfl, run, rfl⟩
      · rintro ⟨_, _, paths, rfl, run, rfl⟩
        exact ⟨paths, run, rfl⟩

/-- Calls of usable policies are answered by residuals. -/
theorem callsFrom_answers {table : Table Policy} (usable : table.Usable) (limit : Int)
    (stack : List String) : (callsFrom table limit stack).AnswerResiduals := by
  intro name r x record called
  obtain ⟨fresh, p, paths, found, run, rfl⟩ := callsFrom_ok.mp called
  have answers := callsFrom_answers usable limit (stack ++ [name])
  have partition := runPolicy_partition answers (by simp) (usable name p found) record run
  exact residual_residual partition.sound .accept
termination_by (idle table stack).length
decreasing_by exact idle_lt fresh found

/-- Concrete calls are answered by the constant that the symbolic answer comes to. -/
theorem callsFrom_agrees (exact : ∀ i : Int, Arithmetic.round i = i) (route : Route)
    {table : Table Policy} (usable : table.Usable) (limit otherLimit : Int) (stack : List String) :
    Calls.Agree route (callsFrom table limit stack) (callsFrom table otherLimit stack) := by
  intro name r c x record comes called
  obtain ⟨fresh, p, paths, found, run, rfl⟩ := callsFrom_ok.mp called
  have answers := callsFrom_answers usable limit (stack ++ [name])
  have agree := callsFrom_agrees exact route usable limit otherLimit (stack ++ [name])
  have partition := runPolicy_partition answers (by simp) (usable name p found) record run
  have certain : ([] : List Expr).all (·.holdsAt route) = true := rfl
  obtain ⟨path, single⟩ := partition.exactlyOne certain
  obtain ⟨member, holds⟩ := List.mem_filter.mp (single ▸ List.mem_singleton_self path)
  obtain ⟨known, ran, follows⟩ := runPolicy_agrees exact answers agree otherLimit
    (by simp) (usable name p found) record comes run member holds
  refine ⟨residual [known] .accept, callsFrom_ok.mpr ⟨fresh, p, [known], found, ran, rfl⟩, ?_⟩
  rw [Expr.valueAt_bool (residual_residual partition.sound .accept),
    holdsAt_residual_of_single partition.sound single, residual_single follows.condition,
    follows.disposition]
  exact ⟨none, _, rfl, rfl⟩
termination_by (idle table stack).length
decreasing_by exact idle_lt fresh found

theorem performedCalls_ok {table : Table Policy} {stack : List String} {name : String}
    {r : Record} {x : Expr} :
    performedCalls table stack name r = .ok x ↔
      name ∉ stack ∧ ∃ p d s, table.get? name = some p ∧
        p.perform (performedCalls table (stack ++ [name])) r = .ok (d, s) ∧
        x = .bool (d = .accept) := by
  rw [performedCalls]
  split
  · rename_i running
    simp [running]
  · rename_i fresh
    split
    · rename_i missing
      simp [missing]
    · rename_i p found
      simp only [Outcome.bind_ok, found, Option.some.injEq, Except.ok.injEq, Prod.exists]
      constructor
      · rintro ⟨d, s, done, rfl⟩
        exact ⟨fresh, p, d, s, rfl, done, rfl⟩
      · rintro ⟨_, _, d, s, rfl, done, rfl⟩
        exact ⟨d, s, done, rfl⟩

/-- A called policy is performed as its symbolic answer says. -/
theorem performedCalls_agrees (exact : ∀ i : Int, Arithmetic.round i = i) (route : Route)
    {table : Table Policy} (usable : table.Usable) (limit : Int) (stack : List String) :
    Calls.Agree route (callsFrom table limit stack) (performedCalls table stack) := by
  intro name r c x record comes called
  obtain ⟨fresh, p, paths, found, run, rfl⟩ := callsFrom_ok.mp called
  have answers := callsFrom_answers usable limit (stack ++ [name])
  have agree := performedCalls_agrees exact route usable limit (stack ++ [name])
  have partition := runPolicy_partition answers (by simp) (usable name p found) record run
  have certain : ([] : List Expr).all (·.holdsAt route) = true := rfl
  obtain ⟨path, single⟩ := partition.exactlyOne certain
  obtain ⟨member, holds⟩ := List.mem_filter.mp (single ▸ List.mem_singleton_self path)
  obtain ⟨d, done, _⟩ := runPolicy_performs exact answers agree (by simp) (usable name p found)
    record comes run member holds
  refine ⟨_, performedCalls_ok.mpr ⟨fresh, p, _, d, found, done, rfl⟩, ?_⟩
  rw [Expr.valueAt_bool (residual_residual partition.sound .accept),
    holdsAt_residual_of_single partition.sound single]
  exact ⟨none, _, rfl, rfl⟩
termination_by (idle table stack).length
decreasing_by exact idle_lt fresh found

end Execution

variable [Arithmetic]

theorem evaluatePolicy_partition (given : Assumed) {p : Policy} {r : Record} {paths : List Path}
    (assumed : ∀ c ∈ given.assumptions, c.ResidualOf .boolean) (table : given.table.Usable)
    (usable : p.Usable) (record : r.Residual) (run : evaluatePolicy given p r = .ok paths) :
    Partition given.assumptions paths :=
  Execution.runPolicy_partition (Execution.callsFrom_answers table _ _) assumed usable record run

theorem evaluatePolicy_performs (exact : ∀ i : Int, Arithmetic.round i = i) {route : Route}
    (given : Assumed) {p : Policy} {r c : Record} {paths : List Path}
    (assumed : ∀ c ∈ given.assumptions, c.ResidualOf .boolean) (table : given.table.Usable)
    (usable : p.Usable) (record : r.Residual) (comes : r.ComesTo route c)
    (run : evaluatePolicy given p r = .ok paths) {path : Path} (member : path ∈ paths)
    (holds : path.holdsAt route = true) {concrete : Calls}
    (agree : Calls.Agree route (Execution.callsFrom given.table given.limit [p.name]) concrete) :
    ∃ d, p.perform concrete c = .ok (path.disposition, d) ∧ path.record.ComesTo route d :=
  Execution.runPolicy_performs exact (Execution.callsFrom_answers table _ _) agree assumed usable
    record comes run member holds

theorem evaluatePolicy_agrees (exact : ∀ i : Int, Arithmetic.round i = i) {route : Route}
    (given : Assumed) {p : Policy} {r c : Record} {paths : List Path}
    (assumed : ∀ c ∈ given.assumptions, c.ResidualOf .boolean) (table : given.table.Usable)
    (usable : p.Usable) (record : r.Residual) (comes : r.ComesTo route c)
    (run : evaluatePolicy given p r = .ok paths) {path : Path} (member : path ∈ paths)
    (holds : path.holdsAt route = true) (limit : Int) :
    ∃ known, evaluatePolicy ⟨[], limit, given.table⟩ p c = .ok [known] ∧
      path.Follows route known :=
  Execution.runPolicy_agrees exact (Execution.callsFrom_answers table _ _)
    (Execution.callsFrom_agrees exact route table _ _ _) limit assumed usable record comes run
    member holds

end RoutePolicy
