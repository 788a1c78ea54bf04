import RoutePolicy.Proofs.Policies

/-!
Paths of chains of policies. Every policy splits the routes of the threads that passed the ones
before it; over a concrete record one thread runs through the chain.
-/

set_option autoImplicit false

namespace RoutePolicy

namespace Chain

variable {route : Route}

theorem sound_toThread {path : Path} (sound : path.Sound) : (toThread path).Sound :=
  ⟨sound.record, sound.condition⟩

/-- Finished paths and threads that passed, which split the routes that satisfy some conditions. -/
structure Covers (conditions : List Expr) (finished : List Path) (passed : List Thread) : Prop where
  paths : ∀ path ∈ finished, path.Sound
  threads : ∀ t ∈ passed, t.Sound
  count : ∀ route, finished.countP (·.holdsAt route) + passed.countP (·.holdsAt route) =
    (conditions.all (·.holdsAt route)).toNat

theorem Covers.partition {conditions : List Expr} {finished : List Path} {passed : List Thread}
    (covers : Covers conditions finished passed) (last : String) :
    Partition conditions (finished ++ passed.map (dropped last)) where
  sound path member := by
    rcases List.mem_append.mp member with ended | late
    · exact covers.paths path ended
    · obtain ⟨t, inside, rfl⟩ := List.mem_map.mp late
      exact ⟨(covers.threads t inside).record, (covers.threads t inside).condition⟩
  count route := by
    rw [List.countP_append, List.countP_map]
    exact covers.count route

variable [Arithmetic]

/-- The paths of a policy continue the thread they start from. -/
theorem extend_ok {given : Assumed} {p : Policy} {t : Thread} {paths : List Path} :
    extend given p t = .ok paths ↔ ∃ own,
      evaluatePolicy ⟨t.condition, given.limit, given.table⟩ p t.record = .ok own ∧
      paths = own.map fun path => { path with trace := t.trace ++ path.trace } := by
  unfold extend
  rw [Outcome.bind_ok]
  simp only [Except.ok.injEq, eq_comm]

theorem extend_partition {given : Assumed} (table : given.table.Usable) {p : Policy}
    (usable : p.Usable) {t : Thread} (sound : t.Sound) {paths : List Path}
    (run : extend given p t = .ok paths) : Partition t.condition paths := by
  obtain ⟨own, evaluated, rfl⟩ := extend_ok.mp run
  have partition := evaluatePolicy_partition ⟨t.condition, given.limit, given.table⟩
    sound.condition table usable sound.record evaluated
  constructor
  · rw [List.forall_mem_map]
    intro path member
    have sound := partition.sound path member
    exact ⟨sound.record, sound.condition⟩
  · intro route
    rw [List.countP_map]
    exact partition.count route

/-- A policy splits the routes of all threads that passed. -/
theorem extendAll_splits {given : Assumed} (table : given.table.Usable) {p : Policy}
    (usable : p.Usable) {passed : List Thread} (sound : ∀ t ∈ passed, t.Sound) {paths : List Path}
    (run : extendAll given p passed = .ok paths) :
    (∀ path ∈ paths, path.Sound) ∧
      ∀ route, paths.countP (·.holdsAt route) = passed.countP (·.holdsAt route) := by
  induction passed generalizing paths with
  | nil =>
      cases run
      simp
  | cons t rest ih =>
      obtain ⟨first, extended, run⟩ := Outcome.bind_ok.mp run
      obtain ⟨others, later, same⟩ := Outcome.bind_ok.mp run
      cases same
      obtain ⟨here, further⟩ := List.forall_mem_cons.mp sound
      obtain ⟨soundLater, countLater⟩ := ih further later
      have partition := extend_partition table usable here extended
      constructor
      · intro path member
        rcases List.mem_append.mp member with inside | late
        · exact partition.sound path inside
        · exact soundLater path late
      · intro route
        have own : (t.condition.all (·.holdsAt route)).toNat = [t].countP (·.holdsAt route) := by
          rw [List.countP_singleton, Thread.holdsAt]
          cases t.condition.all (·.holdsAt route) <;> rfl
        rw [List.countP_append, partition.count, countLater, own, ← List.countP_append]
        rfl

/-- One policy of a chain: finished paths stay, passing paths become threads. -/
theorem Covers.step {given : Assumed} (table : given.table.Usable) {p : Policy} (usable : p.Usable)
    {conditions : List Expr} {finished paths : List Path} {passed : List Thread}
    (covers : Covers conditions finished passed) (run : extendAll given p passed = .ok paths) :
    Covers conditions (finished ++ paths.filter (·.disposition ≠ .pass))
      ((paths.filter (·.disposition = .pass)).map toThread) := by
  obtain ⟨sound, count⟩ := extendAll_splits table usable covers.threads run
  refine ⟨?_, ?_, ?_⟩
  · intro path member
    rcases List.mem_append.mp member with before | ended
    · exact covers.paths path before
    · exact sound path (List.mem_filter.mp ended).1
  · rw [List.forall_mem_map]
    intro path member
    exact sound_toThread (sound path (List.mem_filter.mp member).1)
  · intro route
    have total := List.countP_eq_countP_filter_add paths (·.holdsAt route)
      (·.disposition ≠ Disposition.pass)
    simp only [ne_eq, decide_not, Bool.not_not] at total
    have threads : ((paths.filter (·.disposition = .pass)).map toThread).countP (·.holdsAt route) =
        (paths.filter (·.disposition = .pass)).countP (·.holdsAt route) := by
      rw [List.countP_map]
      rfl
    rw [List.countP_append, threads, ← covers.count route, ← count route, total, Nat.add_assoc]
    simp only [ne_eq, decide_not]

/-- The paths of a chain split the routes that its threads start with. -/
theorem run_partition {given : Assumed} (table : given.table.Usable) {policies : List Policy}
    (usable : ∀ p ∈ policies, p.Usable) {conditions : List Expr} {last : String}
    {finished paths : List Path} {passed : List Thread}
    (covers : Covers conditions finished passed)
    (ran : run given last finished passed policies = .ok paths) : Partition conditions paths := by
  induction policies generalizing last finished passed with
  | nil =>
      cases ran
      exact covers.partition last
  | cons p rest ih =>
      obtain ⟨here, further⟩ := List.forall_mem_cons.mp usable
      obtain ⟨own, extended, ran⟩ := Outcome.bind_ok.mp ran
      dsimp only at ran
      split at ran
      · cases ran
      · exact ih further (covers.step table here extended) ran

/-! ### Agreement -/

/-- A path of a policy comes from a thread that passed. -/
theorem mem_extendAll {given : Assumed} {p : Policy} {passed : List Thread} {paths : List Path}
    (run : extendAll given p passed = .ok paths) {path : Path} (member : path ∈ paths) :
    ∃ t ∈ passed, ∃ own, extend given p t = .ok own ∧ path ∈ own := by
  induction passed generalizing paths with
  | nil =>
      cases run
      cases member
  | cons t rest ih =>
      obtain ⟨first, extended, run⟩ := Outcome.bind_ok.mp run
      obtain ⟨others, later, same⟩ := Outcome.bind_ok.mp run
      cases same
      rcases List.mem_append.mp member with here | inside
      · exact ⟨t, List.mem_cons_self, first, extended, here⟩
      · obtain ⟨u, found, own, extended, here⟩ := ih later inside
        exact ⟨u, List.mem_cons_of_mem t found, own, extended, here⟩

/-- Over a concrete record a policy is performed along the path that holds of the route. -/
theorem extend_performs (exact : ∀ i : Int, Arithmetic.round i = i) {given : Assumed}
    (table : given.table.Usable) {p : Policy} (usable : p.Usable) {t : Thread} (sound : t.Sound)
    {c : Record} (comes : t.record.ComesTo route c) {paths : List Path}
    (run : extend given p t = .ok paths) {path : Path} (member : path ∈ paths)
    (holds : path.holdsAt route = true) {concrete : Calls}
    (agree : Calls.Agree route (Execution.callsFrom given.table given.limit [p.name]) concrete) :
    ∃ d, p.perform concrete c = .ok (path.disposition, d) ∧ path.record.ComesTo route d := by
  obtain ⟨own, evaluated, rfl⟩ := extend_ok.mp run
  obtain ⟨origin, inside, rfl⟩ := List.mem_map.mp member
  exact evaluatePolicy_performs exact ⟨t.condition, given.limit, given.table⟩ sound.condition table
    usable sound.record comes evaluated inside holds agree

theorem run_finished {given : Assumed} (room : 1 ≤ given.limit) (policies : List Policy)
    (last : String) (path : Path) : run given last [path] [] policies = .ok [path] := by
  induction policies generalizing last with
  | nil => rfl
  | cons p rest ih =>
      have enough : ¬given.limit < 1 := by omega
      simpa [run, extendAll, bind, Except.bind, enough] using ih p.name

/-- What one policy makes of a concrete thread: a finished path, or the next thread. -/
theorem run_single {given : Assumed} (room : 1 ≤ given.limit) {p : Policy} {rest : List Policy}
    {last : String} {t : Thread} {k : Path} (extended : extend given p t = .ok [k]) :
    run given last [] [t] (p :: rest) =
      if k.disposition = .pass then run given p.name [] [toThread k] rest else .ok [k] := by
  have enough : ¬given.limit < 1 := by omega
  by_cases passes : k.disposition = .pass
  · simp [run, extendAll, extended, bind, Except.bind, passes, enough]
  · simp [run, extendAll, extended, bind, Except.bind, passes, enough, run_finished room]

/-- A chain that can be performed has one path. -/
theorem run_of_perform {table : Table Policy} {limit : Int} (room : 1 ≤ limit)
    {policies : List Policy} (known : Thread) {d : Disposition} {s : Record}
    (certain : known.condition = [])
    (performed : perform (fun p => Execution.callsFrom table limit [p.name]) policies
      known.record = .ok (d, s)) (last : String) :
    ∃ k, run ⟨[], limit, table⟩ last [] [known] policies = .ok [k] ∧ k.disposition = d ∧
      k.record = s ∧ k.condition = [] := by
  induction policies generalizing known last with
  | nil =>
      cases performed
      exact ⟨dropped last known, rfl, rfl, rfl, certain⟩
  | cons p rest ih =>
      obtain ⟨e, u, done, next⟩ := perform_cons.mp performed
      obtain ⟨k, ran, disposition, record, condition⟩ :=
        Execution.runPolicy_of_perform done limit []
      have extended : extend ⟨[], limit, table⟩ p known =
          .ok [{ k with trace := known.trace ++ k.trace }] :=
        extend_ok.mpr ⟨[k], by rw [certain]; exact ran, rfl⟩
      rw [run_single room extended]
      rcases next with ⟨passes, later⟩ | ⟨ends, rfl, rfl⟩
      · rw [if_pos (disposition.trans passes)]
        refine ih _ condition ?_ p.name
        rwa [toThread, record]
      · rw [if_neg (disposition ▸ ends)]
        exact ⟨_, rfl, disposition, record, condition⟩

/-- A path of a chain that holds of a route was finished before, or the chain is performed along it
over every concrete record that one of its threads comes to. -/
theorem run_performs (exact : ∀ i : Int, Arithmetic.round i = i) {given : Assumed}
    (table : given.table.Usable) {policies : List Policy} (usable : ∀ p ∈ policies, p.Usable)
    {concrete : Policy → Calls} (agree : ∀ p : Policy, Calls.Agree route
      (Execution.callsFrom given.table given.limit [p.name]) (concrete p))
    {last : String} {finished paths : List Path} {passed : List Thread}
    (sound : ∀ t ∈ passed, t.Sound) (ran : run given last finished passed policies = .ok paths)
    {path : Path} (member : path ∈ paths) (holds : path.holdsAt route = true) :
    path ∈ finished ∨ ∃ t ∈ passed, t.holdsAt route = true ∧
      ∀ c, t.record.ComesTo route c →
        ∃ d, perform concrete policies c = .ok (path.disposition, d) ∧
          path.record.ComesTo route d := by
  -- on the policies that are left; only one of the threads that passed holds of the route
  induction policies generalizing last finished passed with
  | nil =>
      cases ran
      rcases List.mem_append.mp member with ended | late
      · exact .inl ended
      · obtain ⟨t, inside, rfl⟩ := List.mem_map.mp late
        exact .inr ⟨t, inside, holds, fun c comes => ⟨c, rfl, comes⟩⟩
  | cons p rest ih =>
      obtain ⟨here, further⟩ := List.forall_mem_cons.mp usable
      obtain ⟨own, extended, ran⟩ := Outcome.bind_ok.mp ran
      dsimp only at ran
      split at ran
      · cases ran
      · have splits := extendAll_splits table here sound extended
        have next : ∀ t ∈ (own.filter (·.disposition = .pass)).map toThread, t.Sound := by
          rw [List.forall_mem_map]
          intro path inside
          exact sound_toThread (splits.1 path (List.mem_filter.mp inside).1)
        rcases ih further next ran with ended | ⟨t, inside, reached, continues⟩
        · rcases List.mem_append.mp ended with before | ended
          · exact .inl before
          · obtain ⟨found, ends⟩ := List.mem_filter.mp ended
            obtain ⟨t, started, paths, extended, among⟩ := mem_extendAll extended found
            have partition := extend_partition table here (sound t started) extended
            refine .inr ⟨t, started, partition.satisfied among holds, fun c comes => ?_⟩
            obtain ⟨d, done, comes⟩ := extend_performs exact table here (sound t started) comes
              extended among holds (agree p)
            have ended : path.disposition ≠ .pass := by simpa using ends
            exact ⟨d, perform_cons.mpr ⟨_, d, done, .inr ⟨ended, rfl, rfl⟩⟩, comes⟩
        · obtain ⟨origin, found, rfl⟩ := List.mem_map.mp inside
          obtain ⟨found, passes⟩ := List.mem_filter.mp found
          obtain ⟨t, started, paths, extended, among⟩ := mem_extendAll extended found
          have partition := extend_partition table here (sound t started) extended
          refine .inr ⟨t, started, partition.satisfied among reached, fun c comes => ?_⟩
          obtain ⟨d, done, comes⟩ := extend_performs exact table here (sound t started) comes
            extended among reached (agree p)
          obtain ⟨e, later, comes⟩ := continues d comes
          have passed : origin.disposition = .pass := by simpa using passes
          exact ⟨e, perform_cons.mpr ⟨_, d, done, .inl ⟨passed, later⟩⟩, comes⟩

/-- No path of a chain is left to pass. -/
theorem run_ended {given : Assumed} {policies : List Policy} {last : String}
    {finished paths : List Path} {passed : List Thread}
    (before : ∀ path ∈ finished, path.disposition ≠ .pass)
    (ran : run given last finished passed policies = .ok paths) :
    ∀ path ∈ paths, path.disposition ≠ .pass := by
  induction policies generalizing last finished passed with
  | nil =>
      cases ran
      intro path member
      rcases List.mem_append.mp member with ended | late
      · exact before path ended
      · obtain ⟨t, _, rfl⟩ := List.mem_map.mp late
        simp [dropped]
  | cons p rest ih =>
      obtain ⟨own, _, ran⟩ := Outcome.bind_ok.mp ran
      dsimp only at ran
      split at ran
      · cases ran
      · refine ih ?_ ran
        intro path member
        rcases List.mem_append.mp member with ended | here
        · exact before path ended
        · simpa using (List.mem_filter.mp here).2

end Chain

variable [Arithmetic]

/-- The paths of a chain of policies split the routes that satisfy its assumptions. -/
theorem evaluateChain_partition (given : Assumed)
    (assumed : ∀ c ∈ given.assumptions, c.ResidualOf .boolean) (table : given.table.Usable)
    {policies : List Policy} (usable : ∀ p ∈ policies, p.Usable) {r : Record}
    (record : r.Residual) {paths : List Path}
    (run : evaluateChain given policies r = .ok paths) : Partition given.assumptions paths := by
  cases policies with
  | nil =>
      cases run
      refine ⟨by simpa using ⟨record, assumed⟩, fun route => ?_⟩
      rw [List.countP_singleton, Path.holdsAt]
      cases given.assumptions.all (·.holdsAt route) <;> rfl
  | cons p rest =>
      have ran : Chain.run given p.name [] [⟨r, given.assumptions, []⟩] (p :: rest) = .ok paths :=
        run
      refine Chain.run_partition table usable
        ⟨by simp, by simpa using ⟨record, assumed⟩, fun route => ?_⟩ ran
      rw [List.countP_nil, List.countP_singleton, Thread.holdsAt]
      cases given.assumptions.all (·.holdsAt route) <;> rfl

/-- No path of a chain has the disposition to pass. -/
theorem evaluateChain_ended {given : Assumed} {policies : List Policy} {r : Record}
    {paths : List Path} (run : evaluateChain given policies r = .ok paths) :
    ∀ path ∈ paths, path.disposition ≠ .pass := by
  cases policies with
  | nil =>
      cases run
      simp
  | cons p rest =>
      have ran : Chain.run given p.name [] [⟨r, given.assumptions, []⟩] (p :: rest) = .ok paths :=
        run
      exact Chain.run_ended (by simp) ran

/-- Over a concrete record a chain is performed along the path that holds of the route. -/
theorem evaluateChain_performs (exact : ∀ i : Int, Arithmetic.round i = i) {route : Route}
    {given : Assumed} (assumed : ∀ c ∈ given.assumptions, c.ResidualOf .boolean)
    (table : given.table.Usable) {p : Policy} {rest : List Policy}
    (usable : ∀ q ∈ p :: rest, q.Usable) {concrete : Policy → Calls}
    (agree : ∀ p : Policy, Calls.Agree route
      (Execution.callsFrom given.table given.limit [p.name]) (concrete p))
    {r c : Record} (record : r.Residual) (comes : r.ComesTo route c) {paths : List Path}
    (run : evaluateChain given (p :: rest) r = .ok paths) {path : Path} (member : path ∈ paths)
    (holds : path.holdsAt route = true) :
    ∃ d, Chain.perform concrete (p :: rest) c = .ok (path.disposition, d) ∧
      path.record.ComesTo route d := by
  have sound : ∀ t ∈ [(⟨r, given.assumptions, []⟩ : Thread)], t.Sound := by
    simpa using ⟨record, assumed⟩
  have ran : Chain.run given p.name [] [⟨r, given.assumptions, []⟩] (p :: rest) = .ok paths := run
  rcases Chain.run_performs exact table usable agree sound ran member holds with
    impossible | ⟨t, started, _, performs⟩
  · cases impossible
  · cases List.mem_singleton.mp started
    exact performs c comes

/-- Over a concrete record a chain takes the path that holds of the route, and no other one. -/
theorem evaluateChain_agrees (exact : ∀ i : Int, Arithmetic.round i = i) {route : Route}
    (given : Assumed) (assumed : ∀ c ∈ given.assumptions, c.ResidualOf .boolean)
    (table : given.table.Usable) {policies : List Policy} (usable : ∀ p ∈ policies, p.Usable)
    {r c : Record} (record : r.Residual) (comes : r.ComesTo route c) {paths : List Path}
    (run : evaluateChain given policies r = .ok paths) {path : Path} (member : path ∈ paths)
    (holds : path.holdsAt route = true) {limit : Int} (room : 1 ≤ limit) :
    ∃ known, evaluateChain ⟨[], limit, given.table⟩ policies c = .ok [known] ∧
      path.Follows route known := by
  cases policies with
  | nil =>
      cases run
      cases List.mem_singleton.mp member
      exact ⟨_, rfl, rfl, comes, rfl⟩
  | cons p rest =>
      obtain ⟨d, done, follows⟩ := evaluateChain_performs exact assumed table usable
        (fun p => Execution.callsFrom_agrees exact route table given.limit limit [p.name])
        record comes run member holds
      obtain ⟨k, ran, disposition, same, condition⟩ :=
        Chain.run_of_perform room ⟨c, [], []⟩ rfl done p.name
      exact ⟨k, ran, disposition, same ▸ follows, condition⟩

end RoutePolicy
