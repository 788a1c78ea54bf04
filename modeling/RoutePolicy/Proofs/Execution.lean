import RoutePolicy.Execution
import RoutePolicy.Proofs.Evaluation

/-!
Symbolic execution of a policy. The paths split the routes that satisfy the assumptions: at every
such route the condition of exactly one path holds. Over a concrete record the same policy takes
this path alone.
-/

set_option autoImplicit false

namespace RoutePolicy

/-- An expression that policies may use where a type is needed. -/
structure Expr.Usable (expected : ValueType) (e : Expr) : Prop where
  fits : e.type.fits expected = true
  foldable : e.Each Expr.Foldable

/-- A policy all expressions of which have the types needed and reach literals. -/
def Policy.Usable (p : Policy) : Prop := Statement.EveryAll Expr.Usable p.statements

/-- A policy all expressions of which reach literals. -/
def Policy.Foldable (p : Policy) : Prop :=
  Statement.EveryAll (fun _ e => e.Each Expr.Foldable) p.statements

theorem Policy.Foldable.usable {p : Policy} (foldable : p.Foldable) (typed : p.wellTyped = true) :
    p.Usable := by
  have reaches := Statement.everyAll_iff.mp foldable
  have types := Statement.everyAll_iff.mp (Policy.every_of_wellTyped typed)
  exact Statement.everyAll_iff.mpr fun s member =>
    Statement.Every.both (fun _ _ each fits => ⟨fits.2, each⟩) s (reaches s member) (types s member)

namespace Thread

/-- A thread over residuals. -/
structure Sound (t : Thread) : Prop where
  record : t.record.Residual
  condition : ∀ c ∈ t.condition, c.ResidualOf .boolean

/-- Whether the conditions of a thread are true of a route. -/
def holdsAt (route : Route) (t : Thread) : Bool := t.condition.all (·.holdsAt route)

variable {route : Route} {t : Thread}

@[simp] theorem holdsAt_log (event : Event) : (t.log event).holdsAt route = t.holdsAt route := rfl

@[simp] theorem holdsAt_assuming (c : Expr) :
    (t.assuming c).holdsAt route = (t.holdsAt route && c.holdsAt route) := by
  simp [holdsAt, assuming]

theorem Sound.log (sound : t.Sound) (event : Event) : (t.log event).Sound :=
  ⟨sound.record, sound.condition⟩

theorem Sound.assuming (sound : t.Sound) {c : Expr} (residual : c.ResidualOf .boolean) :
    (t.assuming c).Sound := by
  refine ⟨sound.record, fun other member => ?_⟩
  rcases List.mem_append.mp member with before | here
  · exact sound.condition other before
  · exact List.mem_singleton.mp here ▸ residual

end Thread

namespace Execution

variable {route : Route}

/-! ### Guards -/

/-- The branch that a guard or the conditions before it leave open. -/
def Decided (condition : List Expr) (value : Expr) (taken : Bool) : Prop :=
  value.bool? = some taken ∨ assumed condition value = some taken

/-- A conjunction that is refuted does not hold of any route. -/
theorem refuted {conditions : List Expr} (residual : ∀ c ∈ conditions, c.ResidualOf .boolean)
    (constant : (Expr.all conditions).simplify.bool? = some false) :
    conditions.all (·.holdsAt route) = false := by
  rw [← Expr.holdsAt_all,
    ← Expr.holdsAt_simplify (e := Expr.all conditions) (Expr.residualOf_junction .all residual)]
  exact Expr.holdsAt_of_bool? constant

/-- A branch that is not taken is impossible. -/
theorem Decided.sound {t : Thread} (sound : t.Sound) {value : Expr}
    (residual : value.ResidualOf .boolean) {taken : Bool}
    (decided : Decided t.condition value taken) (holds : t.holdsAt route = true) :
    value.holdsAt route = taken := by
  have impossible : ∀ {c : Expr}, c.ResidualOf .boolean →
      (Expr.all (t.condition ++ [c])).simplify.bool? = some false → c.holdsAt route = false := by
    intro c added constant
    have refuted : (t.assuming c).holdsAt route = false :=
      refuted (sound.assuming added).condition constant
    have split : (t.holdsAt route && c.holdsAt route) = false :=
      (Thread.holdsAt_assuming c).symm.trans refuted
    rwa [holds, Bool.true_and] at split
  rcases decided with constant | found
  · exact Expr.holdsAt_of_bool? constant
  · unfold assumed at found
    split at found
    · cases found
    · split at found
      · rename_i constant
        cases found
        have negated := impossible (Expr.residualOf_negate residual) constant
        simpa using negated
      · split at found
        · rename_i constant
          cases found
          exact impossible residual constant
        · cases found

/-! ### Splitting -/

/-- Ended threads that split the routes of a thread among them. -/
structure Splits (t : Thread) (ended : List Ended) : Prop where
  sound : ∀ x ∈ ended, x.1.Sound
  count : ∀ route, ended.countP (·.1.holdsAt route) = (t.holdsAt route).toNat

theorem Splits.of_log {t : Thread} {event : Event} {ended : List Ended}
    (splits : Splits (t.log event) ended) : Splits t ended :=
  ⟨splits.sound, splits.count⟩

theorem Splits.single {t : Thread} {x : Ended} (sound : x.1.Sound)
    (same : x.1.condition = t.condition) : Splits t [x] where
  sound := by simpa using sound
  count route := by
    have holds : x.1.holdsAt route = t.holdsAt route := by rw [Thread.holdsAt, same, Thread.holdsAt]
    rw [List.countP_singleton, holds]
    cases t.holdsAt route <;> rfl

/-- A condition and its negation split the routes of a thread. -/
theorem Splits.append {t : Thread} {value : Expr} {first second : List Ended}
    (onTrue : Splits (t.assuming value) first) (onFalse : Splits (t.assuming value.negate) second) :
    Splits t (first ++ second) where
  sound x member := by
    rcases List.mem_append.mp member with inFirst | inSecond
    · exact onTrue.sound x inFirst
    · exact onFalse.sound x inSecond
  count route := by
    rw [List.countP_append, onTrue.count, onFalse.count, Thread.holdsAt_assuming,
      Thread.holdsAt_assuming, Expr.holdsAt_negate]
    cases t.holdsAt route <;> cases value.holdsAt route <;> rfl

/-- A path that holds goes back to a thread that holds. -/
theorem Splits.holds {t : Thread} {ended : List Ended} (splits : Splits t ended) {x : Ended}
    (member : x ∈ ended) (holds : x.1.holdsAt route = true) : t.holdsAt route = true := by
  have counted : 0 < ended.countP (·.1.holdsAt route) := List.countP_pos_iff.mpr ⟨x, member, holds⟩
  rw [splits.count] at counted
  cases same : t.holdsAt route with
  | true => rfl
  | false =>
      rw [same] at counted
      cases counted

/-- Where an ended thread comes from when the rest of a block is run. -/
theorem mem_resume {run : Thread → Nat → Threads} {first later : List Ended} {paths after : Nat}
    (resumed : resume run first paths = .ok (later, after)) {x : Ended} (member : x ∈ later) :
    (x ∈ first ∧ x.2.isSome) ∨
      ∃ t before ended between, (t, none) ∈ first ∧ run t before = .ok (ended, between) ∧
        x ∈ ended := by
  induction first generalizing paths later with
  | nil =>
      cases resumed
      cases member
  | cons head others ih =>
      obtain ⟨t, disposition⟩ := head
      cases disposition with
      | some disposition =>
          obtain ⟨⟨rest, _⟩, resumed, same⟩ := Outcome.bind_ok.mp resumed
          cases same
          rcases List.mem_cons.mp member with rfl | inside
          · exact .inl ⟨List.mem_cons_self, rfl⟩
          · rcases ih resumed inside with ⟨here, closed⟩ | ⟨u, before, ended, between, here, found⟩
            · exact .inl ⟨List.mem_cons_of_mem _ here, closed⟩
            · exact .inr ⟨u, before, ended, between, List.mem_cons_of_mem _ here, found⟩
      | none =>
          obtain ⟨⟨ended, between⟩, ran, resumed⟩ := Outcome.bind_ok.mp resumed
          obtain ⟨⟨rest, _⟩, resumed, same⟩ := Outcome.bind_ok.mp resumed
          cases same
          rcases List.mem_append.mp member with here | inside
          · exact .inr ⟨t, paths, ended, between, List.mem_cons_self, ran, here⟩
          · rcases ih resumed inside with ⟨here, closed⟩ | ⟨u, before, ended, between, here, found⟩
            · exact .inl ⟨List.mem_cons_of_mem _ here, closed⟩
            · exact .inr ⟨u, before, ended, between, List.mem_cons_of_mem _ here, found⟩

/-- Running the rest of a block splits open threads further. -/
theorem Splits.resume {run : Thread → Nat → Threads} {t : Thread} {first later : List Ended}
    {paths after : Nat} (splits : Splits t first)
    (rest : ∀ u before ended between, u.Sound → run u before = .ok (ended, between) →
      Splits u ended)
    (resumed : Execution.resume run first paths = .ok (later, after)) : Splits t later where
  sound x member := by
    rcases mem_resume resumed member with ⟨here, _⟩ | ⟨u, before, ended, between, here, ran, found⟩
    · exact splits.sound x here
    · exact (rest u before ended between (splits.sound _ here) ran).sound x found
  count route := by
    rw [← splits.count route]
    replace splits := splits.sound
    induction first generalizing paths later with
    | nil =>
        cases resumed
        rfl
    | cons head others ih =>
        obtain ⟨here, further⟩ := List.forall_mem_cons.mp splits
        obtain ⟨u, disposition⟩ := head
        cases disposition with
        | some disposition =>
            obtain ⟨⟨ended, _⟩, resumed, same⟩ := Outcome.bind_ok.mp resumed
            cases same
            rw [List.countP_cons, List.countP_cons, ih resumed further]
        | none =>
            obtain ⟨⟨ended, between⟩, ran, resumed⟩ := Outcome.bind_ok.mp resumed
            obtain ⟨⟨others', _⟩, resumed, same⟩ := Outcome.bind_ok.mp resumed
            cases same
            rw [List.countP_append, List.countP_cons, ih resumed further,
              (rest u paths ended between here ran).count route, Nat.add_comm]
            cases u.holdsAt route <;> rfl

theorem resume_single {run : Thread → Nat → Threads} {y z : Ended} {paths : Nat}
    (rest : y.2 = none → run y.1 paths = .ok ([z], paths)) (closed : y.2.isSome → z = y) :
    resume run [y] paths = .ok ([z], paths) := by
  obtain ⟨t, disposition⟩ := y
  cases disposition with
  | some disposition =>
      rw [closed rfl]
      rfl
  | none =>
      have ran := rest rfl
      simp only [resume, ran, bind, Except.bind, List.append_nil]

/-! ### Branching -/

variable [Arithmetic]

theorem guardValue_ok {frame : Frame} {r : Record} {guard value : Expr}
    (known : guardValue frame r guard = .ok value) : guard.evaluate frame.calls r = .ok value := by
  obtain ⟨found, evaluated, same⟩ := Outcome.bind_ok.mp known
  split at same
  · cases same
  · cases same
    exact evaluated

theorem guardValue_of_bool? {frame : Frame} {r : Record} {guard value : Expr} {taken : Bool}
    (evaluated : guard.evaluate frame.calls r = .ok value) (constant : value.bool? = some taken) :
    guardValue frame r guard = .ok value := by
  unfold guardValue
  rw [Outcome.bind_ok]
  refine ⟨value, evaluated, ?_⟩
  simp [constant]

/-- The value of a usable expression is a residual of the type that is needed. -/
theorem usable_residual {calls : Calls} (answers : calls.AnswerResiduals) {r : Record}
    (record : r.Residual) {expected : ValueType} {e x : Expr} (usable : e.Usable expected)
    (value : e.evaluate calls r = .ok x) : x.ResidualOf expected := by
  have written := usable.foldable.mono fun _ => Expr.Foldable.written
  obtain ⟨each, typed⟩ := Expr.evaluate_residual answers record written value
  have same : x.type = e.type := typed
  have fits := usable.fits
  rw [← same, Expr.fits_iff each.root.proper.supported] at fits
  exact ⟨each, fits⟩

/-- What a branching statement does: it takes a decided branch, or both branches under a condition
and its negation. -/
theorem branch_ok {frame : Frame} {here : Position} {cls : Spelling} {guard : Expr}
    {onTrue onFalse : List Statement} {comment : Comment} {t : Thread} {paths after : Nat}
    {ended : List Ended}
    (run : runStatement frame here (.branch cls guard onTrue onFalse comment) t paths =
      .ok (ended, after)) :
    ∃ value, guardValue frame t.record guard = .ok value ∧
      ((∃ taken symbolic, Decided t.condition value taken ∧
        runBlock frame (here ++ [.branch taken]) 0 (if taken then onTrue else onFalse)
          (t.log (.branch frame.policy here taken symbolic)) paths = .ok (ended, after)) ∨
      ∃ first second between, ended = first ++ second ∧
        runBlock frame (here ++ [.branch true]) 0 onTrue
          ((t.assuming value).log (.branch frame.policy here true true)) (paths + 1) =
            .ok (first, between) ∧
        runBlock frame (here ++ [.branch false]) 0 onFalse
          ((t.assuming value.negate).log (.branch frame.policy here false true)) between =
            .ok (second, after)) := by
  rw [runStatement] at run
  obtain ⟨value, known, run⟩ := Outcome.bind_ok.mp run
  refine ⟨value, Outcome.inContext_ok.mp known, ?_⟩
  dsimp only at run
  split at run
  · rename_i constant
    exact .inl ⟨true, false, .inl constant, run⟩
  · rename_i constant
    exact .inl ⟨false, false, .inl constant, run⟩
  · split at run
    · rename_i found
      exact .inl ⟨true, true, .inr found, run⟩
    · rename_i found
      exact .inl ⟨false, true, .inr found, run⟩
    · split at run
      · cases run
      · obtain ⟨⟨first, between⟩, onTrue, run⟩ := Outcome.bind_ok.mp run
        obtain ⟨⟨second, last⟩, onFalse, same⟩ := Outcome.bind_ok.mp run
        cases same
        exact .inr ⟨first, second, between, rfl, onTrue, onFalse⟩

/-- A constant guard takes its branch. -/
theorem branch_taken {frame : Frame} {here : Position} {cls : Spelling} {guard value : Expr}
    {onTrue onFalse : List Statement} {comment : Comment} {t : Thread} {paths : Nat} {taken : Bool}
    (known : guardValue frame t.record guard = .ok value) (constant : value.bool? = some taken) :
    runStatement frame here (.branch cls guard onTrue onFalse comment) t paths =
      runBlock frame (here ++ [.branch taken]) 0 (if taken then onTrue else onFalse)
        (t.log (.branch frame.policy here taken false)) paths := by
  rw [runStatement, known]
  cases taken
  · simp only [Outcome.inContext, Except.mapError, bind, Except.bind, constant]
    rfl
  · simp only [Outcome.inContext, Except.mapError, bind, Except.bind, constant]
    rfl

/-! ### Runs -/

mutual

/-- A statement splits the routes of a thread. -/
theorem runStatement_splits (frame : Frame) (answers : frame.calls.AnswerResiduals)
    (here : Position) (s : Statement) (usable : s.Every Expr.Usable) {t : Thread} (sound : t.Sound)
    {paths after : Nat} {ended : List Ended}
    (run : runStatement frame here s t paths = .ok (ended, after)) : Splits t ended := by
  cases s with
  | finish cls disposition =>
      cases run
      exact .single (sound.log _) rfl
  | assign cls target value =>
      rw [runStatement] at run
      obtain ⟨⟨x, record⟩, stepped, same⟩ := Outcome.bind_ok.mp run
      obtain ⟨x', evaluated, stepped⟩ := Outcome.bind_ok.mp (Outcome.inContext_ok.mp stepped)
      obtain ⟨record', assigned, stepped⟩ := Outcome.bind_ok.mp stepped
      cases stepped
      cases same
      have residual := usable_residual answers sound.record usable evaluated
      exact .single ⟨sound.record.assign residual assigned, sound.condition⟩ rfl
  | branch cls guard onTrue onFalse comment =>
      obtain ⟨guardUsable, trueUsable, falseUsable⟩ := usable
      obtain ⟨value, known, ⟨taken, symbolic, decided, run⟩ |
        ⟨first, second, between, rfl, runTrue, runFalse⟩⟩ := branch_ok run
      · have inner : Splits (t.log (.branch frame.policy here taken symbolic)) ended := by
          cases taken with
          | true => exact runBlock_splits frame answers _ 0 onTrue trueUsable (sound.log _) run
          | false => exact runBlock_splits frame answers _ 0 onFalse falseUsable (sound.log _) run
        exact .of_log inner
      · have residual := usable_residual answers sound.record guardUsable (guardValue_ok known)
        have assumeTrue := sound.assuming residual
        have assumeFalse := sound.assuming (Expr.residualOf_negate residual)
        have inTrue :=
          runBlock_splits frame answers _ 0 onTrue trueUsable (assumeTrue.log _) runTrue
        have inFalse :=
          runBlock_splits frame answers _ 0 onFalse falseUsable (assumeFalse.log _) runFalse
        exact .append (.of_log inTrue) (.of_log inFalse)

/-- A block splits the routes of a thread. -/
theorem runBlock_splits (frame : Frame) (answers : frame.calls.AnswerResiduals) (above : Position)
    (i : Nat) (block : List Statement) (usable : Statement.EveryAll Expr.Usable block) {t : Thread}
    (sound : t.Sound) {paths after : Nat} {ended : List Ended}
    (run : runBlock frame above i block t paths = .ok (ended, after)) : Splits t ended := by
  cases block with
  | nil =>
      cases run
      exact .single sound rfl
  | cons s rest =>
      rw [runBlock] at run
      obtain ⟨⟨first, between⟩, ran, resumed⟩ := Outcome.bind_ok.mp run
      refine (runStatement_splits frame answers _ s usable.1 sound ran).resume ?_ resumed
      intro u before ended last sound ran
      exact runBlock_splits frame answers above (i + 1) rest usable.2 sound ran

end

/-! ### The path of a route -/

/-- The branch in which a path lies that holds of the route, and the thread it starts from. -/
theorem branch_reaches {frame : Frame} (answers : frame.calls.AnswerResiduals) {here : Position}
    {cls : Spelling} {guard : Expr} {onTrue onFalse : List Statement} {comment : Comment}
    (usable : (Statement.branch cls guard onTrue onFalse comment).Every Expr.Usable) {t : Thread}
    (sound : t.Sound) {paths after : Nat} {ended : List Ended}
    (run : runStatement frame here (.branch cls guard onTrue onFalse comment) t paths =
      .ok (ended, after))
    {x : Ended} (member : x ∈ ended) (holds : x.1.holdsAt route = true) :
    ∃ value taken u before others last, guardValue frame t.record guard = .ok value ∧
      value.holdsAt route = taken ∧ u.Sound ∧ u.record = t.record ∧
      runBlock frame (here ++ [.branch taken]) 0 (if taken then onTrue else onFalse) u before =
        .ok (others, last) ∧ x ∈ others := by
  obtain ⟨guardUsable, trueUsable, falseUsable⟩ := usable
  obtain ⟨value, evaluated, ⟨taken, symbolic, decided, run⟩ |
    ⟨first, second, between, rfl, runTrue, runFalse⟩⟩ := branch_ok run
  · have residual := usable_residual answers sound.record guardUsable (guardValue_ok evaluated)
    have splits : Splits (t.log (.branch frame.policy here taken symbolic)) ended := by
      cases taken with
      | true => exact runBlock_splits frame answers _ 0 onTrue trueUsable (sound.log _) run
      | false => exact runBlock_splits frame answers _ 0 onFalse falseUsable (sound.log _) run
    have said := decided.sound sound residual (splits.holds member holds)
    exact ⟨value, taken, _, _, _, _, evaluated, said, sound.log _, rfl, run, member⟩
  · have residual := usable_residual answers sound.record guardUsable (guardValue_ok evaluated)
    have assumeTrue := sound.assuming residual
    have assumeFalse := sound.assuming (Expr.residualOf_negate residual)
    rcases List.mem_append.mp member with inFirst | inSecond
    · have splits :=
        runBlock_splits frame answers _ 0 onTrue trueUsable (assumeTrue.log _) runTrue
      have reached := splits.holds inFirst holds
      simp only [Thread.holdsAt_log, Thread.holdsAt_assuming, Bool.and_eq_true] at reached
      exact ⟨value, true, _, _, _, _, evaluated, reached.2, assumeTrue.log _, rfl, runTrue, inFirst⟩
    · have splits :=
        runBlock_splits frame answers _ 0 onFalse falseUsable (assumeFalse.log _) runFalse
      have reached := splits.holds inSecond holds
      simp only [Thread.holdsAt_log, Thread.holdsAt_assuming, Expr.holdsAt_negate,
        Bool.and_eq_true, Bool.not_eq_true'] at reached
      exact ⟨value, false, _, _, _, _, evaluated, reached.2, assumeFalse.log _, rfl, runFalse,
        inSecond⟩

end Execution

end RoutePolicy
