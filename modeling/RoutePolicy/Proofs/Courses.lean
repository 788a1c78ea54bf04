import RoutePolicy.Proofs.EvaluatedCalls

/-!
The courses of a policy. A finished execution has come through the policy's statements on one
course: at every branching statement it took a branch, because its guard was decided or because the
execution was split there. The executions of a policy are exactly the ends of its courses.
-/

set_option autoImplicit false

namespace RoutePolicy

/-- What a course did at a branching statement: the value of the guard, the conditions the execution
held under when it came there, the branch it took, and whether the execution was split. -/
structure Decision where
  position : Position
  guard : Expr
  condition : List Expr
  taken : Bool
  split : Bool

namespace Execution

variable [Arithmetic]

mutual

/-- A course through a statement, the decisions on it, and how the thread ended. -/
inductive StatementCourse (frame : Frame) :
    Position → Statement → Thread → List Decision → Ended → Prop
  | finish {here : Position} {cls : Spelling} {disposition : Disposition} {t : Thread} :
      StatementCourse frame here (.finish cls disposition) t []
        (t.log (.finish frame.policy here disposition), some disposition)
  | assign {here : Position} {cls : Spelling} {target : Settable} {value x : Expr} {t : Thread}
      {r : Record} (known : value.evaluate frame.calls t.record = .ok x)
      (stored : t.record.assign target.toAttribute x = .ok r) :
      StatementCourse frame here (.assign cls target value) t []
        (({ t with record := r } : Thread).log (.assign frame.policy here target !x.isLiteral),
          none)
  | decided {here : Position} {cls : Spelling} {guard value : Expr}
      {onTrue onFalse : List Statement} {comment : Comment} {t : Thread} {taken : Bool}
      {ds : List Decision} {e : Ended} (known : guardValue frame t.record guard = .ok value)
      (chosen : choice t.condition value = some taken)
      (inside : BlockCourse frame (here ++ [.branch taken]) 0 (if taken then onTrue else onFalse)
        (t.log (.branch frame.policy here taken value.bool?.isNone)) ds e) :
      StatementCourse frame here (.branch cls guard onTrue onFalse comment) t
        (⟨here, value, t.condition, taken, false⟩ :: ds) e
  | split {here : Position} {cls : Spelling} {guard value : Expr}
      {onTrue onFalse : List Statement} {comment : Comment} {t : Thread} (taken : Bool)
      {ds : List Decision} {e : Ended} (known : guardValue frame t.record guard = .ok value)
      (undecided : choice t.condition value = none)
      (inside : BlockCourse frame (here ++ [.branch taken]) 0 (if taken then onTrue else onFalse)
        ((t.assuming (if taken then value else value.negate)).log
          (.branch frame.policy here taken true)) ds e) :
      StatementCourse frame here (.branch cls guard onTrue onFalse comment) t
        (⟨here, value, t.condition, taken, true⟩ :: ds) e

/-- A course through the statements of a block, up to the first one that ends the policy. -/
inductive BlockCourse (frame : Frame) :
    Position → Nat → List Statement → Thread → List Decision → Ended → Prop
  | done {above : Position} {i : Nat} {t : Thread} : BlockCourse frame above i [] t [] (t, none)
  | ended {above : Position} {i : Nat} {s : Statement} {rest : List Statement} {t u : Thread}
      {ds : List Decision} {disposition : Disposition}
      (first : StatementCourse frame (above ++ [.index i]) s t ds (u, some disposition)) :
      BlockCourse frame above i (s :: rest) t ds (u, some disposition)
  | further {above : Position} {i : Nat} {s : Statement} {rest : List Statement} {t u : Thread}
      {ds later : List Decision} {e : Ended}
      (first : StatementCourse frame (above ++ [.index i]) s t ds (u, none))
      (others : BlockCourse frame above (i + 1) rest u later e) :
      BlockCourse frame above i (s :: rest) t (ds ++ later) e

end

variable {frame : Frame}

omit [Arithmetic] in
/-- What the rest of a block makes of ended threads. -/
theorem mem_resume_iff {run : Thread → Nat → Threads} {Q : Thread → Ended → Prop}
    (ends : ∀ u n ended m, run u n = .ok (ended, m) → ∀ x, x ∈ ended ↔ Q u x)
    {first later : List Ended} {n m : Nat} (resumed : resume run first n = .ok (later, m))
    (x : Ended) : x ∈ later ↔
      (x ∈ first ∧ x.2.isSome = true) ∨ ∃ u, (u, none) ∈ first ∧ Q u x := by
  induction first generalizing n later with
  | nil =>
      cases resumed
      simp
  | cons head others ih =>
      obtain ⟨t, disposition⟩ := head
      cases disposition with
      | some disposition =>
          obtain ⟨⟨rest, _⟩, resumed, same⟩ := Outcome.bind_ok.mp resumed
          cases same
          rw [List.mem_cons, ih resumed]
          constructor
          · rintro (rfl | ⟨member, closed⟩ | ⟨u, member, holds⟩)
            · exact .inl ⟨List.mem_cons_self, rfl⟩
            · exact .inl ⟨List.mem_cons_of_mem _ member, closed⟩
            · exact .inr ⟨u, List.mem_cons_of_mem _ member, holds⟩
          · rintro (⟨member, closed⟩ | ⟨u, member, holds⟩)
            · exact (List.mem_cons.mp member).imp_right fun member => .inl ⟨member, closed⟩
            · rcases List.mem_cons.mp member with same | member
              · cases same
              · exact .inr (.inr ⟨u, member, holds⟩)
      | none =>
          obtain ⟨⟨ended, _⟩, ran, resumed⟩ := Outcome.bind_ok.mp resumed
          obtain ⟨⟨rest, _⟩, resumed, same⟩ := Outcome.bind_ok.mp resumed
          cases same
          rw [List.mem_append, ends t _ _ _ ran, ih resumed]
          constructor
          · rintro (holds | ⟨member, closed⟩ | ⟨u, member, holds⟩)
            · exact .inr ⟨t, List.mem_cons_self, holds⟩
            · exact .inl ⟨List.mem_cons_of_mem _ member, closed⟩
            · exact .inr ⟨u, List.mem_cons_of_mem _ member, holds⟩
          · rintro (⟨member, closed⟩ | ⟨u, member, holds⟩)
            · rcases List.mem_cons.mp member with rfl | member
              · cases closed
              · exact .inr (.inl ⟨member, closed⟩)
            · rcases List.mem_cons.mp member with same | member
              · cases same
                exact .inl holds
              · exact .inr (.inr ⟨u, member, holds⟩)

section

variable {here : Position} {cls : Spelling} {guard value : Expr} {onTrue onFalse : List Statement}
  {comment : Comment} {t : Thread} {e : Ended}

/-- A guard that is decided leaves the courses of one branch. -/
theorem exists_course_decided {taken : Bool} (known : guardValue frame t.record guard = .ok value)
    (chosen : choice t.condition value = some taken) :
    (∃ ds, StatementCourse frame here (.branch cls guard onTrue onFalse comment) t ds e) ↔
      ∃ ds, BlockCourse frame (here ++ [.branch taken]) 0 (if taken then onTrue else onFalse)
        (t.log (.branch frame.policy here taken value.bool?.isNone)) ds e := by
  constructor
  · rintro ⟨ds, course⟩
    cases course with
    | decided known' chosen' inside =>
        cases known.symm.trans known'
        cases chosen.symm.trans chosen'
        exact ⟨_, inside⟩
    | split taken' known' undecided inside =>
        cases known.symm.trans known'
        cases chosen.symm.trans undecided
  · rintro ⟨ds, inside⟩
    exact ⟨_, .decided known chosen inside⟩

/-- A guard that is not decided leaves the courses of both branches. -/
theorem exists_course_split (known : guardValue frame t.record guard = .ok value)
    (undecided : choice t.condition value = none) :
    (∃ ds, StatementCourse frame here (.branch cls guard onTrue onFalse comment) t ds e) ↔
      (∃ ds, BlockCourse frame (here ++ [.branch true]) 0 onTrue
        ((t.assuming value).log (.branch frame.policy here true true)) ds e) ∨
      ∃ ds, BlockCourse frame (here ++ [.branch false]) 0 onFalse
        ((t.assuming value.negate).log (.branch frame.policy here false true)) ds e := by
  constructor
  · rintro ⟨ds, course⟩
    cases course with
    | decided known' chosen inside =>
        cases known.symm.trans known'
        cases undecided.symm.trans chosen
    | split taken known' undecided inside =>
        cases known.symm.trans known'
        cases taken with
        | true => exact .inl ⟨_, inside⟩
        | false => exact .inr ⟨_, inside⟩
  · rintro (⟨ds, inside⟩ | ⟨ds, inside⟩)
    · exact ⟨_, .split true known undecided inside⟩
    · exact ⟨_, .split false known undecided inside⟩

end

mutual

/-- The threads of a statement are the ends of the courses through it. -/
theorem mem_runStatement {here : Position} (s : Statement) {t : Thread} {n m : Nat}
    {ended : List Ended} (ran : runStatement frame here s t n = .ok (ended, m)) (e : Ended) :
    e ∈ ended ↔ ∃ ds, StatementCourse frame here s t ds e := by
  cases s with
  | finish cls disposition =>
      cases ran
      rw [List.mem_singleton]
      constructor
      · rintro rfl
        exact ⟨[], .finish⟩
      · rintro ⟨ds, course⟩
        cases course
        rfl
  | assign cls target value =>
      obtain ⟨⟨x, r⟩, found, same⟩ := Outcome.bind_ok.mp ran
      cases same
      obtain ⟨x, known, found⟩ := Outcome.bind_ok.mp (Outcome.inContext_ok.mp found)
      obtain ⟨r, stored, same⟩ := Outcome.bind_ok.mp found
      cases same
      rw [List.mem_singleton]
      constructor
      · rintro rfl
        exact ⟨[], .assign known stored⟩
      · rintro ⟨ds, course⟩
        cases course with
        | assign known' stored' =>
            cases known.symm.trans known'
            cases stored.symm.trans stored'
            rfl
  | branch cls guard onTrue onFalse comment =>
      rw [runStatement_branch] at ran
      obtain ⟨value, known, ran⟩ := Outcome.bind_ok.mp ran
      replace known := Outcome.inContext_ok.mp known
      unfold runBranch at ran
      cases chosen : choice t.condition value with
      | some taken =>
          rw [chosen] at ran
          have inner : e ∈ ended ↔ ∃ ds, BlockCourse frame (here ++ [.branch taken]) 0
              (if taken then onTrue else onFalse)
              (t.log (.branch frame.policy here taken value.bool?.isNone)) ds e := by
            cases taken with
            | true => exact mem_runBlock onTrue ran e
            | false => exact mem_runBlock onFalse ran e
          rw [inner, exists_course_decided known chosen]
      | none =>
          rw [chosen] at ran
          dsimp only at ran
          split at ran
          · cases ran
          · obtain ⟨⟨first, between⟩, ranTrue, ran⟩ := Outcome.bind_ok.mp ran
            obtain ⟨⟨second, _⟩, ranFalse, same⟩ := Outcome.bind_ok.mp ran
            cases same
            rw [List.mem_append, mem_runBlock onTrue ranTrue e, mem_runBlock onFalse ranFalse e,
              exists_course_split known chosen]

/-- The threads of a block are the ends of the courses through it. -/
theorem mem_runBlock {above : Position} {i : Nat} (block : List Statement) {t : Thread} {n m : Nat}
    {ended : List Ended} (ran : runBlock frame above i block t n = .ok (ended, m)) (e : Ended) :
    e ∈ ended ↔ ∃ ds, BlockCourse frame above i block t ds e := by
  cases block with
  | nil =>
      cases ran
      rw [List.mem_singleton]
      constructor
      · rintro rfl
        exact ⟨[], .done⟩
      · rintro ⟨ds, course⟩
        cases course
        rfl
  | cons s rest =>
      obtain ⟨⟨first, _⟩, ran, resumed⟩ := Outcome.bind_ok.mp ran
      have heads := mem_runStatement s ran
      have ends : ∀ u n ended m, runBlock frame above (i + 1) rest u n = .ok (ended, m) →
          ∀ x, x ∈ ended ↔ ∃ ds, BlockCourse frame above (i + 1) rest u ds x :=
        fun u n ended m ran x => mem_runBlock rest ran x
      rw [mem_resume_iff ends resumed e]
      constructor
      · rintro (⟨member, closed⟩ | ⟨u, member, later, others⟩)
        · obtain ⟨ds, course⟩ := (heads e).mp member
          obtain ⟨u, disposition⟩ := e
          obtain ⟨disposition, rfl⟩ := Option.isSome_iff_exists.mp closed
          exact ⟨ds, .ended course⟩
        · obtain ⟨ds, course⟩ := (heads (u, none)).mp member
          exact ⟨_, .further course others⟩
      · rintro ⟨ds, course⟩
        cases course with
        | ended course => exact .inl ⟨(heads _).mpr ⟨_, course⟩, rfl⟩
        | further course others => exact .inr ⟨_, (heads _).mpr ⟨_, course⟩, _, others⟩

end

end Execution

/-! ### Policies -/

/-- A course through a policy: the decisions on it, and the path it ends as. -/
def Policy.Course [Arithmetic] (given : Assumed) (p : Policy) (r : Record) (ds : List Decision)
    (path : Path) : Prop :=
  ∃ e, Execution.BlockCourse
      ⟨p.name, given.limit, Execution.callsFrom given.table given.limit [p.name]⟩ [] 0 p.statements
      ⟨r, given.assumptions, []⟩ ds e ∧ path = Execution.toPath p.name e

/-- The paths of a policy are the ends of its courses. -/
theorem mem_evaluatePolicy [Arithmetic] {given : Assumed} {p : Policy} {r : Record}
    {paths : List Path} (ran : evaluatePolicy given p r = .ok paths) (path : Path) :
    path ∈ paths ↔ ∃ ds, p.Course given r ds path := by
  obtain ⟨⟨ended, _⟩, ranBlock, same⟩ := Outcome.bind_ok.mp ran
  cases same
  have ends := Execution.mem_runBlock p.statements ranBlock
  rw [List.mem_map]
  constructor
  · rintro ⟨e, member, rfl⟩
    obtain ⟨ds, course⟩ := (ends e).mp member
    exact ⟨ds, e, course, rfl⟩
  · rintro ⟨ds, e, course, rfl⟩
    exact ⟨e, (ends e).mpr ⟨ds, course⟩, rfl⟩

end RoutePolicy
