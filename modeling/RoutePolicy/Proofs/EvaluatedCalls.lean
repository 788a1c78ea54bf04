import RoutePolicy.Proofs.Execution
import RoutePolicy.Proofs.NamedDefinitions

/-!
What a run evaluates. A run goes through guards and assigned values in order, and through the
operands of each in order, up to the first failure. So it fails as the first of them that fails, or
with a complaint of its own.
-/

set_option autoImplicit false

namespace RoutePolicy

/-! ### Failures -/

namespace Outcome

variable {α β : Type} {cause : Cause}

/-- A failure with a cause, wherever it arose. -/
def FailsWith (cause : Cause) (r : Outcome α) : Prop := ∃ f, r = .error f ∧ f.cause = cause

@[simp] theorem failsWith_error {f : Failure} :
    FailsWith cause (.error f : Outcome α) ↔ f.cause = cause := by
  simp [FailsWith]

theorem not_failsWith_ok {a : α} : ¬FailsWith cause (.ok a) := by
  simp [FailsWith]

theorem failsWith_bind {first : Outcome α} {next : α → Outcome β} :
    (first >>= next).FailsWith cause ↔
      first.FailsWith cause ∨ ∃ a, first = .ok a ∧ (next a).FailsWith cause := by
  cases first with
  | ok a => simp [not_failsWith_ok, bind, Except.bind]
  | error f => simp [bind, Except.bind]

theorem failsWith_inContext {context : Context} {r : Outcome α} :
    (r.inContext context).FailsWith cause ↔ r.FailsWith cause := by
  cases r with
  | ok a => exact iff_of_false not_failsWith_ok not_failsWith_ok
  | error f => simp [inContext, Except.mapError, Failure.fill]

end Outcome

/-- A complaint that an evaluation makes by itself: anything but a call that is recursive or names
no policy. -/
def Cause.Own (cause : Cause) : Prop :=
  ∃ fault, cause = .evaluation fault ∧
    ∀ policy, fault ≠ .recursiveCall policy ∧ fault ≠ .undefinedCall policy

theorem Cause.not_own_recursiveCall (policy : String) :
    ¬Cause.Own (.evaluation (.recursiveCall policy)) := by
  rintro ⟨fault, same, other⟩
  cases same
  exact (other policy).1 rfl

theorem Cause.not_own_undefinedCall (policy : String) :
    ¬Cause.Own (.evaluation (.undefinedCall policy)) := by
  rintro ⟨fault, same, other⟩
  cases same
  exact (other policy).2 rfl

/-- Whether a fault is about a value: not about a call, nor about a name that has been left. -/
def EvaluationFault.isPlain : EvaluationFault → Bool
  | recursiveCall _ | undefinedCall _ | unresolvedList _ | unresolvedSet _ => false
  | _ => true

/-- A complaint that an evaluation makes by itself and that no name leads to. -/
def Cause.Plain (cause : Cause) : Prop :=
  ∃ fault, cause = .evaluation fault ∧ fault.isPlain = true

theorem Cause.Plain.own {cause : Cause} (plain : cause.Plain) : cause.Own := by
  obtain ⟨fault, same, plain⟩ := plain
  refine ⟨fault, same, fun policy => ⟨?_, ?_⟩⟩
  · rintro rfl
    cases plain
  · rintro rfl
    cases plain

theorem Cause.own_unresolved (named : Reference) : Cause.Own (.evaluation named.unresolved) := by
  refine ⟨_, rfl, fun policy => ?_⟩
  cases named <;> simp [Reference.unresolved]

theorem Cause.not_plain_unresolved (named : Reference) :
    ¬Cause.Plain (.evaluation named.unresolved) := by
  rintro ⟨fault, same, plain⟩
  cases named <;> cases same <;> cases plain

/-- An outcome that fails by plain complaints of its own only. -/
def Outcome.FailsAlone {α : Type} (r : Outcome α) : Prop :=
  ∀ cause, r.FailsWith cause → cause.Plain

theorem Outcome.failsAlone_of_fault {α : Type} {fault : EvaluationFault} {context : Context}
    (plain : fault.isPlain = true) :
    FailsAlone (.error ⟨.evaluation fault, context⟩ : Outcome α) := by
  rintro _ ⟨_, same, rfl⟩
  cases same
  exact ⟨fault, rfl, plain⟩

theorem Outcome.failsAlone_ok {α : Type} {a : α} : FailsAlone (.ok a) :=
  fun _ impossible => (not_failsWith_ok impossible).elim

theorem Record.lookup_failsAlone (r : Record) (name : Attribute) : (r.lookup name).FailsAlone := by
  unfold lookup
  split
  · exact Outcome.failsAlone_ok
  · exact Outcome.failsAlone_of_fault rfl

theorem Record.assign_failsAlone (r : Record) (name : Attribute) (value : Expr) :
    (r.assign name value).FailsAlone := by
  unfold assign
  split
  · exact Outcome.failsAlone_ok
  · exact Outcome.failsAlone_of_fault rfl

variable [Arithmetic]

/-! ### Expressions -/

namespace Expr

variable {calls : Calls} {r : Record} {policy : String} {cause : Cause}

/-- The evaluation of an expression asks what the call of a policy answers: it is the call, or the
evaluation of an operand asks and the operands before it have values. -/
inductive Asks (calls : Calls) (r : Record) (policy : String) : Expr → Prop
  | call (cls : Spelling) : Asks calls r policy (.call cls policy)
  | operand {e part : Expr} {before after : List Expr} (operator : e.isOperator = true)
      (place : e.children = before ++ part :: after)
      (earlier : ∀ x ∈ before, ∃ y, x.evaluate calls r = .ok y)
      (inside : Asks calls r policy part) : Asks calls r policy e

/-- Operands fail with what the first one that fails gives. -/
theorem evaluateAll_error {es : List Expr} {f : Failure} :
    evaluateAll calls r es = .error f ↔ ∃ before part after, es = before ++ part :: after ∧
      (∀ x ∈ before, ∃ y, x.evaluate calls r = .ok y) ∧ part.evaluate calls r = .error f := by
  induction es with
  | nil => simp [evaluateAll]
  | cons e rest ih =>
      simp only [evaluateAll, Outcome.bind_error, reduceCtorEq, and_false, exists_false, or_false,
        ih]
      constructor
      · rintro (fails | ⟨y, value, before, part, after, rfl, earlier, fails⟩)
        · exact ⟨[], e, rest, rfl, List.forall_mem_nil _, fails⟩
        · refine ⟨e :: before, part, after, rfl, ?_, fails⟩
          exact List.forall_mem_cons.mpr ⟨⟨y, value⟩, earlier⟩
      · rintro ⟨before, part, after, same, earlier, fails⟩
        rcases before with _ | ⟨first, before⟩
        · cases same
          exact .inl fails
        · cases same
          obtain ⟨⟨y, value⟩, earlier⟩ := List.forall_mem_cons.mp earlier
          exact .inr ⟨y, value, before, part, after, rfl, earlier, fails⟩

theorem failsWith_evaluateAll {es : List Expr} :
    (evaluateAll calls r es).FailsWith cause ↔ ∃ before part after, es = before ++ part :: after ∧
      (∀ x ∈ before, ∃ y, x.evaluate calls r = .ok y) ∧
      (part.evaluate calls r).FailsWith cause := by
  constructor
  · rintro ⟨f, fails, same⟩
    obtain ⟨before, part, after, place, earlier, fails⟩ := evaluateAll_error.mp fails
    exact ⟨before, part, after, place, earlier, f, fails, same⟩
  · rintro ⟨before, part, after, place, earlier, f, fails, same⟩
    exact ⟨f, evaluateAll_error.mpr ⟨before, part, after, place, earlier, fails⟩, same⟩

omit [Arithmetic] in
theorem combine_failsAlone (e : Expr) : e.combine.FailsAlone := by
  unfold combine
  split
  · exact Outcome.failsAlone_ok
  · split
    · exact Outcome.failsAlone_of_fault rfl
    · exact Outcome.failsAlone_ok

theorem moved_failsAlone (current : Expr) (delta : Int) : (current.moved delta).FailsAlone := by
  unfold moved
  split
  · exact Outcome.failsAlone_ok
  · exact Outcome.failsAlone_ok
  · exact Outcome.failsAlone_ok
  · exact Outcome.failsAlone_of_fault rfl

/-- An expression that asks for an answer fails as the answer does. -/
theorem Asks.fails {e : Expr} (asks : e.Asks calls r policy)
    (fails : (calls policy r).FailsWith cause) : (e.evaluate calls r).FailsWith cause := by
  induction asks with
  | call cls => rwa [evaluate]
  | operand operator place earlier inside ih =>
      rw [evaluate_isOperator operator, Outcome.failsWith_bind, failsWith_evaluateAll]
      exact .inl ⟨_, _, _, place, earlier, ih⟩

/-- An expression that fails complains itself, has a reference that is left, or asks for an answer
that fails in the same way. -/
theorem evaluate_fails {e : Expr} (fails : (e.evaluate calls r).FailsWith cause) :
    cause.Plain ∨ (∃ named ∈ e.references, cause = .evaluation named.unresolved) ∨
      ∃ policy, e.Asks calls r policy ∧ (calls policy r).FailsWith cause := by
  induction e using childrenInduction with
  | step e ih =>
    by_cases operator : e.isOperator = true
    · rw [evaluate_isOperator operator, Outcome.failsWith_bind, failsWith_evaluateAll] at fails
      rcases fails with ⟨before, part, after, place, earlier, fails⟩ | ⟨xs, -, fails⟩
      · have member : part ∈ e.children := place ▸ by simp
        rcases ih part member fails with plain | ⟨named, left, same⟩ | ⟨policy, asks, fails⟩
        · exact .inl plain
        · exact .inr (.inl ⟨named, mem_references_of_child member left, same⟩)
        · exact .inr (.inr ⟨policy, .operand operator place earlier asks, fails⟩)
      · exact .inl (combine_failsAlone _ cause fails)
    · cases e with
      | call cls policy =>
          rw [evaluate] at fails
          exact .inr (.inr ⟨policy, .call cls, fails⟩)
      | attr cls name =>
          rw [evaluate] at fails
          exact .inl (r.lookup_failsAlone name cause fails)
      | adjust cls shift amount =>
          rw [evaluate, Outcome.failsWith_bind] at fails
          rcases fails with fails | ⟨current, -, fails⟩
          · exact .inl (r.lookup_failsAlone _ cause fails)
          · exact .inl (moved_failsAlone _ _ cause fails)
      | lit _ _ => exact (Outcome.not_failsWith_ok fails).elim
      | inList cls subject name setCls =>
          rw [evaluate] at fails
          refine .inr (.inl ⟨.list name, mem_references.mpr (.inl rfl), ?_⟩)
          exact (Outcome.failsWith_error.mp fails).symm
      | namedSet cls name =>
          rw [evaluate] at fails
          refine .inr (.inl ⟨.set name, mem_references.mpr (.inl rfl), ?_⟩)
          exact (Outcome.failsWith_error.mp fails).symm
      | unsupported tag raw =>
          rw [evaluate] at fails
          exact .inl (Outcome.failsAlone_of_fault rfl cause fails)
      | _ => exact absurd rfl operator

end Expr

/-! ### Statements -/

namespace Execution

/-- The branch that a guard takes, if its value or the conditions before it decide. -/
def choice (condition : List Expr) (value : Expr) : Option Bool :=
  value.bool?.or (assumed condition value)

/-- Runs a branch of a statement. -/
def enter (frame : Frame) (here : Position) (onTrue onFalse : List Statement)
    (taken symbolic : Bool) (t : Thread) : Nat → Threads :=
  runBlock frame (here ++ [.branch taken]) 0 (if taken then onTrue else onFalse)
    (t.log (.branch frame.policy here taken symbolic))

/-- Runs the branch a guard takes, or both branches under the guard and its negation. -/
def runBranch (frame : Frame) (here : Position) (onTrue onFalse : List Statement) (t : Thread)
    (paths : Nat) (value : Expr) : Threads :=
  match choice t.condition value with
  | some taken => enter frame here onTrue onFalse taken value.bool?.isNone t paths
  | none =>
    if frame.limit < paths + 1 then .error (exceeded frame here)
    else do
      let (first, paths) ← enter frame here onTrue onFalse true true (t.assuming value) (paths + 1)
      let (second, paths) ←
        enter frame here onTrue onFalse false true (t.assuming value.negate) paths
      .ok (first ++ second, paths)

theorem runStatement_branch (frame : Frame) (here : Position) (cls : Spelling) (guard : Expr)
    (onTrue onFalse : List Statement) (comment : Comment) (t : Thread) (paths : Nat) :
    runStatement frame here (.branch cls guard onTrue onFalse comment) t paths =
      (guardValue frame t.record guard).inContext (Context.policyStatement frame.policy here.text)
        >>= runBranch frame here onTrue onFalse t paths := by
  rw [runStatement]
  congr 1
  funext value
  unfold runBranch choice
  cases constant : value.bool? with
  | some taken => cases taken <;> rfl
  | none =>
      rw [Option.none_or]
      cases assumed t.condition value with
      | some taken => cases taken <;> rfl
      | none => rfl

mutual

/-- Running a statement evaluates an expression over a record. -/
inductive StatementEvaluates (frame : Frame) :
    Position → Statement → Thread → Nat → Expr → Record → Prop
  | value {here : Position} {cls : Spelling} {target : Settable} {value : Expr} {t : Thread}
      {n : Nat} : StatementEvaluates frame here (.assign cls target value) t n value t.record
  | guard {here : Position} {cls : Spelling} {guard : Expr} {onTrue onFalse : List Statement}
      {comment : Comment} {t : Thread} {n : Nat} :
      StatementEvaluates frame here (.branch cls guard onTrue onFalse comment) t n guard t.record
  | taken {here : Position} {cls : Spelling} {guard value : Expr}
      {onTrue onFalse : List Statement} {comment : Comment} {t : Thread} {n : Nat} {taken : Bool}
      {e : Expr} {r : Record} (known : guardValue frame t.record guard = .ok value)
      (chosen : choice t.condition value = some taken)
      (inside : BlockEvaluates frame (here ++ [.branch taken]) 0 (if taken then onTrue else onFalse)
        (t.log (.branch frame.policy here taken value.bool?.isNone)) n e r) :
      StatementEvaluates frame here (.branch cls guard onTrue onFalse comment) t n e r
  | first {here : Position} {cls : Spelling} {guard value : Expr}
      {onTrue onFalse : List Statement} {comment : Comment} {t : Thread} {n : Nat} {e : Expr}
      {r : Record} (known : guardValue frame t.record guard = .ok value)
      (undecided : choice t.condition value = none) (room : ¬frame.limit < n + 1)
      (inside : BlockEvaluates frame (here ++ [.branch true]) 0 onTrue
        ((t.assuming value).log (.branch frame.policy here true true)) (n + 1) e r) :
      StatementEvaluates frame here (.branch cls guard onTrue onFalse comment) t n e r
  | second {here : Position} {cls : Spelling} {guard value : Expr}
      {onTrue onFalse : List Statement} {comment : Comment} {t : Thread} {n m : Nat} {e : Expr}
      {r : Record} {ended : List Ended} (known : guardValue frame t.record guard = .ok value)
      (undecided : choice t.condition value = none) (room : ¬frame.limit < n + 1)
      (done : enter frame here onTrue onFalse true true (t.assuming value) (n + 1) =
        .ok (ended, m))
      (inside : BlockEvaluates frame (here ++ [.branch false]) 0 onFalse
        ((t.assuming value.negate).log (.branch frame.policy here false true)) m e r) :
      StatementEvaluates frame here (.branch cls guard onTrue onFalse comment) t n e r

/-- Running a block evaluates an expression over a record: its first statement does, or the rest
of the block does when it is run from a thread that did not end. -/
inductive BlockEvaluates (frame : Frame) :
    Position → Nat → List Statement → Thread → Nat → Expr → Record → Prop
  | first {above : Position} {i : Nat} {s : Statement} {rest : List Statement} {t : Thread}
      {n : Nat} {e : Expr} {r : Record}
      (inside : StatementEvaluates frame (above ++ [.index i]) s t n e r) :
      BlockEvaluates frame above i (s :: rest) t n e r
  | rest {above : Position} {i : Nat} {s : Statement} {rest : List Statement} {t u : Thread}
      {n m k : Nat} {before after done : List Ended} {e : Expr} {r : Record}
      (ran : runStatement frame (above ++ [.index i]) s t n =
        .ok (before ++ (u, none) :: after, m))
      (resumed : resume (runBlock frame above (i + 1) rest) before m = .ok (done, k))
      (inside : BlockEvaluates frame above (i + 1) rest u k e r) :
      BlockEvaluates frame above i (s :: rest) t n e r

end

variable {frame : Frame} {cause : Cause}

omit [Arithmetic] in
/-- The rest of a block fails with what the first thread from which it fails gives. -/
theorem resume_error {run : Thread → Nat → Threads} {ended : List Ended} {n : Nat} {f : Failure} :
    resume run ended n = .error f ↔ ∃ before u after done k,
      ended = before ++ (u, none) :: after ∧ resume run before n = .ok (done, k) ∧
      run u k = .error f := by
  induction ended generalizing n with
  | nil => simp [resume]
  | cons head others ih =>
      obtain ⟨t, disposition⟩ := head
      cases disposition with
      | some disposition =>
          simp only [resume, Outcome.bind_error, reduceCtorEq, and_false, exists_false, or_false,
            ih]
          constructor
          · rintro ⟨before, u, after, done, k, rfl, resumed, fails⟩
            refine ⟨(t, some disposition) :: before, u, after, (t, some disposition) :: done, k,
              rfl, ?_, fails⟩
            simp only [resume, resumed, bind, Except.bind]
          · rintro ⟨before, u, after, done, k, same, resumed, fails⟩
            rcases before with _ | ⟨first, before⟩
            · cases same
            · cases same
              obtain ⟨⟨later, k'⟩, resumed, last⟩ := Outcome.bind_ok.mp resumed
              cases last
              exact ⟨before, u, after, later, _, rfl, resumed, fails⟩
      | none =>
          simp only [resume, Outcome.bind_error, reduceCtorEq, and_false, exists_false, or_false,
            ih]
          constructor
          · rintro (fails | ⟨⟨first, m⟩, ran, before, u, after, done, k, rfl, resumed, fails⟩)
            · exact ⟨[], t, others, [], n, rfl, rfl, fails⟩
            · refine ⟨(t, none) :: before, u, after, first ++ done, k, rfl, ?_, fails⟩
              dsimp only at resumed
              simp only [resume, ran, resumed, bind, Except.bind]
          · rintro ⟨before, u, after, done, k, same, resumed, fails⟩
            rcases before with _ | ⟨head, before⟩
            · cases same
              cases resumed
              exact .inl fails
            · cases same
              obtain ⟨⟨first, m⟩, ran, resumed⟩ := Outcome.bind_ok.mp resumed
              obtain ⟨⟨later, k'⟩, resumed, last⟩ := Outcome.bind_ok.mp resumed
              cases last
              exact .inr ⟨(first, m), ran, before, u, after, later, _, rfl, resumed, fails⟩

omit [Arithmetic] in
theorem failsWith_resume {run : Thread → Nat → Threads} {ended : List Ended} {n : Nat} :
    (resume run ended n).FailsWith cause ↔ ∃ before u after done k,
      ended = before ++ (u, none) :: after ∧ resume run before n = .ok (done, k) ∧
      (run u k).FailsWith cause := by
  constructor
  · rintro ⟨f, fails, same⟩
    obtain ⟨before, u, after, done, k, place, resumed, fails⟩ := resume_error.mp fails
    exact ⟨before, u, after, done, k, place, resumed, f, fails, same⟩
  · rintro ⟨before, u, after, done, k, place, resumed, f, fails, same⟩
    exact ⟨f, resume_error.mpr ⟨before, u, after, done, k, place, resumed, fails⟩, same⟩

theorem guardValue_fails {r : Record} {guard : Expr}
    (fails : (guard.evaluate frame.calls r).FailsWith cause) :
    (guardValue frame r guard).FailsWith cause :=
  Outcome.failsWith_bind.mpr (.inl fails)

theorem guardValue_failed {r : Record} {guard : Expr}
    (fails : (guardValue frame r guard).FailsWith cause) :
    cause.Plain ∨ (guard.evaluate frame.calls r).FailsWith cause := by
  rcases Outcome.failsWith_bind.mp fails with fails | ⟨value, -, fails⟩
  · exact .inr fails
  · refine .inl ?_
    split at fails
    · exact Outcome.failsAlone_of_fault rfl cause fails
    · exact (Outcome.not_failsWith_ok fails).elim

/-- What a branching statement does with a known guard. -/
theorem runStatement_known {here : Position} {cls : Spelling} {guard value : Expr}
    {onTrue onFalse : List Statement} {comment : Comment} {t : Thread} {n : Nat}
    (known : guardValue frame t.record guard = .ok value) :
    runStatement frame here (.branch cls guard onTrue onFalse comment) t n =
      runBranch frame here onTrue onFalse t n value := by
  rw [runStatement_branch, known]
  rfl

mutual

/-- A statement that evaluates an expression fails as the expression does. -/
theorem runStatement_fails {here : Position} (s : Statement) {t : Thread} {n : Nat} {e : Expr}
    {r : Record} (evaluates : StatementEvaluates frame here s t n e r)
    (fails : (e.evaluate frame.calls r).FailsWith cause) :
    (runStatement frame here s t n).FailsWith cause := by
  cases s with
  | finish cls disposition => cases evaluates
  | assign cls target value =>
      cases evaluates
      rw [runStatement]
      simp only [Outcome.failsWith_bind, Outcome.failsWith_inContext]
      exact .inl (.inl fails)
  | branch cls guard onTrue onFalse comment =>
      cases evaluates with
      | guard =>
          rw [runStatement_branch, Outcome.failsWith_bind, Outcome.failsWith_inContext]
          exact .inl (guardValue_fails fails)
      | @taken _ _ _ value _ _ _ _ _ taken _ _ known chosen inside =>
          rw [runStatement_known known, runBranch, chosen]
          cases taken with
          | true => exact runBlock_fails onTrue inside fails
          | false => exact runBlock_fails onFalse inside fails
      | first known undecided room inside =>
          rw [runStatement_known known, runBranch, undecided]
          dsimp only
          rw [if_neg room, Outcome.failsWith_bind]
          exact .inl (runBlock_fails onTrue inside fails)
      | second known undecided room done inside =>
          rw [runStatement_known known, runBranch, undecided]
          dsimp only
          rw [if_neg room, done, Outcome.failsWith_bind]
          have second := runBlock_fails onFalse inside fails
          exact .inr ⟨_, rfl, Outcome.failsWith_bind.mpr (.inl second)⟩

/-- A block that evaluates an expression fails as the expression does. -/
theorem runBlock_fails {above : Position} {i : Nat} (block : List Statement) {t : Thread} {n : Nat}
    {e : Expr} {r : Record} (evaluates : BlockEvaluates frame above i block t n e r)
    (fails : (e.evaluate frame.calls r).FailsWith cause) :
    (runBlock frame above i block t n).FailsWith cause := by
  cases block with
  | nil => cases evaluates
  | cons s rest =>
      cases evaluates with
      | first inside =>
          rw [runBlock, Outcome.failsWith_bind]
          exact .inl (runStatement_fails s inside fails)
      | rest ran resumed inside =>
          rw [runBlock, ran, Outcome.failsWith_bind]
          refine .inr ⟨_, rfl, failsWith_resume.mpr ?_⟩
          exact ⟨_, _, _, _, _, rfl, resumed, runBlock_fails rest inside fails⟩

end

mutual

/-- A statement that fails complains itself, or evaluates an expression that fails in the same
way. -/
theorem runStatement_failed (here : Position) (s : Statement) {t : Thread} {n : Nat}
    (fails : (runStatement frame here s t n).FailsWith cause) :
    cause.Plain ∨ ∃ e r, StatementEvaluates frame here s t n e r ∧
      (e.evaluate frame.calls r).FailsWith cause := by
  cases s with
  | finish cls disposition => exact (Outcome.not_failsWith_ok fails).elim
  | assign cls target value =>
      rw [runStatement] at fails
      simp only [Outcome.failsWith_bind, Outcome.failsWith_inContext, Outcome.not_failsWith_ok,
        and_false, exists_false, or_false] at fails
      rcases fails with fails | ⟨x, -, fails⟩
      · exact .inr ⟨value, t.record, .value, fails⟩
      · exact .inl (Record.assign_failsAlone _ _ _ cause fails)
  | branch cls guard onTrue onFalse comment =>
      rw [runStatement_branch, Outcome.failsWith_bind, Outcome.failsWith_inContext] at fails
      rcases fails with fails | ⟨value, known, fails⟩
      · exact (guardValue_failed fails).imp_right fun fails => ⟨guard, t.record, .guard, fails⟩
      · replace known := Outcome.inContext_ok.mp known
        unfold runBranch at fails
        cases chosen : choice t.condition value with
        | some taken =>
            rw [chosen] at fails
            have inside : cause.Plain ∨ ∃ e r, BlockEvaluates frame (here ++ [.branch taken]) 0
                (if taken then onTrue else onFalse)
                (t.log (.branch frame.policy here taken value.bool?.isNone)) n e r ∧
                (e.evaluate frame.calls r).FailsWith cause := by
              cases taken with
              | true => exact runBlock_failed _ 0 onTrue fails
              | false => exact runBlock_failed _ 0 onFalse fails
            exact inside.imp_right fun ⟨e, r, inside, fails⟩ =>
              ⟨e, r, .taken known chosen inside, fails⟩
        | none =>
            rw [chosen] at fails
            dsimp only at fails
            split at fails
            · exact .inl (Outcome.failsAlone_of_fault rfl cause fails)
            · rename_i room
              simp only [Outcome.failsWith_bind, Outcome.not_failsWith_ok, and_false, exists_false,
                or_false] at fails
              rcases fails with fails | ⟨⟨ended, m⟩, done, fails⟩
              · exact (runBlock_failed _ 0 onTrue fails).imp_right fun ⟨e, r, inside, fails⟩ =>
                  ⟨e, r, .first known chosen room inside, fails⟩
              · exact (runBlock_failed _ 0 onFalse fails).imp_right fun ⟨e, r, inside, fails⟩ =>
                  ⟨e, r, .second known chosen room done inside, fails⟩

/-- A block that fails complains itself, or evaluates an expression that fails in the same way. -/
theorem runBlock_failed (above : Position) (i : Nat) (block : List Statement) {t : Thread} {n : Nat}
    (fails : (runBlock frame above i block t n).FailsWith cause) :
    cause.Plain ∨ ∃ e r, BlockEvaluates frame above i block t n e r ∧
      (e.evaluate frame.calls r).FailsWith cause := by
  cases block with
  | nil => exact (Outcome.not_failsWith_ok fails).elim
  | cons s rest =>
      rw [runBlock, Outcome.failsWith_bind] at fails
      rcases fails with fails | ⟨⟨ended, m⟩, ran, fails⟩
      · exact (runStatement_failed _ s fails).imp_right fun ⟨e, r, inside, fails⟩ =>
          ⟨e, r, .first inside, fails⟩
      · obtain ⟨before, u, after, done, k, rfl, resumed, fails⟩ := failsWith_resume.mp fails
        exact (runBlock_failed above (i + 1) rest fails).imp_right fun ⟨e, r, inside, fails⟩ =>
          ⟨e, r, .rest ran resumed inside, fails⟩

end

/-! ### Policies -/

/-- Running a policy asks what a call answers over a record. -/
def PolicyAsks (calls : Calls) (limit : Int) (assumptions : List Expr) (p : Policy) (start : Record)
    (policy : String) (r : Record) : Prop :=
  ∃ e, BlockEvaluates ⟨p.name, limit, calls⟩ [] 0 p.statements ⟨start, assumptions, []⟩ 1 e r ∧
    e.Asks calls r policy

/-- A policy that fails complains itself, evaluates an expression with a reference that is left, or
asks for an answer that fails in the same way. -/
theorem runPolicy_failed {calls : Calls} {limit : Int} {assumptions : List Expr} {p : Policy}
    {start : Record} (fails : (runPolicy calls limit assumptions p start).FailsWith cause) :
    cause.Plain ∨
      (∃ e r, BlockEvaluates ⟨p.name, limit, calls⟩ [] 0 p.statements ⟨start, assumptions, []⟩ 1 e r ∧
        ∃ named ∈ e.references, cause = .evaluation named.unresolved) ∨
      ∃ policy r,
        PolicyAsks calls limit assumptions p start policy r ∧ (calls policy r).FailsWith cause := by
  simp only [runPolicy, Outcome.failsWith_bind, Outcome.not_failsWith_ok, and_false, exists_false,
    or_false] at fails
  rcases runBlock_failed [] 0 p.statements fails with plain | ⟨e, r, evaluates, fails⟩
  · exact .inl plain
  · rcases Expr.evaluate_fails fails with plain | left | ⟨policy, asks, fails⟩
    · exact .inl plain
    · exact .inr (.inl ⟨e, r, evaluates, left⟩)
    · exact .inr (.inr ⟨policy, r, ⟨e, evaluates, asks⟩, fails⟩)

/-- A policy fails with a cause that is no complaint of its own if it asks for an answer that fails
so, and only then. -/
theorem failsWith_runPolicy {calls : Calls} {limit : Int} {assumptions : List Expr} {p : Policy}
    {start : Record} (notOwn : ¬cause.Own) :
    (runPolicy calls limit assumptions p start).FailsWith cause ↔ ∃ policy r,
      PolicyAsks calls limit assumptions p start policy r ∧ (calls policy r).FailsWith cause := by
  constructor
  · intro fails
    rcases runPolicy_failed fails with plain | ⟨_, _, -, named, -, rfl⟩ | asks
    · exact absurd plain.own notOwn
    · exact absurd (Cause.own_unresolved named) notOwn
    · exact asks
  · rintro ⟨policy, r, ⟨e, evaluates, asks⟩, fails⟩
    rw [runPolicy, Outcome.failsWith_bind]
    exact .inl (runBlock_fails p.statements evaluates (asks.fails fails))

end Execution

end RoutePolicy
