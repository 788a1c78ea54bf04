import RoutePolicy.Proofs.FaithfulTraces
import RoutePolicy.Proofs.NestedCalls

/-!
The statement that fails. A run comes to one statement after another, and a statement fails with what
its own expression or the limit on paths gives. Enclosing statements and calls fill only frames that
are still open, so a failed evaluation names the innermost statement: the one whose calls had all
been answered.
-/

set_option autoImplicit false

namespace RoutePolicy

/-! ### Failures that name no place -/

/-- An outcome that fails with faults that name no place yet. -/
def Outcome.FailsUnplaced {α : Type} (r : Outcome α) : Prop :=
  ∀ f, r = .error f → ∃ fault, f = .evaluation fault

namespace Outcome.FailsUnplaced

variable {α β : Type} {r : Outcome α}

theorem ok {a : α} : FailsUnplaced (.ok a) := by
  rintro _ ⟨⟩

theorem fault {fault : EvaluationFault} : FailsUnplaced (.error (.evaluation fault) : Outcome α) := by
  rintro _ ⟨⟩
  exact ⟨fault, rfl⟩

theorem bind {next : α → Outcome β} (first : r.FailsUnplaced)
    (later : ∀ a, r = .ok a → (next a).FailsUnplaced) : (r >>= next).FailsUnplaced := by
  intro f fails
  rcases Outcome.bind_error.mp fails with own | ⟨a, done, fails⟩
  · exact first f own
  · exact later a done f fails

end Outcome.FailsUnplaced

theorem Record.lookup_unplaced (r : Record) (name : Attribute) : (r.lookup name).FailsUnplaced := by
  unfold lookup
  split
  · exact .ok
  · exact .fault

theorem Record.assign_unplaced (r : Record) (name : Attribute) (value : Expr) :
    (r.assign name value).FailsUnplaced := by
  unfold assign
  split
  · exact .ok
  · exact .fault

theorem Expr.combine_unplaced (e : Expr) : e.combine.FailsUnplaced := by
  unfold combine
  split
  · exact .ok
  · split
    · exact .fault
    · exact .ok

variable [Arithmetic]

theorem Expr.moved_unplaced (current : Expr) (delta : Int) : (current.moved delta).FailsUnplaced := by
  unfold moved
  split
  · exact .ok
  · exact .ok
  · exact .ok
  · exact .fault

/-! ### Expressions -/

namespace Expr

variable {calls : Calls} {r : Record} {policy : String} {f : Failure}

/-- An expression that asks for an answer fails with what the answer fails with. -/
theorem Asks.error {e : Expr} (asks : e.Asks calls r policy) (fails : calls policy r = .error f) :
    e.evaluate calls r = .error f := by
  induction asks with
  | call cls => rwa [evaluate]
  | operand operator place earlier inside ih =>
      rw [evaluate_isOperator operator, Outcome.bind_error, evaluateAll_error]
      exact .inl ⟨_, _, _, place, earlier, ih⟩

/-- A failure names no place if no answer that the expression asks for names one. -/
theorem evaluate_unplaced {e : Expr}
    (answers : ∀ policy, e.Asks calls r policy → (calls policy r).FailsUnplaced) :
    (e.evaluate calls r).FailsUnplaced := by
  induction e using childrenInduction with
  | step e ih =>
    by_cases operator : e.isOperator = true
    · rw [evaluate_isOperator operator]
      refine .bind (fun f fails => ?_) fun xs _ => combine_unplaced _
      obtain ⟨before, part, after, place, earlier, fails⟩ := evaluateAll_error.mp fails
      refine ih part (place ▸ by simp) (fun policy asks => ?_) f fails
      exact answers policy (.operand operator place earlier asks)
    · cases e with
      | call cls policy =>
          rw [evaluate]
          exact answers policy (.call cls)
      | attr cls name =>
          rw [evaluate]
          exact r.lookup_unplaced name
      | adjust cls shift amount =>
          rw [evaluate]
          exact .bind (r.lookup_unplaced _) fun current _ => moved_unplaced current _
      | lit _ _ => exact .ok
      | inList _ _ _ _ | namedSet _ _ | unsupported _ _ => exact .fault
      | _ => exact absurd rfl operator

end Expr

/-! ### Statements -/

/-- The expression that a statement evaluates by itself. -/
def Statement.value? : Statement → Option Expr
  | branch _ guard _ _ _ => some guard
  | assign _ _ value => some value
  | finish _ _ => none

/-- A statement that a run comes to, with the thread it is run from and the number of paths that the
policy has by then. -/
structure Visit where
  here : Position
  statement : Statement
  thread : Thread
  paths : Nat

namespace Execution

mutual

/-- Running a statement comes to it, and to statements of the branches that it takes. -/
inductive StatementComes (frame : Frame) : Position → Statement → Thread → Nat → Visit → Prop
  | itself {here : Position} {s : Statement} {t : Thread} {n : Nat} :
      StatementComes frame here s t n ⟨here, s, t, n⟩
  | taken {here : Position} {cls : Spelling} {guard value : Expr}
      {onTrue onFalse : List Statement} {comment : Comment} {t : Thread} {n : Nat} {taken : Bool}
      {v : Visit} (known : guardValue frame t.record guard = .ok value)
      (chosen : choice t.condition value = some taken)
      (inside : BlockComes frame (here ++ [.branch taken]) 0 (if taken then onTrue else onFalse)
        (t.log (.branch frame.policy here taken value.bool?.isNone)) n v) :
      StatementComes frame here (.branch cls guard onTrue onFalse comment) t n v
  | first {here : Position} {cls : Spelling} {guard value : Expr}
      {onTrue onFalse : List Statement} {comment : Comment} {t : Thread} {n : Nat} {v : Visit}
      (known : guardValue frame t.record guard = .ok value)
      (undecided : choice t.condition value = none) (room : ¬frame.limit < n + 1)
      (inside : BlockComes frame (here ++ [.branch true]) 0 onTrue
        ((t.assuming value).log (.branch frame.policy here true true)) (n + 1) v) :
      StatementComes frame here (.branch cls guard onTrue onFalse comment) t n v
  | second {here : Position} {cls : Spelling} {guard value : Expr}
      {onTrue onFalse : List Statement} {comment : Comment} {t : Thread} {n m : Nat} {v : Visit}
      {ended : List Ended} (known : guardValue frame t.record guard = .ok value)
      (undecided : choice t.condition value = none) (room : ¬frame.limit < n + 1)
      (done : enter frame here onTrue onFalse true true (t.assuming value) (n + 1) =
        .ok (ended, m))
      (inside : BlockComes frame (here ++ [.branch false]) 0 onFalse
        ((t.assuming value.negate).log (.branch frame.policy here false true)) m v) :
      StatementComes frame here (.branch cls guard onTrue onFalse comment) t n v

/-- Running a block comes to its first statement, and to the rest of it from every thread that did
not end. -/
inductive BlockComes (frame : Frame) :
    Position → Nat → List Statement → Thread → Nat → Visit → Prop
  | first {above : Position} {i : Nat} {s : Statement} {rest : List Statement} {t : Thread}
      {n : Nat} {v : Visit} (inside : StatementComes frame (above ++ [.index i]) s t n v) :
      BlockComes frame above i (s :: rest) t n v
  | rest {above : Position} {i : Nat} {s : Statement} {rest : List Statement} {t u : Thread}
      {n m k : Nat} {before after done : List Ended} {v : Visit}
      (ran : runStatement frame (above ++ [.index i]) s t n =
        .ok (before ++ (u, none) :: after, m))
      (resumed : resume (runBlock frame above (i + 1) rest) before m = .ok (done, k))
      (inside : BlockComes frame above (i + 1) rest u k v) :
      BlockComes frame above i (s :: rest) t n v

end

theorem guardValue_unplaced {frame : Frame} {r : Record} {guard : Expr}
    (answers : ∀ policy, guard.Asks frame.calls r policy → (frame.calls policy r).FailsUnplaced) :
    (guardValue frame r guard).FailsUnplaced := by
  refine .bind (Expr.evaluate_unplaced answers) fun value _ => ?_
  split
  · exact .fault
  · exact .ok

end Execution

namespace Visit

open Execution

/-- What a statement does by itself, before any statement below it. -/
def step (frame : Frame) (v : Visit) : Outcome Unit :=
  match v.statement with
  | .finish _ _ => .ok ()
  | .assign _ target value => do
    let value ← value.evaluate frame.calls v.thread.record
    let _ ← v.thread.record.assign target.toAttribute value
    .ok ()
  | .branch _ guard _ _ _ => do
    let value ← guardValue frame v.thread.record guard
    if choice v.thread.condition value = none ∧ frame.limit < v.paths + 1 then
      .error (.evaluation (.tooManyPaths frame.limit))
    else .ok ()

/-- The statement's own expression asks what the call of a policy answers. -/
def Asks (calls : Calls) (v : Visit) (policy : String) : Prop :=
  ∃ e, v.statement.value? = some e ∧ e.Asks calls v.thread.record policy

/-- What the open frames of a statement's failure are filled with. -/
def context (frame : Frame) (v : Visit) : Context :=
  Context.policyStatement frame.policy v.here.text

variable {frame : Frame} {v : Visit} {policy : String} {f : Failure}

/-- A statement fails as its expression does. -/
theorem step_error {e : Expr} (own : v.statement.value? = some e)
    (fails : e.evaluate frame.calls v.thread.record = .error f) : v.step frame = .error f := by
  obtain ⟨here, s, t, n⟩ := v
  cases s with
  | finish _ _ => cases own
  | assign cls target value =>
      cases own
      exact Outcome.bind_error.mpr (.inl fails)
  | branch cls guard onTrue onFalse comment =>
      cases own
      exact Outcome.bind_error.mpr (.inl (Outcome.bind_error.mpr (.inl fails)))

/-- A statement fails with a fault that names no place if no answer it asks for names one. -/
theorem step_unplaced
    (answers : ∀ policy, v.Asks frame.calls policy →
      (frame.calls policy v.thread.record).FailsUnplaced) : (v.step frame).FailsUnplaced := by
  obtain ⟨here, s, t, n⟩ := v
  cases s with
  | finish _ _ => exact .ok
  | assign cls target value =>
      have evaluated := Expr.evaluate_unplaced fun policy asks => answers policy ⟨value, rfl, asks⟩
      exact .bind evaluated fun x _ => .bind (t.record.assign_unplaced _ x) fun _ _ => .ok
  | branch cls guard onTrue onFalse comment =>
      refine .bind (guardValue_unplaced fun policy asks => answers policy ⟨guard, rfl, asks⟩)
        fun value _ => ?_
      split
      · exact .fault
      · exact .ok

end Visit

namespace Execution

variable {frame : Frame} {f g : Failure}

omit [Arithmetic] in
theorem inContext_error {α : Type} {context : Context} {r : Outcome α} :
    Outcome.inContext context r = .error f ↔ ∃ g, r = .error g ∧ f = g.fill context := by
  cases r with
  | ok a => simp [Outcome.inContext, Except.mapError]
  | error g => simp [Outcome.inContext, Except.mapError, eq_comm]

/-- An assignment fails in its own step only. -/
theorem runStatement_assign_error {here : Position} {cls : Spelling} {target : Settable}
    {value : Expr} {t : Thread} {n : Nat} :
    runStatement frame here (.assign cls target value) t n = .error f ↔ ∃ g,
      Visit.step frame ⟨here, .assign cls target value, t, n⟩ = .error g ∧
      f = g.fill (Context.policyStatement frame.policy here.text) := by
  simp only [runStatement, Visit.step, Outcome.bind_error, inContext_error, reduceCtorEq, and_false,
    exists_false, or_false]

/-- A statement whose own step fails is where the run fails. -/
theorem runStatement_stops {v : Visit} (fails : v.step frame = .error g) :
    runStatement frame v.here v.statement v.thread v.paths = .error (g.fill (v.context frame)) := by
  obtain ⟨here, s, t, n⟩ := v
  cases s with
  | finish _ _ => cases fails
  | assign cls target value =>
      exact runStatement_assign_error.mpr ⟨g, fails, rfl⟩
  | branch cls guard onTrue onFalse comment =>
      rcases Outcome.bind_error.mp fails with fails | ⟨value, known, fails⟩
      · rw [runStatement_branch, Outcome.bind_error, inContext_error]
        exact .inl ⟨g, fails, rfl⟩
      · rw [runStatement_known known, runBranch]
        dsimp only at fails
        split at fails
        · rename_i full
          cases fails
          rw [full.1]
          exact if_pos full.2
        · cases fails

mutual

/-- A run fails with what a statement that it comes to fails with. -/
theorem runStatement_error {here : Position} (s : Statement) {t : Thread} {n : Nat} {v : Visit}
    (comes : StatementComes frame here s t n v)
    (fails : runStatement frame v.here v.statement v.thread v.paths = .error f) :
    runStatement frame here s t n = .error f := by
  cases s with
  | finish cls disposition =>
      cases comes
      exact fails
  | assign cls target value =>
      cases comes
      exact fails
  | branch cls guard onTrue onFalse comment =>
      cases comes with
      | itself => exact fails
      | @taken _ _ _ value _ _ _ _ _ taken _ known chosen inside =>
          rw [runStatement_known known, runBranch, chosen]
          cases taken with
          | true => exact runBlock_error onTrue inside fails
          | false => exact runBlock_error onFalse inside fails
      | first known undecided room inside =>
          rw [runStatement_known known, runBranch, undecided]
          dsimp only
          rw [if_neg room, Outcome.bind_error]
          exact .inl (runBlock_error onTrue inside fails)
      | second known undecided room done inside =>
          rw [runStatement_known known, runBranch, undecided]
          dsimp only
          rw [if_neg room, done, Outcome.bind_error]
          have second := runBlock_error onFalse inside fails
          exact .inr ⟨_, rfl, Outcome.bind_error.mpr (.inl second)⟩

theorem runBlock_error {above : Position} {i : Nat} (block : List Statement) {t : Thread} {n : Nat}
    {v : Visit} (comes : BlockComes frame above i block t n v)
    (fails : runStatement frame v.here v.statement v.thread v.paths = .error f) :
    runBlock frame above i block t n = .error f := by
  cases block with
  | nil => cases comes
  | cons s rest =>
      cases comes with
      | first inside =>
          rw [runBlock, Outcome.bind_error]
          exact .inl (runStatement_error s inside fails)
      | rest ran resumed inside =>
          rw [runBlock, ran, Outcome.bind_error]
          refine .inr ⟨_, rfl, resume_error.mpr ?_⟩
          exact ⟨_, _, _, _, _, rfl, resumed, runBlock_error rest inside fails⟩

end

mutual

/-- A run that fails comes to a statement whose own step fails. -/
theorem runStatement_stopped (here : Position) (s : Statement) {t : Thread} {n : Nat}
    (fails : runStatement frame here s t n = .error f) :
    ∃ v g, StatementComes frame here s t n v ∧ v.step frame = .error g ∧
      f = g.fill (v.context frame) := by
  cases s with
  | finish cls disposition => cases fails
  | assign cls target value =>
      obtain ⟨g, fails, same⟩ := runStatement_assign_error.mp fails
      exact ⟨_, g, .itself, fails, same⟩
  | branch cls guard onTrue onFalse comment =>
      rw [runStatement_branch, Outcome.bind_error, inContext_error] at fails
      rcases fails with ⟨g, fails, same⟩ | ⟨value, known, fails⟩
      · exact ⟨_, g, .itself, Outcome.bind_error.mpr (.inl fails), same⟩
      · replace known := Outcome.inContext_ok.mp known
        unfold runBranch at fails
        cases chosen : choice t.condition value with
        | some taken =>
            rw [chosen] at fails
            have inside : ∃ v g, BlockComes frame (here ++ [.branch taken]) 0
                (if taken then onTrue else onFalse)
                (t.log (.branch frame.policy here taken value.bool?.isNone)) n v ∧
                v.step frame = .error g ∧ f = g.fill (v.context frame) := by
              cases taken with
              | true => exact runBlock_stopped _ 0 onTrue fails
              | false => exact runBlock_stopped _ 0 onFalse fails
            obtain ⟨v, g, inside, stops⟩ := inside
            exact ⟨v, g, .taken known chosen inside, stops⟩
        | none =>
            rw [chosen] at fails
            dsimp only at fails
            split at fails
            · rename_i full
              cases fails
              refine ⟨⟨here, .branch cls guard onTrue onFalse comment, t, n⟩,
                .evaluation (.tooManyPaths frame.limit), .itself, ?_, rfl⟩
              exact Outcome.bind_error.mpr (.inr ⟨value, known, if_pos ⟨chosen, full⟩⟩)
            · rename_i room
              rcases Outcome.bind_error.mp fails with fails | ⟨⟨ended, m⟩, done, fails⟩
              · obtain ⟨v, g, inside, stops⟩ := runBlock_stopped _ 0 onTrue fails
                exact ⟨v, g, .first known chosen room inside, stops⟩
              · rcases Outcome.bind_error.mp fails with fails | ⟨_, -, impossible⟩
                · obtain ⟨v, g, inside, stops⟩ := runBlock_stopped _ 0 onFalse fails
                  exact ⟨v, g, .second known chosen room done inside, stops⟩
                · cases impossible

theorem runBlock_stopped (above : Position) (i : Nat) (block : List Statement) {t : Thread}
    {n : Nat} (fails : runBlock frame above i block t n = .error f) :
    ∃ v g, BlockComes frame above i block t n v ∧ v.step frame = .error g ∧
      f = g.fill (v.context frame) := by
  cases block with
  | nil => cases fails
  | cons s rest =>
      rw [runBlock, Outcome.bind_error] at fails
      rcases fails with fails | ⟨⟨ended, m⟩, ran, fails⟩
      · obtain ⟨v, g, inside, stops⟩ := runStatement_stopped _ s fails
        exact ⟨v, g, .first inside, stops⟩
      · obtain ⟨before, u, after, done, k, rfl, resumed, fails⟩ := resume_error.mp fails
        obtain ⟨v, g, inside, stops⟩ := runBlock_stopped above (i + 1) rest fails
        exact ⟨v, g, .rest ran resumed inside, stops⟩

end

/-! ### What a run comes to -/

mutual

/-- A run evaluates the expressions of the statements that it comes to. -/
theorem statementEvaluates_iff {here : Position} (s : Statement) {t : Thread} {n : Nat} {e : Expr}
    {r : Record} : StatementEvaluates frame here s t n e r ↔ ∃ v,
      StatementComes frame here s t n v ∧ v.statement.value? = some e ∧ v.thread.record = r := by
  cases s with
  | finish cls disposition =>
      constructor
      · intro evaluates
        cases evaluates
      · rintro ⟨v, comes, own, -⟩
        cases comes
        cases own
  | assign cls target value =>
      constructor
      · intro evaluates
        cases evaluates
        exact ⟨_, .itself, rfl, rfl⟩
      · rintro ⟨v, comes, own, rfl⟩
        cases comes
        cases own
        exact .value
  | branch cls guard onTrue onFalse comment =>
      constructor
      · intro evaluates
        cases evaluates with
        | guard => exact ⟨_, .itself, rfl, rfl⟩
        | @taken _ _ _ value _ _ _ _ _ taken _ _ known chosen inside =>
            cases taken with
            | true =>
                obtain ⟨v, comes, own⟩ := (blockEvaluates_iff onTrue).mp inside
                exact ⟨v, .taken known chosen comes, own⟩
            | false =>
                obtain ⟨v, comes, own⟩ := (blockEvaluates_iff onFalse).mp inside
                exact ⟨v, .taken known chosen comes, own⟩
        | first known undecided room inside =>
            obtain ⟨v, comes, own⟩ := (blockEvaluates_iff onTrue).mp inside
            exact ⟨v, .first known undecided room comes, own⟩
        | second known undecided room done inside =>
            obtain ⟨v, comes, own⟩ := (blockEvaluates_iff onFalse).mp inside
            exact ⟨v, .second known undecided room done comes, own⟩
      · rintro ⟨v, comes, own⟩
        cases comes with
        | itself =>
            obtain ⟨own, rfl⟩ := own
            cases own
            exact .guard
        | @taken _ _ _ value _ _ _ _ _ taken _ known chosen inside =>
            cases taken with
            | true => exact .taken known chosen ((blockEvaluates_iff onTrue).mpr ⟨v, inside, own⟩)
            | false => exact .taken known chosen ((blockEvaluates_iff onFalse).mpr ⟨v, inside, own⟩)
        | first known undecided room inside =>
            exact .first known undecided room ((blockEvaluates_iff onTrue).mpr ⟨v, inside, own⟩)
        | second known undecided room done inside =>
            have evaluates := (blockEvaluates_iff onFalse).mpr ⟨v, inside, own⟩
            exact .second known undecided room done evaluates

theorem blockEvaluates_iff {above : Position} {i : Nat} (block : List Statement) {t : Thread}
    {n : Nat} {e : Expr} {r : Record} : BlockEvaluates frame above i block t n e r ↔ ∃ v,
      BlockComes frame above i block t n v ∧ v.statement.value? = some e ∧
        v.thread.record = r := by
  cases block with
  | nil =>
      constructor
      · intro evaluates
        cases evaluates
      · rintro ⟨v, comes, -⟩
        cases comes
  | cons s rest =>
      constructor
      · intro evaluates
        cases evaluates with
        | first inside =>
            obtain ⟨v, comes, own⟩ := (statementEvaluates_iff s).mp inside
            exact ⟨v, .first comes, own⟩
        | rest ran resumed inside =>
            obtain ⟨v, comes, own⟩ := (blockEvaluates_iff rest).mp inside
            exact ⟨v, .rest ran resumed comes, own⟩
      · rintro ⟨v, comes, own⟩
        cases comes with
        | first inside => exact .first ((statementEvaluates_iff s).mpr ⟨v, inside, own⟩)
        | rest ran resumed inside =>
            exact .rest ran resumed ((blockEvaluates_iff rest).mpr ⟨v, inside, own⟩)

end

mutual

/-- A run comes to statements where they lie. -/
theorem lies_of_statementComes {here : Position} (s : Statement) {t : Thread} {n : Nat} {v : Visit}
    (comes : StatementComes frame here s t n v) : s.Lies here (v.here, v.statement) := by
  cases s with
  | finish cls disposition =>
      cases comes
      exact ⟨[], (List.append_nil here).symm, rfl⟩
  | assign cls target value =>
      cases comes
      exact ⟨[], (List.append_nil here).symm, rfl⟩
  | branch cls guard onTrue onFalse comment =>
      cases comes with
      | itself => exact ⟨[], (List.append_nil here).symm, rfl⟩
      | @taken _ _ _ value _ _ _ _ _ taken _ known chosen inside =>
          cases taken with
          | true => exact Statement.LiesAll.branch (lies_of_blockComes onTrue inside)
          | false => exact Statement.LiesAll.branch (lies_of_blockComes onFalse inside)
      | first known undecided room inside =>
          exact Statement.LiesAll.branch (lies_of_blockComes onTrue inside)
      | second known undecided room done inside =>
          exact Statement.LiesAll.branch (lies_of_blockComes onFalse inside)

theorem lies_of_blockComes {above : Position} {i : Nat} (block : List Statement) {t : Thread}
    {n : Nat} {v : Visit} (comes : BlockComes frame above i block t n v) :
    Statement.LiesAll above i block (v.here, v.statement) := by
  cases block with
  | nil => cases comes
  | cons s rest =>
      cases comes with
      | first inside => exact (lies_of_statementComes s inside).head
      | rest ran resumed inside => exact (lies_of_blockComes rest inside).tail

end

end Execution

/-! ### Evaluations -/

namespace Evaluation

open Execution

variable {table : Table Policy} {limit : Int} {e inner : Evaluation} {v : Visit} {f : Failure}
  {name : String}

/-- What stays fixed while an evaluation runs its policy. -/
def frame (table : Table Policy) (limit : Int) (e : Evaluation) : Frame :=
  ⟨e.policy.name, limit, callsFrom table limit e.stack⟩

/-- An evaluation comes to a statement of its policy. -/
def Comes (table : Table Policy) (limit : Int) (e : Evaluation) (v : Visit) : Prop :=
  BlockComes (e.frame table limit) [] 0 e.policy.statements ⟨e.record, e.assumptions, []⟩ 1 v

/-- A statement that an evaluation comes to fails with a fault of its own: every policy that it
called by then has returned. -/
structure Stops (table : Table Policy) (limit : Int) (e : Evaluation) (v : Visit)
    (fault : EvaluationFault) : Prop where
  comes : e.Comes table limit v
  fails : v.step (e.frame table limit) = .error (.evaluation fault)
  returned : ∀ name p, v.Asks (callsFrom table limit e.stack) name → name ∉ e.stack →
    table.get? name = some p → ∃ paths, (e.called name p v.thread.record).run table limit = .ok paths

/-- A statement lies where an evaluation comes to it. -/
theorem Comes.statementAt? (comes : e.Comes table limit v) :
    e.policy.statementAt? v.here = some v.statement := by
  obtain ⟨j, rest, place, found⟩ := lies_of_blockComes e.policy.statements comes
  rw [show v.here = .index j :: rest by simpa using place]
  exact found

theorem asks_iff {r : Record} : e.Asks table limit name r ↔ ∃ v, e.Comes table limit v ∧
    v.Asks (callsFrom table limit e.stack) name ∧ v.thread.record = r := by
  constructor
  · rintro ⟨x, evaluates, asks⟩
    obtain ⟨v, comes, own, rfl⟩ := (blockEvaluates_iff e.policy.statements).mp evaluates
    exact ⟨v, comes, ⟨x, own, asks⟩, rfl⟩
  · rintro ⟨v, comes, ⟨x, own, asks⟩, rfl⟩
    exact ⟨x, (blockEvaluates_iff e.policy.statements).mpr ⟨v, comes, own, rfl⟩, asks⟩

/-- An evaluation fails where the step of a statement does. -/
theorem run_error : e.run table limit = .error f ↔ ∃ v g, e.Comes table limit v ∧
    v.step (e.frame table limit) = .error g ∧ f = g.fill (v.context (e.frame table limit)) := by
  constructor
  · intro fails
    rcases Outcome.bind_error.mp fails with fails | ⟨_, -, impossible⟩
    · exact runBlock_stopped [] 0 e.policy.statements fails
    · cases impossible
  · rintro ⟨v, g, comes, stops, rfl⟩
    refine Outcome.bind_error.mpr (.inl ?_)
    exact runBlock_error e.policy.statements comes (runStatement_stops stops)

/-- The call of a policy that is not being run fails as its evaluation does. -/
theorem callsFrom_error {p : Policy} {r : Record} (fresh : name ∉ e.stack)
    (found : table.get? name = some p) :
    callsFrom table limit e.stack name r = .error f ↔
      (e.called name p r).run table limit = .error f := by
  rw [callsFrom, dif_neg fresh]
  split
  · rename_i missing
    rw [found] at missing
    cases missing
  · rename_i other same
    cases found.symm.trans same
    simp only [Outcome.bind_error, reduceCtorEq, and_false, exists_false, or_false]
    rfl

/-- The call of a policy whose evaluation returns, if there is one, fails at the call only. -/
theorem callsFrom_unplaced {r : Record} (returned : ∀ p, name ∉ e.stack → table.get? name = some p →
      ∃ paths, (e.called name p r).run table limit = .ok paths) :
    (callsFrom table limit e.stack name r).FailsUnplaced := by
  by_cases repeated : name ∈ e.stack
  · rw [callsFrom, dif_pos repeated]
    exact .fault
  · cases found : table.get? name with
    | none =>
        rw [callsFrom, dif_neg repeated]
        split
        · exact .fault
        · rename_i p same
          rw [found] at same
          cases same
    | some p =>
        intro f fails
        obtain ⟨paths, done⟩ := returned p repeated found
        cases done.symm.trans ((callsFrom_error repeated found).mp fails)

/-- The failure of a statement of an evaluation: it names the policy and the statement. -/
def failure (e : Evaluation) (v : Visit) (fault : EvaluationFault) : Failure :=
  ⟨.evaluation fault, Context.policyStatement e.policy.name v.here.text⟩

/-- An evaluation fails with what a statement of an evaluation that it leads to stops with. -/
theorem Leads.error {fault : EvaluationFault} (leads : Leads table limit e inner)
    (stops : inner.Stops table limit v fault) :
    e.run table limit = .error (inner.failure v fault) := by
  induction leads with
  | itself e => exact run_error.mpr ⟨v, _, stops.comes, stops.fails, rfl⟩
  | @call e inner name p r asks fresh found further ih =>
      obtain ⟨w, comes, ⟨x, own, inside⟩, rfl⟩ := asks_iff.mp asks
      have answer := inside.error ((callsFrom_error fresh found).mpr (ih stops))
      exact run_error.mpr ⟨w, _, comes, Visit.step_error own answer, rfl⟩

/-- An evaluation that fails leads to one of which a statement stops. -/
theorem exists_stops (e : Evaluation) {f : Failure} (fails : e.run table limit = .error f) :
    ∃ inner v fault, Leads table limit e inner ∧ inner.Stops table limit v fault ∧
      f = inner.failure v fault := by
  obtain ⟨v, g, comes, stops, same⟩ := run_error.mp fails
  by_cases returned : ∀ name p, v.Asks (callsFrom table limit e.stack) name → name ∉ e.stack →
      table.get? name = some p → ∃ paths, (e.called name p v.thread.record).run table limit = .ok paths
  · obtain ⟨fault, rfl⟩ := Visit.step_unplaced (fun name asks =>
      callsFrom_unplaced fun p fresh found => returned name p asks fresh found) g stops
    exact ⟨e, v, fault, .itself e, ⟨comes, stops, returned⟩, same⟩
  · -- the failure came from a call and names a place already
    push Not at returned
    obtain ⟨name, p, ⟨x, own, asks⟩, fresh, found, failed⟩ := returned
    cases ran : (e.called name p v.thread.record).run table limit with
    | ok paths => exact absurd ran (failed paths)
    | error g' =>
        have smaller := idle_lt fresh found
        obtain ⟨inner, w, fault, further, stopped, rfl⟩ := exists_stops _ ran
        have answer := asks.error ((callsFrom_error fresh found).mpr ran)
        cases stops.symm.trans (Visit.step_error own answer)
        refine ⟨inner, w, fault, .call ?_ fresh found further, stopped, same⟩
        exact asks_iff.mpr ⟨v, comes, ⟨x, own, asks⟩, rfl⟩
termination_by (idle table e.stack).length
decreasing_by exact smaller

end Evaluation

/-- A policy's evaluation fails with the fault of a statement's own that it comes to, in the policy or
in one that calls lead to; the failure names the policy and the statement, whatever calls enclose
it. -/
theorem failures_name_innermost_statements (given : Assumed) (p : Policy) (r : Record)
    (f : Failure) : evaluatePolicy given p r = .error f ↔ ∃ inner v fault,
      Evaluation.Leads given.table given.limit (.begun given.assumptions p r) inner ∧
      inner.Stops given.table given.limit v fault ∧
      f = ⟨.evaluation fault, Context.policyStatement inner.policy.name v.here.text⟩ ∧
      inner.policy.statementAt? v.here = some v.statement ∧
      ∀ there : Position, there.text = v.here.text → there = v.here := by
  constructor
  · intro fails
    obtain ⟨inner, v, fault, leads, stops, same⟩ :=
      Evaluation.exists_stops (.begun given.assumptions p r) fails
    exact ⟨inner, v, fault, leads, stops, same, stops.comes.statementAt?,
      fun there => Position.text_inj⟩
  · rintro ⟨inner, v, fault, leads, stops, rfl, -, -⟩
    exact leads.error stops

end RoutePolicy
