import RoutePolicy.Execution
import RoutePolicy.Proofs.Spelling
import RoutePolicy.Proofs.Tables

/-!
Spellings of class names in policies. Runs of policies and of chains commute with erasing them.
-/

set_option autoImplicit false

namespace RoutePolicy

namespace Statement

mutual

def bare : Statement → Statement
  | branch _ guard onTrue onFalse comment =>
    branch none guard.bare (bareAll onTrue) (bareAll onFalse) comment
  | assign _ target value => assign none target value.bare
  | finish _ disposition => finish none disposition

def bareAll : List Statement → List Statement
  | [] => []
  | s :: rest => s.bare :: bareAll rest

end

end Statement

/-- The policy with every class name short. -/
def Policy.bare (p : Policy) : Policy := ⟨p.name, Statement.bareAll p.statements⟩

def Table.bare (table : Table Policy) : Table Policy :=
  table.map fun entry => (entry.1, entry.2.bare)

def Thread.bare (t : Thread) : Thread := ⟨t.record.bare, t.condition.map Expr.bare, t.trace⟩

def Path.bare (path : Path) : Path :=
  ⟨path.disposition, path.condition.map Expr.bare, path.record.bare, path.trace⟩

namespace Thread

variable (t : Thread)

theorem record_bare : t.bare.record = t.record.bare := rfl

theorem condition_bare : t.bare.condition = t.condition.map Expr.bare := rfl

theorem log_bare (event : Event) : t.bare.log event = (t.log event).bare := rfl

theorem assuming_bare (c : Expr) : t.bare.assuming c.bare = (t.assuming c).bare := by
  simp [assuming, bare]

end Thread

theorem Table.get?_bare (table : Table Policy) (name : String) :
    table.bare.get? name = (table.get? name).map Policy.bare :=
  get?_map table Policy.bare

theorem residual_bare (paths : List Path) (d : Disposition) :
    residual (paths.map Path.bare) d = (residual paths d).bare := by
  have matching : (paths.map Path.bare).filter (·.disposition = d) =
      (paths.filter (·.disposition = d)).map Path.bare := by
    rw [List.filter_map]
    rfl
  unfold residual
  rw [matching]
  generalize List.filter _ paths = kept
  rcases kept with _ | ⟨path, rest⟩
  · rfl
  · rw [← Expr.simplify_bare]
    simp [Expr.any, Expr.all, Expr.bare, Expr.bareAll_eq, Path.bare, Function.comp_def]

theorem Outcome.inContext_map {α β : Type} (context : Context) (r : Outcome α) (f : α → β) :
    inContext context (r.map f) = (inContext context r).map f := by
  cases r <;> rfl

namespace Execution

theorem assumed_bare (condition : List Expr) (guard : Expr) :
    assumed (condition.map Expr.bare) guard.bare = assumed condition guard := by
  have decided : ∀ added : Expr,
      (Expr.all (condition.map Expr.bare ++ [added.bare])).simplify.bool? =
        (Expr.all (condition ++ [added])).simplify.bool? := by
    intro added
    rw [← Expr.bool?_bare (Expr.all (condition ++ [added])).simplify, ← Expr.simplify_bare]
    simp [Expr.all, Expr.bare, Expr.bareAll_eq]
  unfold assumed
  rw [Expr.negate_bare, decided, decided, List.isEmpty_map]

/-- What the threads of a block have come to, with every class name short. -/
def bareThreads (result : List Ended × Nat) : List Ended × Nat :=
  (result.1.map fun x => (x.1.bare, x.2), result.2)

theorem resume_bare {run other : Thread → Nat → Threads}
    (same : ∀ t paths, other t.bare paths = (run t paths).map bareThreads) (ended : List Ended)
    (paths : Nat) : resume other (ended.map fun x => (x.1.bare, x.2)) paths =
      (resume run ended paths).map bareThreads := by
  induction ended generalizing paths with
  | nil => rfl
  | cons head others ih =>
      obtain ⟨t, disposition⟩ := head
      cases disposition with
      | some disposition =>
          simp only [List.map_cons, resume, ih]
          exact Outcome.map_bind fun result _ => rfl
      | none =>
          simp only [List.map_cons, resume, same]
          refine Outcome.map_bind fun first _ => ?_
          simp only [bareThreads, ih]
          refine Outcome.map_bind fun later _ => ?_
          simp [bareThreads, Except.map]

variable [Arithmetic] {policy : String} {limit : Int} {calls others : Calls}

theorem guardValue_bare (mirrors : calls.Mirrors others) (r : Record) (guard : Expr) :
    guardValue ⟨policy, limit, others⟩ r.bare guard.bare =
      (guardValue ⟨policy, limit, calls⟩ r guard).map Expr.bare := by
  unfold guardValue
  rw [Expr.evaluate_bare r mirrors]
  refine Outcome.map_bind fun value _ => ?_
  simp only [Expr.isLiteral_bare, Expr.bool?_bare, Expr.kind_bare]
  split <;> rfl

mutual

theorem runStatement_bare (mirrors : calls.Mirrors others) (here : Position) (s : Statement)
    (t : Thread) (paths : Nat) :
    runStatement ⟨policy, limit, others⟩ here s.bare t.bare paths =
      (runStatement ⟨policy, limit, calls⟩ here s t paths).map bareThreads := by
  cases s with
  | finish cls disposition => rfl
  | assign cls target value =>
      rw [Statement.bare, runStatement, runStatement]
      have stepped : (do
          let x ← value.bare.evaluate others t.bare.record
          let record ← t.bare.record.assign target.toAttribute x
          .ok (x, record)) =
            Except.map (fun (result : Expr × Record) => (result.1.bare, result.2.bare)) (do
              let x ← value.evaluate calls t.record
              let record ← t.record.assign target.toAttribute x
              .ok (x, record)) := by
        rw [Thread.record_bare, Expr.evaluate_bare t.record mirrors]
        refine Outcome.map_bind fun x _ => ?_
        rw [Record.assign_bare]
        exact Outcome.map_bind fun record _ => rfl
      rw [stepped, Outcome.inContext_map]
      refine Outcome.map_bind fun result _ => ?_
      simp only [Expr.isLiteral_bare]
      rfl
  | branch cls guard onTrue onFalse comment =>
      have whenTrue := fun t paths =>
        runBlock_bare mirrors (here ++ [.branch true]) 0 onTrue t paths
      have whenFalse := fun t paths =>
        runBlock_bare mirrors (here ++ [.branch false]) 0 onFalse t paths
      rw [Statement.bare, runStatement, runStatement, Thread.record_bare, guardValue_bare mirrors,
        Outcome.inContext_map]
      refine Outcome.map_bind fun value _ => ?_
      dsimp only
      rw [Expr.bool?_bare, Thread.condition_bare, assumed_bare]
      rcases value.bool? with _ | _ | _
      · rcases assumed t.condition value with _ | _ | _
        · dsimp only
          split
          · rfl
          · rw [Thread.assuming_bare, Thread.log_bare, whenTrue]
            refine Outcome.map_bind fun first _ => ?_
            rw [Expr.negate_bare, Thread.assuming_bare, Thread.log_bare]
            dsimp only [bareThreads]
            rw [whenFalse]
            refine Outcome.map_bind fun second _ => ?_
            simp [bareThreads, Except.map]
        · exact whenFalse (t.log _) paths
        · exact whenTrue (t.log _) paths
      · exact whenFalse (t.log _) paths
      · exact whenTrue (t.log _) paths

theorem runBlock_bare (mirrors : calls.Mirrors others) (above : Position) (i : Nat)
    (block : List Statement) (t : Thread) (paths : Nat) :
    runBlock ⟨policy, limit, others⟩ above i (Statement.bareAll block) t.bare paths =
      (runBlock ⟨policy, limit, calls⟩ above i block t paths).map bareThreads := by
  cases block with
  | nil => rfl
  | cons s rest =>
      rw [Statement.bareAll, runBlock, runBlock, runStatement_bare mirrors]
      refine Outcome.map_bind fun result _ => ?_
      exact resume_bare (runBlock_bare mirrors above (i + 1) rest) result.1 result.2

end

omit [Arithmetic] in
theorem toPath_bare (policy : String) (x : Ended) :
    toPath policy (x.1.bare, x.2) = (toPath policy x).bare := by
  obtain ⟨t, _ | disposition⟩ := x <;> rfl

theorem runPolicy_bare (mirrors : calls.Mirrors others) (limit : Int) (assumptions : List Expr)
    (p : Policy) (r : Record) :
    runPolicy others limit (assumptions.map Expr.bare) p.bare r.bare =
      (runPolicy calls limit assumptions p r).map (List.map Path.bare) := by
  have run : runBlock ⟨p.name, limit, others⟩ [] 0 (Statement.bareAll p.statements)
      (Thread.bare ⟨r, assumptions, []⟩) 1 =
        (runBlock ⟨p.name, limit, calls⟩ [] 0 p.statements ⟨r, assumptions, []⟩ 1).map
          bareThreads :=
    runBlock_bare mirrors [] 0 p.statements ⟨r, assumptions, []⟩ 1
  unfold runPolicy
  rw [Policy.bare, ← Thread.bare.eq_def ⟨r, assumptions, []⟩, run]
  refine Outcome.map_bind fun result _ => ?_
  have paths : (bareThreads result).1.map (toPath p.name) =
      (result.1.map (toPath p.name)).map Path.bare := by
    rw [bareThreads, List.map_map, List.map_map]
    exact List.map_congr_left fun x _ => toPath_bare p.name x
  exact congrArg Except.ok paths

section

variable {table : Table Policy} {limit : Int} {stack : List String} {name : String} {r : Record}

theorem callsFrom_running (running : name ∈ stack) :
    callsFrom table limit stack name r = .error (.evaluation (.recursiveCall name)) := by
  rw [callsFrom, dif_pos running]

theorem callsFrom_missing (fresh : name ∉ stack) (missing : table.get? name = none) :
    callsFrom table limit stack name r = .error (.evaluation (.undefinedCall name)) := by
  rw [callsFrom, dif_neg fresh]
  split
  · rfl
  · rename_i found
    rw [missing] at found
    cases found

theorem callsFrom_found (fresh : name ∉ stack) {p : Policy} (found : table.get? name = some p) :
    callsFrom table limit stack name r =
      (runPolicy (callsFrom table limit (stack ++ [name])) limit [] p r >>= fun paths =>
        .ok (residual paths .accept)) := by
  rw [callsFrom, dif_neg fresh]
  split
  · rename_i missing
    rw [found] at missing
    cases missing
  · rename_i other
    rw [found] at other
    cases other
    rfl

end

/-- Calls into a table are answered up to spelling as calls into the table of short names. -/
theorem callsFrom_bare (table : Table Policy) (limit : Int) (stack : List String) :
    (callsFrom table limit stack).Mirrors (callsFrom table.bare limit stack) := by
  intro name r
  by_cases fresh : name ∈ stack
  · rw [callsFrom_running fresh, callsFrom_running fresh]
    rfl
  · have entry := table.get?_bare name
    cases found : table.get? name with
    | none =>
        rw [found] at entry
        rw [callsFrom_missing fresh entry, callsFrom_missing fresh found]
        rfl
    | some p =>
        rw [found] at entry
        have smaller := idle_lt fresh found
        have run := runPolicy_bare (callsFrom_bare table limit (stack ++ [name])) limit [] p r
        rw [List.map_nil] at run
        rw [callsFrom_found fresh entry, callsFrom_found fresh found, run]
        exact Outcome.map_bind fun paths _ => congrArg Except.ok (residual_bare paths .accept)
termination_by (idle table stack).length
decreasing_by exact smaller

end Execution

def Assumed.bare (given : Assumed) : Assumed :=
  ⟨given.assumptions.map Expr.bare, given.limit, given.table.bare⟩

variable [Arithmetic]

theorem evaluatePolicy_bare (given : Assumed) (p : Policy) (r : Record) :
    evaluatePolicy given.bare p.bare r.bare =
      (evaluatePolicy given p r).map (List.map Path.bare) :=
  Execution.runPolicy_bare (Execution.callsFrom_bare given.table given.limit [p.name]) given.limit
    given.assumptions p r

namespace Chain

theorem extend_bare (given : Assumed) (p : Policy) (t : Thread) :
    extend given.bare p.bare t.bare = (extend given p t).map (List.map Path.bare) := by
  have own := evaluatePolicy_bare ⟨t.condition, given.limit, given.table⟩ p t.record
  refine (congrArg (· >>= _) own).trans (Outcome.map_bind fun paths _ => ?_)
  have later :
      (paths.map Path.bare).map (fun path => { path with trace := t.trace ++ path.trace }) =
        (paths.map fun path => { path with trace := t.trace ++ path.trace }).map Path.bare := by
    rw [List.map_map, List.map_map]
    rfl
  exact congrArg Except.ok later

theorem extendAll_bare (given : Assumed) (p : Policy) (threads : List Thread) :
    extendAll given.bare p.bare (threads.map Thread.bare) =
      (extendAll given p threads).map (List.map Path.bare) := by
  induction threads with
  | nil => rfl
  | cons t rest ih =>
      rw [List.map_cons, extendAll, extendAll, extend_bare, ih]
      refine Outcome.map_bind fun first _ => ?_
      refine Outcome.map_bind fun others _ => ?_
      exact congrArg Except.ok List.map_append.symm

theorem run_bare (given : Assumed) (last : String) (finished : List Path) (passed : List Thread)
    (policies : List Policy) :
    run given.bare last (finished.map Path.bare) (passed.map Thread.bare)
        (policies.map Policy.bare) =
      (run given last finished passed policies).map (List.map Path.bare) := by
  induction policies generalizing last finished passed with
  | nil =>
      have late : (passed.map Thread.bare).map (dropped last) =
          (passed.map (dropped last)).map Path.bare := by
        rw [List.map_map, List.map_map]
        rfl
      rw [List.map_nil, run, run, late, ← List.map_append]
      rfl
  | cons p rest ih =>
      rw [List.map_cons, run, run, extendAll_bare]
      refine Outcome.map_bind fun paths _ => ?_
      have ended : finished.map Path.bare ++ (paths.map Path.bare).filter (·.disposition ≠ .pass) =
          (finished ++ paths.filter (·.disposition ≠ .pass)).map Path.bare := by
        rw [List.filter_map, List.map_append]
        rfl
      have further : ((paths.map Path.bare).filter (·.disposition = .pass)).map toThread =
          ((paths.filter (·.disposition = .pass)).map toThread).map Thread.bare := by
        rw [List.filter_map, List.map_map, List.map_map]
        rfl
      have limit : given.bare.limit = given.limit := rfl
      dsimp only
      rw [ended, further, ih, List.length_map, List.length_map, limit]
      split <;> rfl

end Chain

theorem evaluateChain_bare (given : Assumed) (policies : List Policy) (r : Record) :
    evaluateChain given.bare (policies.map Policy.bare) r.bare =
      (evaluateChain given policies r).map (List.map Path.bare) := by
  cases policies with
  | nil => rfl
  | cons p rest => exact Chain.run_bare given p.name [] [⟨r, given.assumptions, []⟩] (p :: rest)

end RoutePolicy
