import RoutePolicy.Proofs.Chain
import RoutePolicy.Proofs.Decisions
import RoutePolicy.Proofs.EvaluatedCalls
import RoutePolicy.Proofs.Outlines

/-!
The bound on paths. A run counts its paths and stops when there are more than the bound, so the
bound decides whether there is an answer, but not which.
-/

set_option autoImplicit false

namespace RoutePolicy

/-! ### Outcomes under a bound -/

namespace Outcome

variable {α β : Type} {limit : Int} {size total : Nat} {a : α} {b : β} {r : Outcome α}

/-- A failure for more paths than a bound. -/
def ExceedsPaths (limit : Int) (r : Outcome α) : Prop :=
  r.FailsWith (.evaluation (.tooManyPaths limit)) ∨
    r.FailsWith (.evaluation (.tooManyChainPaths limit))

/-- The result that there is under another bound, unless the paths in it are more than this one. -/
def CutAt (limit : Int) (size : Nat) (a : α) (r : Outcome α) : Prop :=
  r = .ok a ∨ (limit < size ∧ r.ExceedsPaths limit)

theorem not_exceedsPaths_ok : ¬ExceedsPaths limit (.ok a) := by
  rintro (fails | fails)
  · exact not_failsWith_ok fails
  · exact not_failsWith_ok fails

theorem ExceedsPaths.bind {next : α → Outcome β} (exceeds : r.ExceedsPaths limit) :
    (r >>= next).ExceedsPaths limit :=
  exceeds.imp (fun fails => failsWith_bind.mpr (.inl fails)) fun fails =>
    failsWith_bind.mpr (.inl fails)

/-- Steps that are cut make a computation that is, when the paths do not get fewer. -/
theorem CutAt.bind {next : α → Outcome β} (cut : r.CutAt limit size a) (grows : size ≤ total)
    (further : (next a).CutAt limit total b) : (r >>= next).CutAt limit total b := by
  rcases cut with rfl | ⟨beyond, exceeds⟩
  · exact further
  · exact .inr ⟨beyond.trans_le (Int.ofNat_le.mpr grows), exceeds.bind⟩

theorem CutAt.of_room (cut : r.CutAt limit size a) (room : (size : Int) ≤ limit) : r = .ok a :=
  cut.resolve_right fun ⟨beyond, _⟩ => absurd room (Int.not_le.mpr beyond)

end Outcome

/-! ### Calls that are answered at least as often -/

/-- What some calls answer, others answer too. -/
def Calls.Extends (calls others : Calls) : Prop :=
  ∀ policy r x, calls policy r = .ok x → others policy r = .ok x

section

variable [Arithmetic] {calls others : Calls}

/-- An expression keeps its value when more calls are answered. -/
theorem Expr.evaluate_extends (extended : calls.Extends others) {r : Record} {e x : Expr}
    (value : e.evaluate calls r = .ok x) : e.evaluate others r = .ok x := by
  induction e using childrenInduction generalizing x with
  | step e ih =>
    by_cases operator : e.isOperator = true
    · obtain ⟨xs, operands, fits, same⟩ := (evaluate_operator operator).mp value
      refine (evaluate_operator operator).mpr ⟨xs, ?_, fits, same⟩
      exact forall₂_of_mem operands fun c member y _ known => ih c member known
    · cases e with
      | call cls policy => exact extended policy r x value
      | junction _ _ _ | union _ _ | not _ _ | prepend _ _ _ | compare _ _ _ _
      | hasCommunity _ _ _ | inRanges _ _ _ _ => exact absurd rfl operator
      | _ => exact value

end

namespace Execution

/-! ### Counting -/

/-- What a run counts, that goes on from some threads with the number `n` of paths: as many ended
threads as there are paths more, and no number above the bound unless it was there. -/
structure Counted (limit : Int) (threads n : Nat) (result : List Ended × Nat) : Prop where
  grows : n ≤ result.2
  length : result.1.length + n = result.2 + threads
  bounded : result.2 = n ∨ (result.2 : Int) ≤ limit

variable {limit other : Int}

theorem resume_counted {run : Thread → Nat → Threads}
    (each : ∀ t n result, run t n = .ok result → Counted limit 1 n result) {first : List Ended}
    {n : Nat} {result : List Ended × Nat} (resumed : resume run first n = .ok result) :
    Counted limit first.length n result := by
  induction first generalizing n result with
  | nil =>
      cases resumed
      exact ⟨Nat.le_refl n, Nat.add_comm 0 n, .inl rfl⟩
  | cons head others ih =>
      obtain ⟨t, disposition⟩ := head
      cases disposition with
      | some disposition =>
          obtain ⟨⟨later, k⟩, rest, same⟩ := Outcome.bind_ok.mp resumed
          cases same
          obtain ⟨grows, length, bounded⟩ := ih rest
          refine ⟨grows, ?_, bounded⟩
          dsimp only [List.length_cons] at length ⊢
          omega
      | none =>
          obtain ⟨⟨own, m⟩, ran, resumed⟩ := Outcome.bind_ok.mp resumed
          obtain ⟨⟨later, k⟩, rest, same⟩ := Outcome.bind_ok.mp resumed
          cases same
          obtain ⟨grows, length, bounded⟩ := each t n _ ran
          obtain ⟨grows', length', bounded'⟩ := ih rest
          refine ⟨grows.trans grows', ?_, ?_⟩
          · simp only [List.length_append, List.length_cons]
            dsimp only at length length'
            omega
          · dsimp only at bounded bounded' ⊢
            omega

variable [Arithmetic]

/-- What a branching statement does with the value of its guard. -/
theorem runBranch_ok {frame : Frame} {here : Position} {onTrue onFalse : List Statement}
    {t : Thread} {n : Nat} {value : Expr} {result : List Ended × Nat}
    (ran : runBranch frame here onTrue onFalse t n value = .ok result) :
    (∃ taken, choice t.condition value = some taken ∧
      enter frame here onTrue onFalse taken value.bool?.isNone t n = .ok result) ∨
    (choice t.condition value = none ∧ ((n + 1 : Nat) : Int) ≤ frame.limit ∧ ∃ first second,
      enter frame here onTrue onFalse true true (t.assuming value) (n + 1) = .ok first ∧
      enter frame here onTrue onFalse false true (t.assuming value.negate) first.2 = .ok second ∧
      result = (first.1 ++ second.1, second.2)) := by
  unfold runBranch at ran
  split at ran
  · rename_i taken chosen
    exact .inl ⟨taken, chosen, ran⟩
  · rename_i undecided
    split at ran
    · cases ran
    · rename_i room
      obtain ⟨first, entered, ran⟩ := Outcome.bind_ok.mp ran
      obtain ⟨second, left, same⟩ := Outcome.bind_ok.mp ran
      cases same
      exact .inr ⟨undecided, Int.not_lt.mp room, first, second, entered, left, rfl⟩

mutual

/-- A statement counts the paths that it makes. -/
theorem runStatement_counted {frame : Frame} (here : Position) (s : Statement) {t : Thread}
    {n : Nat} {result : List Ended × Nat} (ran : runStatement frame here s t n = .ok result) :
    Counted frame.limit 1 n result := by
  cases s with
  | finish cls disposition =>
      cases ran
      exact ⟨Nat.le_refl n, Nat.add_comm 1 n, .inl rfl⟩
  | assign cls target value =>
      rw [runStatement] at ran
      obtain ⟨_, -, same⟩ := Outcome.bind_ok.mp ran
      cases same
      exact ⟨Nat.le_refl n, Nat.add_comm 1 n, .inl rfl⟩
  | branch cls guard onTrue onFalse comment =>
      rw [runStatement_branch] at ran
      obtain ⟨value, -, ran⟩ := Outcome.bind_ok.mp ran
      rcases runBranch_ok ran with ⟨taken, -, ran⟩ |
        ⟨-, room, first, second, entered, left, rfl⟩
      · cases taken with
        | true => exact runBlock_counted _ 0 onTrue ran
        | false => exact runBlock_counted _ 0 onFalse ran
      · have onTrue := runBlock_counted _ 0 onTrue entered
        have onFalse := runBlock_counted _ 0 onFalse left
        have grows := onTrue.grows.trans onFalse.grows
        refine ⟨(Nat.le_succ n).trans grows, ?_, ?_⟩
        · have := onTrue.length
          have := onFalse.length
          simp only [List.length_append]
          omega
        · have := onTrue.bounded
          have := onFalse.bounded
          dsimp only
          omega

/-- A block counts the paths that it makes. -/
theorem runBlock_counted {frame : Frame} (above : Position) (i : Nat) (block : List Statement)
    {t : Thread} {n : Nat} {result : List Ended × Nat}
    (ran : runBlock frame above i block t n = .ok result) : Counted frame.limit 1 n result := by
  cases block with
  | nil =>
      cases ran
      exact ⟨Nat.le_refl n, Nat.add_comm 1 n, .inl rfl⟩
  | cons s rest =>
      rw [runBlock] at ran
      obtain ⟨first, ran, resumed⟩ := Outcome.bind_ok.mp ran
      have own := runStatement_counted _ s ran
      have later := resume_counted
        (fun u m result ran => runBlock_counted above (i + 1) rest ran) resumed
      refine ⟨own.grows.trans later.grows, ?_, ?_⟩
      · have := own.length
        have := later.length
        omega
      · have := own.bounded
        have := later.bounded
        omega

end

/-! ### Another bound -/

variable {policy : String} {calls others : Calls}

omit [Arithmetic] in
theorem resume_cut {run second : Thread → Nat → Threads}
    (each : ∀ t n result, run t n = .ok result → (second t n).CutAt other result.2 result)
    (counted : ∀ t n result, run t n = .ok result → Counted limit 1 n result)
    {first : List Ended} {n : Nat} {result : List Ended × Nat}
    (resumed : resume run first n = .ok result) :
    (resume second first n).CutAt other result.2 result := by
  induction first generalizing n result with
  | nil =>
      cases resumed
      exact .inl rfl
  | cons head others ih =>
      obtain ⟨t, disposition⟩ := head
      cases disposition with
      | some disposition =>
          obtain ⟨⟨later, k⟩, rest, same⟩ := Outcome.bind_ok.mp resumed
          cases same
          rw [resume]
          refine (ih rest).bind (Nat.le_refl k) ?_
          exact .inl rfl
      | none =>
          obtain ⟨⟨own, m⟩, ran, resumed⟩ := Outcome.bind_ok.mp resumed
          obtain ⟨⟨later, k⟩, rest, same⟩ := Outcome.bind_ok.mp resumed
          cases same
          rw [resume]
          refine (each t n _ ran).bind (resume_counted counted rest).grows ?_
          refine (ih rest).bind (Nat.le_refl k) ?_
          exact .inl rfl

theorem guardValue_extends (extended : calls.Extends others) {r : Record} {guard value : Expr}
    (known : guardValue ⟨policy, limit, calls⟩ r guard = .ok value) :
    guardValue ⟨policy, other, others⟩ r guard = .ok value := by
  obtain ⟨x, evaluated, same⟩ := Outcome.bind_ok.mp known
  exact Outcome.bind_ok.mpr ⟨x, Expr.evaluate_extends extended evaluated, same⟩

mutual

/-- Under another bound and with more calls answered, a statement does the same or is cut. -/
theorem runStatement_cut (extended : calls.Extends others) (here : Position) (s : Statement)
    {t : Thread} {n : Nat} {result : List Ended × Nat}
    (ran : runStatement ⟨policy, limit, calls⟩ here s t n = .ok result) :
    (runStatement ⟨policy, other, others⟩ here s t n).CutAt other result.2 result := by
  cases s with
  | finish cls disposition => exact .inl ran
  | assign cls target value =>
      rw [runStatement] at ran
      obtain ⟨⟨x, record⟩, stepped, same⟩ := Outcome.bind_ok.mp ran
      obtain ⟨y, evaluated, stepped⟩ := Outcome.bind_ok.mp (Outcome.inContext_ok.mp stepped)
      have again := Expr.evaluate_extends extended evaluated
      rw [runStatement]
      refine .inl (Outcome.bind_ok.mpr ⟨(x, record), Outcome.inContext_ok.mpr ?_, same⟩)
      exact Outcome.bind_ok.mpr ⟨y, again, stepped⟩
  | branch cls guard onTrue onFalse comment =>
      rw [runStatement_branch] at ran
      obtain ⟨value, known, ran⟩ := Outcome.bind_ok.mp ran
      have again : guardValue ⟨policy, other, others⟩ t.record guard = .ok value :=
        guardValue_extends extended (Outcome.inContext_ok.mp known)
      rw [runStatement_known again, runBranch]
      rcases runBranch_ok ran with ⟨taken, chosen, ran⟩ |
        ⟨undecided, -, ⟨first, m⟩, ⟨second, k⟩, entered, left, rfl⟩
      · rw [chosen]
        cases taken with
        | true => exact runBlock_cut extended _ 0 onTrue ran
        | false => exact runBlock_cut extended _ 0 onFalse ran
      · rw [undecided]
        dsimp only
        have grows := (runBlock_counted _ 0 onFalse left).grows
        split
        -- a fork for which there is no room counts as one path at least
        · rename_i full
          have more := (runBlock_counted _ 0 onTrue entered).grows
          refine .inr ⟨?_, .inl (Outcome.failsWith_error.mpr rfl)⟩
          dsimp only at grows more ⊢
          omega
        · have onTrue := runBlock_cut extended _ 0 onTrue entered
          have onFalse := runBlock_cut extended _ 0 onFalse left
          refine onTrue.bind grows (onFalse.bind (Nat.le_refl k) ?_)
          exact .inl rfl

/-- Under another bound and with more calls answered, a block does the same or is cut. -/
theorem runBlock_cut (extended : calls.Extends others) (above : Position) (i : Nat)
    (block : List Statement) {t : Thread} {n : Nat} {result : List Ended × Nat}
    (ran : runBlock ⟨policy, limit, calls⟩ above i block t n = .ok result) :
    (runBlock ⟨policy, other, others⟩ above i block t n).CutAt other result.2 result := by
  cases block with
  | nil => exact .inl ran
  | cons s rest =>
      rw [runBlock] at ran
      obtain ⟨first, ran, resumed⟩ := Outcome.bind_ok.mp ran
      have counted := fun u m result
        (ran : runBlock ⟨policy, limit, calls⟩ above (i + 1) rest u m = .ok result) =>
          runBlock_counted above (i + 1) rest ran
      have later := resume_cut (fun u m result ran =>
        runBlock_cut extended above (i + 1) rest ran) counted resumed
      rw [runBlock]
      exact (runStatement_cut extended _ s ran).bind (resume_counted counted resumed).grows later

end

/-! ### Policies -/

variable {assumptions : List Expr} {p : Policy} {r : Record} {paths : List Path}

/-- A policy has a path, and no more of them than a bound that admits one. -/
theorem runPolicy_counted (ran : runPolicy calls limit assumptions p r = .ok paths) :
    0 < paths.length ∧ (1 ≤ limit → (paths.length : Int) ≤ limit) := by
  obtain ⟨ended, n, block, rfl⟩ := runPolicy_ok.mp ran
  obtain ⟨grows, length, bounded⟩ := runBlock_counted [] 0 p.statements block
  dsimp only at grows length bounded
  rw [List.length_map]
  omega

/-- Under another bound and with more calls answered, a policy has the same paths or is cut. -/
theorem runPolicy_cut (extended : calls.Extends others)
    (ran : runPolicy calls limit assumptions p r = .ok paths) :
    (runPolicy others other assumptions p r).CutAt other paths.length paths := by
  obtain ⟨ended, n, block, rfl⟩ := runPolicy_ok.mp ran
  have length := (runBlock_counted [] 0 p.statements block).length
  have own : (ended.map (toPath p.name)).length = n := by
    rw [List.length_map]
    exact Nat.succ.inj length
  rw [own]
  refine (runBlock_cut extended [] 0 p.statements block).bind (Nat.le_refl n) ?_
  exact .inl rfl

/-- A larger bound answers the same calls in the same way. -/
theorem callsFrom_extends {table : Table Policy} (positive : 1 ≤ limit) (raised : limit ≤ other)
    (stack : List String) : (callsFrom table limit stack).Extends (callsFrom table other stack) := by
  intro name r x called
  obtain ⟨fresh, p, paths, found, ran, rfl⟩ := callsFrom_ok.mp called
  have inner : (callsFrom table limit (stack ++ [name])).Extends
      (callsFrom table other (stack ++ [name])) :=
    callsFrom_extends positive raised (stack ++ [name])
  have room := ((runPolicy_counted ran).2 positive).trans raised
  exact callsFrom_ok.mpr ⟨fresh, p, paths, found, (runPolicy_cut inner ran).of_room room, rfl⟩
termination_by (idle table stack).length
decreasing_by exact idle_lt fresh found

end Execution

section

variable [Arithmetic] {table : Table Policy} {limit other : Int} {p : Policy}

/-- A policy that has the paths under another bound that it has under a bound, or is cut. -/
def Policy.Cut (table : Table Policy) (limit other : Int) (p : Policy) : Prop :=
  ∀ assumptions r paths, evaluatePolicy ⟨assumptions, limit, table⟩ p r = .ok paths →
    (evaluatePolicy ⟨assumptions, other, table⟩ p r).CutAt other paths.length paths

theorem Policy.cut_of_raised (positive : 1 ≤ limit) (raised : limit ≤ other) :
    p.Cut table limit other :=
  fun _ _ _ ran =>
    Execution.runPolicy_cut (Execution.callsFrom_extends positive raised [p.name]) ran

/-- Calls have bounds of their own, so without them any other bound will do. -/
theorem Policy.cut_of_no_calls (free : Statement.calls p.statements = []) :
    p.Cut table limit other := by
  intro assumptions r paths ran
  have same : Execution.runPolicy (Execution.callsFrom table limit [p.name]) limit assumptions p r =
      Execution.runPolicy (Execution.callsFrom table other [p.name]) limit assumptions p r := by
    apply Execution.runPolicy_congr
    rw [free]
    exact List.forall_mem_nil _
  rw [evaluatePolicy, same] at ran
  exact Execution.runPolicy_cut (fun _ _ _ answered => answered) ran

/-! ### Chains -/

namespace Chain

variable {assumptions : List Expr} {given : Assumed} {last : String} {passed : List Thread}
  {finished paths : List Path} {policies : List Policy}

theorem extendAll_counted (ran : extendAll given p passed = .ok paths) :
    passed.length ≤ paths.length := by
  induction passed generalizing paths with
  | nil => exact Nat.zero_le _
  | cons t rest ih =>
      obtain ⟨first, own, ran⟩ := Outcome.bind_ok.mp ran
      obtain ⟨others, later, same⟩ := Outcome.bind_ok.mp ran
      cases same
      obtain ⟨found, evaluated, rfl⟩ := extend_ok.mp own
      have one := (Execution.runPolicy_counted evaluated).1
      have more := ih later
      rw [List.length_append, List.length_map, List.length_cons]
      omega

omit [Arithmetic] in
theorem length_parted (paths : List Path) : (paths.filter (·.disposition ≠ .pass)).length +
    ((paths.filter (·.disposition = .pass)).map toThread).length = paths.length := by
  have parted := List.length_eq_length_filter_add (l := paths) (·.disposition = .pass)
  simp only [ne_eq, decide_not, List.length_map]
  omega

/-- The paths of a chain do not get fewer, and stay within the bound. -/
theorem run_counted (ran : run given last finished passed policies = .ok paths) :
    finished.length + passed.length ≤ paths.length ∧
      (((finished.length + passed.length : Nat) : Int) ≤ given.limit →
        (paths.length : Int) ≤ given.limit) := by
  induction policies generalizing last finished passed with
  | nil =>
      cases ran
      rw [List.length_append, List.length_map]
      exact ⟨Nat.le_refl _, fun within => within⟩
  | cons p rest ih =>
      obtain ⟨found, extended, ran⟩ := Outcome.bind_ok.mp ran
      dsimp only at ran
      split at ran
      · cases ran
      · rename_i room
        obtain ⟨grows, bounded⟩ := ih ran
        have more := extendAll_counted extended
        have parted := length_parted found
        rw [List.length_append] at grows bounded room
        exact ⟨by omega, fun _ => bounded (by omega)⟩

theorem extendAll_cut (cut : p.Cut table limit other)
    (ran : extendAll ⟨assumptions, limit, table⟩ p passed = .ok paths) :
    (extendAll ⟨assumptions, other, table⟩ p passed).CutAt other paths.length paths := by
  induction passed generalizing paths with
  | nil => exact .inl ran
  | cons t rest ih =>
      obtain ⟨first, own, ran⟩ := Outcome.bind_ok.mp ran
      obtain ⟨others, later, same⟩ := Outcome.bind_ok.mp ran
      cases same
      obtain ⟨found, evaluated, rfl⟩ := extend_ok.mp own
      have here : (extend ⟨assumptions, other, table⟩ p t).CutAt other found.length
          (found.map fun path => { path with trace := t.trace ++ path.trace }) := by
        refine (cut _ _ _ evaluated).bind (Nat.le_refl _) ?_
        exact .inl rfl
      rw [List.length_append, List.length_map]
      refine here.bind (Nat.le_add_right _ _) ((ih later).bind (Nat.le_add_left _ _) ?_)
      exact .inl rfl

/-- Under another bound a chain has the same paths or is cut, if this is so for its policies. -/
theorem run_cut (cut : ∀ p ∈ policies, p.Cut table limit other)
    (ran : run ⟨assumptions, limit, table⟩ last finished passed policies = .ok paths) :
    (run ⟨assumptions, other, table⟩ last finished passed policies).CutAt other paths.length
      paths := by
  induction policies generalizing last finished passed with
  | nil => exact .inl ran
  | cons p rest ih =>
      obtain ⟨own, others⟩ := List.forall_mem_cons.mp cut
      obtain ⟨found, extended, ran⟩ := Outcome.bind_ok.mp ran
      dsimp only at ran
      split at ran
      · cases ran
      -- what a policy adds is never taken back, so a bound that it exceeds is below the final count
      · have grows := (run_counted ran).1
        have parted := length_parted found
        rw [List.length_append] at grows
        refine (extendAll_cut own extended).bind (by omega) ?_
        dsimp only
        split
        · rename_i full
          rw [List.length_append] at full
          exact .inr ⟨by omega, .inr (Outcome.failsWith_error.mpr rfl)⟩
        · exact ih others ran

end Chain

variable {assumptions : List Expr} {r : Record} {policies : List Policy} {paths : List Path}

theorem evaluateChain_counted (positive : 1 ≤ limit)
    (ran : evaluateChain ⟨assumptions, limit, table⟩ policies r = .ok paths) :
    (paths.length : Int) ≤ limit := by
  cases policies with
  | nil =>
      cases ran
      exact positive
  | cons p rest => exact (Chain.run_counted ran).2 positive

theorem evaluateChain_cut (cut : ∀ p ∈ policies, p.Cut table limit other)
    (ran : evaluateChain ⟨assumptions, limit, table⟩ policies r = .ok paths) :
    (evaluateChain ⟨assumptions, other, table⟩ policies r).CutAt other paths.length paths := by
  cases policies with
  | nil => exact .inl ran
  | cons p rest => exact Chain.run_cut cut ran

end

/-! ### What a bound decides -/

/-- An evaluation in which the bound on paths decides nothing but whether there is an answer: there
are not more paths than the bound, and larger bounds give the same ones. -/
structure BoundNeutral (evaluation : Int → Outcome (List Path)) : Prop where
  within : ∀ limit paths, 1 ≤ limit → evaluation limit = .ok paths → (paths.length : Int) ≤ limit
  kept : ∀ limit other paths, 1 ≤ limit → limit ≤ other → evaluation limit = .ok paths →
    evaluation other = .ok paths

/-- The paths of an evaluation without a bound: those that all large bounds give. -/
def WithoutBound (evaluation : Int → Outcome (List Path)) (paths : List Path) : Prop :=
  ∃ enough, ∀ limit, enough ≤ limit → evaluation limit = .ok paths

/-- An evaluation that succeeds under exactly those bounds that admit all its paths, and fails for
the number of its paths under the others. -/
structure BoundSharp (evaluation : Int → Outcome (List Path)) : Prop where
  succeeds : ∀ limit paths, 1 ≤ limit → WithoutBound evaluation paths →
    ((∃ found, evaluation limit = .ok found) ↔ (paths.length : Int) ≤ limit)
  fails : ∀ limit paths, 1 ≤ limit → WithoutBound evaluation paths →
    ¬(paths.length : Int) ≤ limit → (evaluation limit).ExceedsPaths limit

section

variable {evaluation : Int → Outcome (List Path)}

/-- There are paths without a bound if there are under any bound that admits one. -/
theorem BoundNeutral.withoutBound_iff (neutral : BoundNeutral evaluation) {paths : List Path} :
    WithoutBound evaluation paths ↔ ∃ limit, 1 ≤ limit ∧ evaluation limit = .ok paths := by
  constructor
  · rintro ⟨enough, all⟩
    exact ⟨max enough 1, Int.le_max_right _ _, all _ (Int.le_max_left _ _)⟩
  · rintro ⟨limit, positive, ran⟩
    exact ⟨limit, fun other raised => neutral.kept limit other paths positive raised ran⟩

theorem BoundNeutral.of_cut
    (within : ∀ limit paths, 1 ≤ limit → evaluation limit = .ok paths →
      (paths.length : Int) ≤ limit)
    (cut : ∀ limit other paths, 1 ≤ limit → limit ≤ other → evaluation limit = .ok paths →
      (evaluation other).CutAt other paths.length paths) : BoundNeutral evaluation where
  within := within
  kept limit other paths positive raised ran :=
    (cut limit other paths positive raised ran).of_room
      ((within limit paths positive ran).trans raised)

theorem BoundSharp.of_cut
    (within : ∀ limit paths, 1 ≤ limit → evaluation limit = .ok paths →
      (paths.length : Int) ≤ limit)
    (cut : ∀ limit other paths, evaluation limit = .ok paths →
      (evaluation other).CutAt other paths.length paths) : BoundSharp evaluation where
  succeeds limit paths positive unbounded := by
    obtain ⟨enough, all⟩ := unbounded
    have here := cut enough limit paths (all enough (Int.le_refl enough))
    constructor
    · rintro ⟨found, ran⟩
      rcases here with same | ⟨-, exceeds⟩
      · exact within limit paths positive same
      · rw [ran] at exceeds
        exact (Outcome.not_exceedsPaths_ok exceeds).elim
    · exact fun room => ⟨paths, here.of_room room⟩
  fails limit paths positive unbounded full := by
    obtain ⟨enough, all⟩ := unbounded
    rcases cut enough limit paths (all enough (Int.le_refl enough)) with same | ⟨-, exceeds⟩
    · exact absurd (within limit paths positive same) full
    · exact exceeds

end

/-- The bound on paths never changes the paths of a policy or a chain: within a bound there are the
same ones as under any larger bound. When no policy calls another one, the bounds that are too small
are exactly those below the number of paths there are without a bound. -/
theorem path_bound_neutral [Arithmetic] (table : Table Policy) (assumptions : List Expr) (r : Record) :
    (∀ p, BoundNeutral fun limit => evaluatePolicy ⟨assumptions, limit, table⟩ p r) ∧
      (∀ policies, BoundNeutral fun limit =>
        evaluateChain ⟨assumptions, limit, table⟩ policies r) ∧
      (∀ p, Statement.calls p.statements = [] →
        BoundSharp fun limit => evaluatePolicy ⟨assumptions, limit, table⟩ p r) ∧
      ∀ policies, (∀ p ∈ policies, Statement.calls p.statements = []) →
        BoundSharp fun limit => evaluateChain ⟨assumptions, limit, table⟩ policies r := by
  refine ⟨fun p => ?_, fun policies => ?_, fun p free => ?_, fun policies free => ?_⟩
  · exact .of_cut (fun _ _ positive ran => (Execution.runPolicy_counted ran).2 positive)
      fun _ _ _ positive raised ran => Policy.cut_of_raised positive raised _ _ _ ran
  · exact .of_cut (fun _ _ positive ran => evaluateChain_counted positive ran)
      fun _ _ _ positive raised ran =>
        evaluateChain_cut (fun _ _ => Policy.cut_of_raised positive raised) ran
  · exact .of_cut (fun _ _ positive ran => (Execution.runPolicy_counted ran).2 positive)
      fun _ _ _ ran => Policy.cut_of_no_calls free _ _ _ ran
  · exact .of_cut (fun _ _ positive ran => evaluateChain_counted positive ran)
      fun _ _ _ ran =>
        evaluateChain_cut (fun p member => Policy.cut_of_no_calls (free p member)) ran

open AskingTwice in
theorem asking_twice_path_bound :
    Statement.calls (policy both).statements = [] ∧ ∃ paths, paths.length = 4 ∧
      @evaluatePolicy .binary64 ⟨[], 1024, []⟩ (policy both) record = .ok paths ∧
      @evaluatePolicy .binary64 ⟨[], 2048, []⟩ (policy both) record = .ok paths ∧
      (∃ found, @evaluatePolicy .binary64 ⟨[], 4, []⟩ (policy both) record = .ok found) ∧
      (@evaluatePolicy .binary64 ⟨[], 3, []⟩ (policy both) record).ExceedsPaths 3 ∧
      (@evaluateChain .binary64 ⟨[], 3, []⟩ [policy both] record).ExceedsPaths 3 := by
  have free : Statement.calls (policy both).statements = [] := by decide
  obtain ⟨neutral, chains, sharp, sharpChains⟩ := @path_bound_neutral .binary64 [] [] record
  have found := (neutral (policy both)).withoutBound_iff.mpr ⟨1024, by decide, paths_both⟩
  obtain ⟨joint, chained, four⟩ : ∃ joint,
      @evaluateChain .binary64 ⟨[], 1024, []⟩ [policy both] record = .ok joint ∧ joint.length = 4 :=
    ⟨_, by with_unfolding_all rfl, rfl⟩
  have together := (chains [policy both]).withoutBound_iff.mpr ⟨1024, by decide, chained⟩
  refine ⟨free, _, rfl, paths_both, ?_, ?_, ?_, ?_⟩
  · exact (neutral (policy both)).kept 1024 2048 _ (by decide) (by decide) paths_both
  · exact ((sharp _ free).succeeds 4 _ (by decide) found).mpr (by decide)
  · exact (sharp _ free).fails 3 _ (by decide) found (by decide)
  · refine (sharpChains _ ?_).fails 3 joint (by decide) together ?_
    · simpa using free
    · rw [four]
      decide

end RoutePolicy
