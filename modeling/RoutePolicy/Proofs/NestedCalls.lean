import RoutePolicy.Proofs.EvaluatedCalls

/-!
Calls within calls. The policies that are being run stand on a stack: the one the evaluation started
from, by its own name, then the called ones, by their names in the table. A call of one of them is
refused, so the stack holds every name of the table once at most, and the evaluation ends.
-/

set_option autoImplicit false

namespace RoutePolicy

/-- An evaluation of a policy: the policies that are being run, itself the last of them, and what it
starts from. -/
structure Evaluation where
  stack : List String
  assumptions : List Expr
  policy : Policy
  record : Record

/-- What an evaluation starts with that no call has led to. -/
def Evaluation.begun (assumptions : List Expr) (p : Policy) (r : Record) : Evaluation :=
  ⟨[p.name], assumptions, p, r⟩

/-- The evaluation of a called policy. -/
def Evaluation.called (e : Evaluation) (name : String) (p : Policy) (r : Record) : Evaluation :=
  ⟨e.stack ++ [name], [], p, r⟩

variable [Arithmetic]

namespace Evaluation

open Execution

variable {table : Table Policy} {limit : Int} {e inner : Evaluation} {name : String}

def run (table : Table Policy) (limit : Int) (e : Evaluation) : Outcome (List Path) :=
  runPolicy (callsFrom table limit e.stack) limit e.assumptions e.policy e.record

/-- A call of a policy over a record is evaluated. -/
def Asks (table : Table Policy) (limit : Int) (e : Evaluation) (name : String) (r : Record) :
    Prop :=
  PolicyAsks (callsFrom table limit e.stack) limit e.assumptions e.policy e.record name r

/-- A call of a policy that is being run is evaluated. -/
def Recurs (table : Table Policy) (limit : Int) (e : Evaluation) (name : String) : Prop :=
  name ∈ e.stack ∧ ∃ r, e.Asks table limit name r

/-- The evaluations that an evaluation leads to: itself, and those of the policies that calls
name. -/
inductive Leads (table : Table Policy) (limit : Int) : Evaluation → Evaluation → Prop
  | itself (e : Evaluation) : Leads table limit e e
  | call {e inner : Evaluation} {name : String} {p : Policy} {r : Record}
      (asks : e.Asks table limit name r) (fresh : name ∉ e.stack)
      (found : table.get? name = some p) (further : Leads table limit (e.called name p r) inner) :
      Leads table limit e inner

/-! ### The stack -/

/-- The stack grows by names of the table, each of which is new. -/
theorem Leads.stack (leads : Leads table limit e inner) : ∃ keys, inner.stack = e.stack ++ keys ∧
    keys.Nodup ∧ ∀ key ∈ keys, key ∈ table.names ∧ key ∉ e.stack := by
  induction leads with
  | itself e => exact ⟨[], (List.append_nil _).symm, List.nodup_nil, List.forall_mem_nil _⟩
  | @call e inner name p r asks fresh found further ih =>
      obtain ⟨keys, same, apart, own⟩ := ih
      refine ⟨name :: keys, ?_, ?_, ?_⟩
      · rw [same, called, List.append_assoc, List.singleton_append]
      · refine List.nodup_cons.mpr ⟨fun repeated => ?_, apart⟩
        exact (own name repeated).2 (by simp [called])
      · refine List.forall_mem_cons.mpr ⟨⟨Table.mem_names_of_get? found, fresh⟩, ?_⟩
        intro key member
        refine ⟨(own key member).1, fun old => (own key member).2 ?_⟩
        exact List.mem_append_left _ old

theorem Leads.depth {assumptions : List Expr} {p : Policy} {r : Record}
    (leads : Leads table limit (begun assumptions p r) inner) : ∃ keys,
      inner.stack = p.name :: keys ∧ keys.Nodup ∧ (∀ key ∈ keys, key ∈ table.names) ∧
      inner.stack.length ≤ table.length + 1 := by
  obtain ⟨keys, same, apart, own⟩ := leads.stack
  have few : keys.length ≤ table.names.length :=
    (apart.subperm fun key member => (own key member).1).length_le
  refine ⟨keys, same, apart, fun key member => (own key member).1, ?_⟩
  rw [same, List.length_append]
  rw [Table.names, List.length_map] at few
  exact Nat.add_comm keys.length 1 ▸ Nat.add_le_add_right few 1

/-! ### Recursive calls -/

/-- A recursive call is refused, and an answer fails with one if the called policy does. -/
theorem failsWith_callsFrom {stack : List String} {policy : String} {r : Record} :
    (callsFrom table limit stack policy r).FailsWith (.evaluation (.recursiveCall name)) ↔
      (policy ∈ stack ∧ policy = name) ∨ (policy ∉ stack ∧ ∃ p, table.get? policy = some p ∧
        (runPolicy (callsFrom table limit (stack ++ [policy])) limit [] p r).FailsWith
          (.evaluation (.recursiveCall name))) := by
  rw [callsFrom]
  split
  · rename_i repeated
    simp [repeated, Outcome.FailsWith, Failure.evaluation, Failure.ofCause]
  · rename_i fresh
    split
    · rename_i missing
      simp [fresh, missing, Outcome.FailsWith, Failure.evaluation, Failure.ofCause]
    · rename_i p found
      simp [fresh, found, Outcome.failsWith_bind, Outcome.not_failsWith_ok]

/-- An evaluation fails with a recursive call as soon as one it leads to makes one. -/
theorem Leads.fails (leads : Leads table limit e inner)
    (recurs : inner.Recurs table limit name) :
    (e.run table limit).FailsWith (.evaluation (.recursiveCall name)) := by
  have notOwn := Cause.not_own_recursiveCall name
  induction leads with
  | itself e =>
      obtain ⟨repeated, r, asks⟩ := recurs
      refine (failsWith_runPolicy notOwn).mpr ⟨name, r, asks, ?_⟩
      exact failsWith_callsFrom.mpr (.inl ⟨repeated, rfl⟩)
  | @call e inner policy p r asks fresh found further ih =>
      refine (failsWith_runPolicy notOwn).mpr ⟨policy, r, asks, ?_⟩
      exact failsWith_callsFrom.mpr (.inr ⟨fresh, p, found, ih recurs⟩)

/-- An evaluation that fails with a recursive call leads to one that makes it. -/
theorem exists_recurs (e : Evaluation)
    (fails : (e.run table limit).FailsWith (.evaluation (.recursiveCall name))) :
    ∃ inner, Leads table limit e inner ∧ inner.Recurs table limit name := by
  obtain ⟨policy, r, asks, fails⟩ :=
    (failsWith_runPolicy (Cause.not_own_recursiveCall name)).mp fails
  rcases failsWith_callsFrom.mp fails with ⟨repeated, rfl⟩ | ⟨fresh, p, found, fails⟩
  · exact ⟨e, .itself e, repeated, r, asks⟩
  · have smaller := idle_lt fresh found
    obtain ⟨inner, further, recurs⟩ := exists_recurs (e.called policy p r) fails
    exact ⟨inner, .call asks fresh found further, recurs⟩
termination_by (idle table e.stack).length
decreasing_by exact smaller

/-- Whatever an evaluation fails with, it is a fault of an evaluation. -/
theorem fault_of_run (e : Evaluation) {cause : Cause}
    (fails : (e.run table limit).FailsWith cause) : ∃ fault, cause = .evaluation fault := by
  rcases runPolicy_failed fails with ⟨fault, same, -⟩ | ⟨_, _, -, _, -, same⟩ | ⟨policy, r, -, fails⟩
  · exact ⟨fault, same⟩
  · exact ⟨_, same⟩
  · rw [callsFrom] at fails
    split at fails
    · exact ⟨_, (Outcome.failsWith_error.mp fails).symm⟩
    · rename_i fresh
      split at fails
      · exact ⟨_, (Outcome.failsWith_error.mp fails).symm⟩
      · rename_i p found
        have smaller := idle_lt fresh found
        simp only [Outcome.failsWith_bind, Outcome.not_failsWith_ok, and_false, exists_false,
          or_false] at fails
        exact fault_of_run (e.called policy p r) fails
termination_by (idle table e.stack).length
decreasing_by exact smaller

theorem failsWith_run : (e.run table limit).FailsWith (.evaluation (.recursiveCall name)) ↔
    ∃ inner, Leads table limit e inner ∧ inner.Recurs table limit name :=
  ⟨exists_recurs e, fun ⟨_, leads, recurs⟩ => leads.fails recurs⟩

/-! ### Calls up to a depth -/

/-- What calls answer if policies are run at most `depth` deep, and calls that lead deeper are
answered by `deeper`. -/
def callsWithin (deeper : Calls) (table : Table Policy) (limit : Int) :
    Nat → List String → Calls
  | 0, _ => deeper
  | depth + 1, stack => fun name r =>
    if name ∈ stack then .error (.evaluation (.recursiveCall name))
    else
      match table.get? name with
      | none => .error (.evaluation (.undefinedCall name))
      | some p => do
        let paths ← runPolicy (callsWithin deeper table limit depth (stack ++ [name])) limit [] p r
        .ok (residual paths .accept)

/-- Answers do not depend on what lies deeper than the policies that are not being run. -/
theorem callsFrom_eq_callsWithin (deeper : Calls) {depth : Nat} {stack : List String}
    (deep : (idle table stack).length < depth) :
    callsFrom table limit stack = callsWithin deeper table limit depth stack := by
  induction depth generalizing stack with
  | zero => cases deep
  | succ depth ih =>
      funext name r
      rw [callsFrom]
      by_cases repeated : name ∈ stack
      · simp only [callsWithin, repeated, if_true, dif_pos]
      · simp only [callsWithin, repeated, if_false, dif_neg, not_false_eq_true]
        split
        · rename_i missing
          rw [missing]
        · rename_i p found
          have smaller := idle_lt repeated found
          rw [found, ih (by omega)]

/-- The run of an evaluation is one in which policies are run at most one deeper than the table has
entries. -/
theorem run_eq_within (deeper : Calls) (e : Evaluation) : e.run table limit =
    runPolicy (callsWithin deeper table limit (table.length + 1) e.stack) limit e.assumptions
      e.policy e.record := by
  have few : (idle table e.stack).length ≤ table.names.length := List.length_filter_le _ _
  rw [Table.names, List.length_map] at few
  rw [run, callsFrom_eq_callsWithin deeper (Nat.lt_succ_of_le few)]

/-- An evaluation that no call has led to ends: answers beyond a depth do not matter, the stack
stays within it, and exactly the calls of policies on the stack are refused as recursive. -/
structure Ends (table : Table Policy) (limit : Int) (e : Evaluation) : Prop where
  within : ∀ deeper, e.run table limit =
    runPolicy (callsWithin deeper table limit (table.length + 1) e.stack) limit e.assumptions
      e.policy e.record
  depth : ∀ inner, Leads table limit e inner → ∃ keys, inner.stack = e.policy.name :: keys ∧
    keys.Nodup ∧ (∀ key ∈ keys, key ∈ table.names) ∧ inner.stack.length ≤ table.length + 1
  recursive : ∀ name, (e.run table limit).FailsWith (.evaluation (.recursiveCall name)) ↔
    ∃ inner, Leads table limit e inner ∧ inner.Recurs table limit name

theorem ends_begun (table : Table Policy) (limit : Int) (assumptions : List Expr) (p : Policy)
    (r : Record) : (begun assumptions p r).Ends table limit where
  within deeper := run_eq_within deeper _
  depth _ leads := leads.depth
  recursive _ := failsWith_run

end Evaluation

/-! ### Chains -/

namespace Chain

variable {given : Assumed} {cause : Cause}

/-- A run of a chain evaluates one of its policies from a thread that passed the policies before
it. -/
inductive Evaluates (given : Assumed) :
    List Path → List Thread → List Policy → Policy → Thread → Prop
  | here {finished : List Path} {before after : List Thread} {t : Thread} {p : Policy}
      {rest : List Policy} {done : List Path} (earlier : extendAll given p before = .ok done) :
      Evaluates given finished (before ++ t :: after) (p :: rest) p t
  | later {finished paths : List Path} {passed : List Thread} {p q : Policy} {rest : List Policy}
      {t : Thread} (extended : extendAll given p passed = .ok paths)
      (room : ¬given.limit < (finished ++ paths.filter (·.disposition ≠ .pass)).length +
        ((paths.filter (·.disposition = .pass)).map toThread).length)
      (further : Evaluates given (finished ++ paths.filter (·.disposition ≠ .pass))
        ((paths.filter (·.disposition = .pass)).map toThread) rest q t) :
      Evaluates given finished passed (p :: rest) q t

/-- The evaluation of a policy that a thread goes on with. -/
def evaluation (p : Policy) (t : Thread) : Evaluation := .begun t.condition p t.record

theorem failsWith_extend {p : Policy} {t : Thread} : (extend given p t).FailsWith cause ↔
    ((evaluation p t).run given.table given.limit).FailsWith cause := by
  rw [extend, Outcome.failsWith_bind]
  simp only [Outcome.not_failsWith_ok, and_false, exists_false, or_false]
  rfl

theorem failsWith_extendAll {p : Policy} {passed : List Thread} :
    (extendAll given p passed).FailsWith cause ↔ ∃ before t after done,
      passed = before ++ t :: after ∧ extendAll given p before = .ok done ∧
      (extend given p t).FailsWith cause := by
  induction passed with
  | nil => simp [extendAll, Outcome.FailsWith]
  | cons first others ih =>
      simp only [extendAll, Outcome.failsWith_bind, Outcome.not_failsWith_ok, and_false,
        exists_false, or_false, ih]
      constructor
      · rintro (fails | ⟨paths, extended, before, t, after, done, rfl, earlier, fails⟩)
        · exact ⟨[], first, others, [], rfl, rfl, fails⟩
        · refine ⟨first :: before, t, after, paths ++ done, rfl, ?_, fails⟩
          simp only [extendAll, extended, earlier, bind, Except.bind]
      · rintro ⟨before, t, after, done, same, earlier, fails⟩
        rcases before with _ | ⟨head, before⟩
        · cases same
          exact .inl fails
        · cases same
          obtain ⟨paths, extended, earlier⟩ := Outcome.bind_ok.mp earlier
          obtain ⟨others', earlier, last⟩ := Outcome.bind_ok.mp earlier
          exact .inr ⟨paths, extended, before, t, after, others', rfl, earlier, fails⟩

theorem Evaluates.ne_nil {finished : List Path} {passed : List Thread} {policies : List Policy}
    {p : Policy} {t : Thread} (evaluates : Evaluates given finished passed policies p t) :
    policies ≠ [] := by
  cases evaluates <;> exact List.cons_ne_nil _ _

/-- A chain that evaluates a policy fails as the policy does. -/
theorem Evaluates.fails {finished : List Path} {passed : List Thread} {policies : List Policy}
    {p : Policy} {t : Thread} (evaluates : Evaluates given finished passed policies p t)
    (last : String) (fails : (extend given p t).FailsWith cause) :
    (run given last finished passed policies).FailsWith cause := by
  induction evaluates generalizing last with
  | here earlier =>
      rw [run, Outcome.failsWith_bind, failsWith_extendAll]
      exact .inl ⟨_, _, _, _, rfl, earlier, fails⟩
  | later extended room further ih =>
      rw [run, Outcome.failsWith_bind]
      refine .inr ⟨_, extended, ?_⟩
      dsimp only
      rw [if_neg room]
      exact ih _ fails

/-- A chain that fails complains itself, or evaluates a policy that fails in the same way. -/
theorem run_failed {finished : List Path} {passed : List Thread} {policies : List Policy}
    (last : String) (fails : (run given last finished passed policies).FailsWith cause) :
    cause.Plain ∨ ∃ p t, Evaluates given finished passed policies p t ∧
      (extend given p t).FailsWith cause := by
  induction policies generalizing finished passed last with
  | nil => exact (Outcome.not_failsWith_ok fails).elim
  | cons p rest ih =>
      rw [run, Outcome.failsWith_bind, failsWith_extendAll] at fails
      rcases fails with ⟨before, t, after, done, rfl, earlier, fails⟩ | ⟨paths, extended, fails⟩
      · exact .inr ⟨p, t, .here earlier, fails⟩
      · dsimp only at fails
        split at fails
        · exact .inl (Outcome.failsAlone_of_fault rfl cause fails)
        · rename_i room
          exact (ih _ fails).imp_right fun ⟨q, t, further, fails⟩ =>
            ⟨q, t, .later extended room further, fails⟩

end Chain

theorem fault_of_evaluateChain {given : Assumed} {policies : List Policy} {r : Record}
    {cause : Cause} (fails : (evaluateChain given policies r).FailsWith cause) :
    ∃ fault, cause = .evaluation fault := by
  cases policies with
  | nil => exact (Outcome.not_failsWith_ok fails).elim
  | cons p rest =>
      rcases Chain.run_failed p.name fails with ⟨fault, same, -⟩ | ⟨q, t, -, fails⟩
      · exact ⟨fault, same⟩
      · exact (Chain.evaluation q t).fault_of_run (Chain.failsWith_extend.mp fails)

/-- The evaluations of policies that the evaluation of a chain begins. -/
def Evaluation.BegunBy (given : Assumed) (policies : List Policy) (r : Record) (e : Evaluation) :
    Prop :=
  ∃ p t, Chain.Evaluates given [] [⟨r, given.assumptions, []⟩] policies p t ∧
    e = Chain.evaluation p t

theorem failsWith_evaluateChain {given : Assumed} {policies : List Policy} {r : Record}
    {cause : Cause} (notPlain : ¬cause.Plain) : (evaluateChain given policies r).FailsWith cause ↔
      ∃ e, Evaluation.BegunBy given policies r e ∧
        (e.run given.table given.limit).FailsWith cause := by
  cases policies with
  | nil =>
      refine iff_of_false Outcome.not_failsWith_ok ?_
      rintro ⟨e, ⟨p, t, evaluates, -⟩, -⟩
      exact evaluates.ne_nil rfl
  | cons p rest =>
      constructor
      · intro fails
        rcases Chain.run_failed p.name fails with plain | ⟨q, t, evaluates, fails⟩
        · exact absurd plain notPlain
        · exact ⟨_, ⟨q, t, evaluates, rfl⟩, Chain.failsWith_extend.mp fails⟩
      · rintro ⟨_, ⟨q, t, evaluates, rfl⟩, fails⟩
        exact evaluates.fails p.name (Chain.failsWith_extend.mpr fails)

/-- Evaluation ends, of a policy and of every policy that a chain begins, whatever the table holds:
it runs no deeper than one more than the entries of the table, and it fails with a recursive call if
an evaluated call names the policy it started from or an entry that is being run, and only then. -/
theorem evaluation_ends (given : Assumed) (r : Record) :
    (∀ p, evaluatePolicy given p r =
        (Evaluation.begun given.assumptions p r).run given.table given.limit ∧
      (Evaluation.begun given.assumptions p r).Ends given.table given.limit) ∧
    ∀ policies, (∀ e, Evaluation.BegunBy given policies r e → e.Ends given.table given.limit) ∧
      ∀ name, (evaluateChain given policies r).FailsWith (.evaluation (.recursiveCall name)) ↔
        ∃ e inner, Evaluation.BegunBy given policies r e ∧
          Evaluation.Leads given.table given.limit e inner ∧
          inner.Recurs given.table given.limit name := by
  refine ⟨fun p => ⟨rfl, Evaluation.ends_begun _ _ _ p r⟩, fun policies => ⟨?_, fun name => ?_⟩⟩
  · rintro _ ⟨p, t, -, rfl⟩
    exact Evaluation.ends_begun _ _ _ p t.record
  · rw [failsWith_evaluateChain (mt Cause.Plain.own (Cause.not_own_recursiveCall name))]
    simp only [Evaluation.failsWith_run, exists_and_left]

end RoutePolicy
