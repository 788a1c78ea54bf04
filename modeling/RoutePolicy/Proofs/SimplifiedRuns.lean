import RoutePolicy.Proofs.LiteralEvaluation
import RoutePolicy.Proofs.NormalForm

/-!
Simplified policies over records without open slots. One pass leaves statements that a second one
keeps. Over such a record a policy takes a single path, and the simplified policy, with simplified
policies to call, ends as that path does and makes the same of the record. Nothing is asked of the
types of expressions.
-/

set_option autoImplicit false

namespace RoutePolicy

namespace Statement

/-! ### Simple statements -/

theorem cutAfterEnd_cutAfterEnd (block : List Statement) :
    cutAfterEnd (cutAfterEnd block) = cutAfterEnd block := by
  induction block with
  | nil => rfl
  | cons s rest ih =>
      by_cases ends : s.terminates = true
      · simp [cutAfterEnd, ends]
      · simp [cutAfterEnd, ends, ih]

theorem cutAfterEnd_simplifyAll (block : List Statement) :
    cutAfterEnd (simplifyAll block) = simplifyAll block := by
  cases block with
  | nil => rfl
  | cons s rest => rw [simplifyAll, cutAfterEnd_cutAfterEnd]

/-- A block of simple statements without any after the end of the policy is simple. -/
theorem simplifyAll_eq_self {block : List Statement} (simple : ∀ s ∈ block, s.simplify = [s])
    (cut : cutAfterEnd block = block) : simplifyAll block = block := by
  induction block with
  | nil => rfl
  | cons s rest ih =>
      obtain ⟨here, later⟩ := List.forall_mem_cons.mp simple
      have cutRest : cutAfterEnd rest = rest := by
        rw [cutAfterEnd] at cut
        split at cut
        · cases cut
          rfl
        · exact List.tail_eq_of_cons_eq cut
      rw [simplifyAll, here, ih later cutRest, List.singleton_append, cut]

mutual

/-- What a statement is simplified to are simple statements. -/
theorem simple_simplify (s : Statement) : ∀ x ∈ s.simplify, x.simplify = [x] := by
  cases s with
  | finish cls disposition => exact List.forall_mem_singleton.mpr rfl
  | assign cls target value =>
      refine List.forall_mem_singleton.mpr ?_
      have once := Expr.simplify_eq_self_iff.mpr (Expr.each_normal_simplify value)
      rw [simplify, once]
  | branch cls guard onTrue onFalse comment =>
      have simpleTrue := simple_simplifyAll onTrue
      have simpleFalse := simple_simplifyAll onFalse
      rw [simplify]
      split
      · split
        · exact simpleTrue
        · exact simpleFalse
      · rename_i undecided
        split
        · exact simpleTrue
        · rename_i distinct
          refine List.forall_mem_singleton.mpr ?_
          have once := Expr.simplify_eq_self_iff.mpr (Expr.each_normal_simplify guard)
          rw [simplify, once, simplifyAll_eq_self simpleTrue (cutAfterEnd_simplifyAll onTrue),
            simplifyAll_eq_self simpleFalse (cutAfterEnd_simplifyAll onFalse)]
          simp only [undecided, distinct, Bool.false_eq_true, if_false]

theorem simple_simplifyAll (block : List Statement) :
    ∀ x ∈ simplifyAll block, x.simplify = [x] := by
  cases block with
  | nil => exact List.forall_mem_nil _
  | cons s rest =>
      have all := List.forall_mem_append.mpr ⟨simple_simplify s, simple_simplifyAll rest⟩
      exact fun x member => all x ((cutAfterEnd_sublist _).subset member)

end

end Statement

/-- A second pass keeps a simplified policy. -/
theorem Policy.simplify_simplify (p : Policy) : p.simplify.simplify = p.simplify := by
  have block := Statement.simplifyAll_eq_self (Statement.simple_simplifyAll p.statements)
    (Statement.cutAfterEnd_simplifyAll p.statements)
  rw [Policy.simplify, Policy.simplify, block]

/-- A table of policies all expressions of which reach literals. -/
def Table.Foldable (table : Table Policy) : Prop :=
  ∀ name p, table.get? name = some p → p.Foldable

namespace Table

variable {table : Table Policy}

theorem simplified_simplified (table : Table Policy) :
    table.simplified.simplified = table.simplified := by
  unfold simplified
  rw [List.map_map]
  refine List.map_congr_left fun entry _ => ?_
  exact Prod.ext rfl entry.2.simplify_simplify

theorem names_simplified (table : Table Policy) : table.simplified.names = table.names := by
  unfold simplified names
  rw [List.map_map]
  rfl

theorem Foldable.simplified (foldable : table.Foldable) : table.simplified.Foldable := by
  intro name p found
  rw [get?_simplified] at found
  obtain ⟨q, known, rfl⟩ := Option.map_eq_some_iff.mp found
  exact Statement.everyAll_simplifyAll (Q := fun _ e => e.Each Expr.Foldable)
    (fun _ _ => Expr.simplify_foldable) q.statements (foldable name q known)

end Table

namespace Execution

/-! ### Runs -/

/-- A lone thread ends the rest of a block or has ended before it. -/
theorem resume_lone {run : Thread → Nat → Threads} {y : Ended} {paths after : Nat}
    {ended : List Ended} (resumed : resume run [y] paths = .ok (ended, after)) :
    (y.2.isSome = true ∧ ended = [y]) ∨ (y.2 = none ∧ run y.1 paths = .ok (ended, after)) := by
  obtain ⟨t, disposition⟩ := y
  cases disposition with
  | some disposition =>
      cases resumed
      exact .inl ⟨rfl, rfl⟩
  | none =>
      obtain ⟨⟨first, between⟩, ran, resumed⟩ := Outcome.bind_ok.mp resumed
      cases resumed
      rw [List.append_nil]
      exact .inr ⟨rfl, ran⟩

variable [Arithmetic]

/-- A guard that comes to a literal is a condition. -/
theorem guardValue_literal {frame : Frame} {r : Record} {guard value : Expr}
    (known : guardValue frame r guard = .ok value) (literal : value.isLiteral = true) :
    ∃ taken, value.bool? = some taken := by
  obtain ⟨found, _, same⟩ := Outcome.bind_ok.mp known
  split at same
  · cases same
  · rename_i condition
    cases same
    exact Option.ne_none_iff_exists'.mp (by simpa [literal] using condition)

/-- One thread came out of an execution, and what it did is done to a twin of its record. -/
def Echoes (t : Thread) (ended : List Ended) (done : Outcome (Record × Option Disposition)) :
    Prop :=
  ∃ y s, ended = [y] ∧ y.1.condition = t.condition ∧ done = .ok (s, y.2) ∧ y.1.record.Twin s

mutual

/-- Over a record without open slots a statement is run along one path, and performed in the same
way over twins. -/
theorem runStatement_echoes {frame : Frame} {others : Calls} (firm : frame.calls.Echoed others)
    (here : Position) (statement : Statement)
    (foldable : statement.Every fun _ e => e.Each Expr.Foldable) {t : Thread} {d : Record}
    (twin : t.record.Twin d) {paths after : Nat} {ended : List Ended}
    (run : runStatement frame here statement t paths = .ok (ended, after)) :
    Echoes t ended (statement.perform others d) := by
  cases statement with
  | finish cls disposition =>
      cases run
      exact ⟨_, d, rfl, rfl, rfl, twin⟩
  | assign cls target value =>
      rw [runStatement] at run
      obtain ⟨⟨x, record⟩, stepped, same⟩ := Outcome.bind_ok.mp run
      obtain ⟨_, evaluated, stepped⟩ := Outcome.bind_ok.mp (Outcome.inContext_ok.mp stepped)
      obtain ⟨_, assigned, stepped⟩ := Outcome.bind_ok.mp stepped
      cases stepped
      cases same
      have definite := (Expr.evaluate_definite firm twin.definite foldable evaluated).1
      obtain ⟨z, computed, equal⟩ := Expr.evaluate_twin firm twin foldable evaluated
      obtain ⟨s, also, becomes⟩ := twin.assign definite assigned equal
      exact ⟨_, s, rfl, rfl, Statement.perform_assign.mpr ⟨z, s, computed, also, rfl⟩, becomes⟩
  | branch cls guard onTrue onFalse comment =>
      obtain ⟨guardFolds, trueFolds, falseFolds⟩ := foldable
      obtain ⟨value, known, -⟩ := branch_ok run
      have evaluated := guardValue_ok known
      have definite := (Expr.evaluate_definite firm twin.definite guardFolds evaluated).1
      obtain ⟨taken, constant⟩ := guardValue_literal known definite.literal
      obtain ⟨z, computed, equal⟩ := Expr.evaluate_twin firm twin guardFolds evaluated
      rw [branch_taken known constant] at run
      have echoes : Echoes t ended
          (Statement.performAll others d (if taken then onTrue else onFalse)) := by
        cases taken with
        | true => exact runBlock_echoes firm _ 0 onTrue trueFolds (t := t.log _) twin run
        | false => exact runBlock_echoes firm _ 0 onFalse falseFolds (t := t.log _) twin run
      obtain ⟨y, s, lone, condition, done, becomes⟩ := echoes
      exact ⟨y, s, lone, condition,
        Statement.perform_branch.mpr ⟨z, taken, computed, equal.bool? constant, done⟩, becomes⟩

/-- Over a record without open slots a block is run along one path, and performed in the same way
over twins. -/
theorem runBlock_echoes {frame : Frame} {others : Calls} (firm : frame.calls.Echoed others)
    (above : Position) (i : Nat) (block : List Statement)
    (foldable : Statement.EveryAll (fun _ e => e.Each Expr.Foldable) block) {t : Thread}
    {d : Record} (twin : t.record.Twin d) {paths after : Nat} {ended : List Ended}
    (run : runBlock frame above i block t paths = .ok (ended, after)) :
    Echoes t ended (Statement.performAll others d block) := by
  cases block with
  | nil =>
      cases run
      exact ⟨_, d, rfl, rfl, rfl, twin⟩
  | cons first rest =>
      rw [runBlock] at run
      obtain ⟨⟨threads, between⟩, ran, resumed⟩ := Outcome.bind_ok.mp run
      obtain ⟨y, s, rfl, condition, done, becomes⟩ :=
        runStatement_echoes firm _ first foldable.1 twin ran
      rcases resume_lone resumed with ⟨closed, rfl⟩ | ⟨continues, rerun⟩
      · obtain ⟨disposition, stops⟩ := Option.isSome_iff_exists.mp closed
        exact ⟨y, s, rfl, condition,
          Statement.performAll_cons.mpr ⟨_, done, .inl ⟨disposition, stops, rfl⟩⟩, becomes⟩
      · obtain ⟨z, s', lone, later, further, ends⟩ :=
          runBlock_echoes firm above (i + 1) rest foldable.2 becomes rerun
        exact ⟨z, s', lone, later.trans condition,
          Statement.performAll_cons.mpr ⟨_, done, .inr ⟨continues, further⟩⟩, ends⟩

end

/-! ### Policies -/

/-- A path without conditions, and one that ends in the same way with the same values. -/
structure Mirrors (path other : Path) : Prop where
  disposition : other.disposition = path.disposition
  certain : path.condition = []
  known : other.condition = []
  records : path.record.Twin other.record

/-- Over records without open slots the simplified policy takes the path of the policy. -/
theorem runPolicy_simplified {calls others : Calls} (firm : calls.Echoed others)
    (steady : others.Echoed others) {p : Policy} (foldable : p.Foldable) {c d : Record}
    (twin : c.Twin d) {limit : Int} (otherLimit : Int) {paths : List Path}
    (run : runPolicy calls limit [] p c = .ok paths) :
    ∃ path other, paths = [path] ∧ runPolicy others otherLimit [] p.simplify d = .ok [other] ∧
      Mirrors path other := by
  obtain ⟨ended, after, ran, rfl⟩ := runPolicy_ok.mp run
  obtain ⟨y, s, rfl, condition, done, becomes⟩ :=
    runBlock_echoes firm [] 0 p.statements foldable (t := ⟨c, [], []⟩) twin ran
  have performed : p.perform others d = .ok (y.2.getD .reject, s) :=
    Policy.perform_ok.mpr ⟨y.2, done, rfl⟩
  obtain ⟨s', also, ends⟩ :=
    Policy.perform_simplify steady.tolerant foldable twin.other.twin performed
  obtain ⟨other, reran, disposition, record, known⟩ := runPolicy_of_perform also otherLimit []
  refine ⟨toPath p.name y, other, rfl, reran, ?_, ?_, known, ?_⟩
  · rw [disposition, toPath_disposition]
  · rw [toPath_condition, condition]
  · rw [toPath_record, record]
    exact becomes.trans ends

/-- Calls of simplified policies are answered as calls of the policies are. -/
theorem callsFrom_echoed {table : Table Policy} (foldable : table.Foldable)
    (limit otherLimit : Int) (stack : List String) :
    (callsFrom table limit stack).Echoed (callsFrom table.simplified otherLimit stack) := by
  intro name c d x twin called
  obtain ⟨fresh, p, paths, found, run, rfl⟩ := callsFrom_ok.mp called
  have firm := callsFrom_echoed foldable limit otherLimit (stack ++ [name])
  -- a simplified table is its own simplified table
  have steady := callsFrom_echoed foldable.simplified otherLimit otherLimit (stack ++ [name])
  rw [table.simplified_simplified] at steady
  obtain ⟨path, other, rfl, ran, mirrors⟩ :=
    runPolicy_simplified firm steady (foldable name p found) twin otherLimit run
  have simplified : table.simplified.get? name = some p.simplify := by
    rw [Table.get?_simplified, found]
    rfl
  rw [residual_single mirrors.certain]
  refine ⟨⟨none, _, rfl, rfl⟩, residual [other] .accept,
    callsFrom_ok.mpr ⟨fresh, p.simplify, [other], simplified, ran, rfl⟩, ?_⟩
  rw [residual_single mirrors.known, mirrors.disposition]
  exact ⟨_, ⟨none, _, rfl, rfl⟩, none, _, rfl, rfl⟩
termination_by (idle table stack).length
decreasing_by
  · exact idle_lt fresh found
  · unfold idle
    rw [table.names_simplified]
    exact idle_lt fresh found

end Execution

namespace Tagging

/-- A policy that tags routes with a truth value and asks for it together with another policy. -/
def asking : Policy :=
  ⟨"ask", [.assign none .tag (.bool true),
    .branch none (.all [.ref .tag, .call none "check"])
      [.assign none .metric (.int 5), .finish none .accept, .finish none .reject]
      [.finish none .reject, .finish none .accept] .absent,
    .finish none .reject]⟩

def asked : Policy := ⟨"check", [.branch none (.all [.bool true])
  [.finish none .accept, .finish none .reject] [] .absent]⟩

def ending (word : String) : Json := .obj [("class", .str "StaticStatement"), ("type", .str word)]

def truth : Json := .obj [("class", .str "StaticBooleanExpr"), ("type", .str "True")]

theorem asking_read : ∃ keep j, Encoding.readPolicy keep j = .ok asking :=
  ⟨false, .obj [("name", .str "ask"), ("statements", .arr [
    .obj [("class", .str "SetTag"), ("tag", truth)],
    .obj [("class", .str "If"),
      ("guard", .obj [("class", .str "Conjunction"), ("conjuncts", .arr [
        .obj [("class", .str "RouteAttribute"), ("attribute", .str "tag")],
        .obj [("class", .str "CallExpr"), ("calledPolicyName", .str "check")]])]),
      ("trueStatements", .arr [.obj [("class", .str "SetMetric"),
          ("metric", .obj [("class", .str "LiteralLong"), ("value", .int 5)])],
        ending "ExitAccept", ending "ExitReject"]),
      ("falseStatements", .arr [ending "ExitReject", ending "ExitAccept"])],
    ending "ExitReject"])], by with_unfolding_all rfl⟩

theorem asked_read : ∃ keep j, Encoding.readPolicy keep j = .ok asked :=
  ⟨false, .obj [("name", .str "check"), ("statements", .arr [
    .obj [("class", .str "If"),
      ("guard", .obj [("class", .str "Conjunction"), ("conjuncts", .arr [truth])]),
      ("trueStatements", .arr [ending "ExitAccept", ending "ExitReject"]),
      ("falseStatements", .arr [])]])], by with_unfolding_all rfl⟩

def table : Table Policy := [("check", asked)]

theorem table_read (name : String) (q : Policy) (found : table.get? name = some q) :
    ∃ keep j, Encoding.readPolicy keep j = .ok q := by
  unfold table Table.get? at found
  split at found
  · cases found
    exact asked_read
  · cases found

def values : List Given := [.metric (.ofInt 7), .tag (.ofInt 1)]

def record : Record := ⟨[(.metric, .int 7), (.tag, .int 1)]⟩

/-- The record once the tag is a truth value. -/
def tagged : Record := ⟨[(.metric, .int 7), (.tag, .bool true)]⟩

def marked : Record := ⟨[(.metric, .int 5), (.tag, .bool true)]⟩

theorem asked_accepts :
    Execution.callsFrom table 1 ["ask"] "check" tagged = .ok (.bool true) :=
  Execution.callsFrom_ok.mpr ⟨by decide, asked, _, rfl, by rfl, rfl⟩

theorem asking_performed :
    asking.perform (Execution.callsFrom table 1 ["ask"]) record = .ok (.accept, marked) := by
  have guarded : (Expr.all [.ref .tag, .call none "check"]).evaluate
      (Execution.callsFrom table 1 ["ask"]) tagged = .ok (.bool true) :=
    (Expr.evaluate_operator rfl).mpr
      ⟨[.bool true, .bool true], .cons rfl (.cons asked_accepts .nil), rfl, rfl⟩
  refine Policy.perform_ok.mpr ⟨some .accept, Statement.performAll_cons.mpr ?_, rfl⟩
  refine ⟨(tagged, none), rfl, .inr ⟨rfl, Statement.performAll_cons.mpr ?_⟩⟩
  exact ⟨(marked, some .accept), Statement.perform_branch.mpr ⟨_, true, guarded, rfl, rfl⟩,
    .inl ⟨.accept, rfl, rfl⟩⟩

end Tagging

/-- Simplification of statements keeps behaviour. A second pass over a policy changes nothing. Over a
record of given values a policy and a table from documents take one path if the evaluation succeeds;
then the simplified policy, evaluated with the simplified table, takes one path as well, which ends
in the same disposition with the same value for every attribute. -/
theorem simplified_policy_behaves [Arithmetic] (p : Policy) :
    p.simplify.simplify = p.simplify ∧
      ∀ (table : Table Policy) (values : List Given) (r : Record) (limit : Int) (paths : List Path),
        (∃ keep j, Encoding.readPolicy keep j = .ok p) →
        (∀ name q, table.get? name = some q → ∃ keep j, Encoding.readPolicy keep j = .ok q) →
        Record.ofGiven values false = .ok r →
        evaluatePolicy ⟨[], limit, table⟩ p r = .ok paths →
        ∃ path other, paths = [path] ∧
          evaluatePolicy ⟨[], limit, table.simplified⟩ p.simplify r = .ok [other] ∧
          other.disposition = path.disposition ∧ path.condition = [] ∧ other.condition = [] ∧
          path.record.SameValues other.record := by
  refine ⟨p.simplify_simplify, ?_⟩
  rintro table values r limit paths ⟨keep, j, read⟩ tableRead given run
  have foldable : table.Foldable := by
    intro name q found
    obtain ⟨keep, j, read⟩ := tableRead name q found
    exact Encoding.readPolicy_foldable read
  have firm := Execution.callsFrom_echoed foldable limit limit [p.name]
  have steady := Execution.callsFrom_echoed foldable.simplified limit limit [p.name]
  rw [table.simplified_simplified] at steady
  obtain ⟨path, other, rfl, ran, mirrors⟩ := Execution.runPolicy_simplified firm steady
    (Encoding.readPolicy_foldable read) (Record.definite_of_ofGiven given).twin limit run
  exact ⟨path, other, rfl, ran, mirrors.disposition, mirrors.certain, mirrors.known,
    mirrors.records.values⟩

theorem asking_simplified_behaves :
    Record.ofGiven Tagging.values false = .ok Tagging.record ∧
      Tagging.asking.simplify.statements.length = 2 ∧
      ∃ path other,
        evaluatePolicy ⟨[], 1, Tagging.table⟩ Tagging.asking Tagging.record = .ok [path] ∧
          evaluatePolicy ⟨[], 1, Tagging.table.simplified⟩ Tagging.asking.simplify Tagging.record =
            .ok [other] ∧
          path.disposition = .accept ∧ path.record = Tagging.marked ∧
          other.disposition = path.disposition ∧ path.record.SameValues other.record := by
  have given : Record.ofGiven Tagging.values false = .ok Tagging.record := by
    with_unfolding_all rfl
  obtain ⟨path, run, accepts, marks, _⟩ :=
    Execution.runPolicy_of_perform Tagging.asking_performed 1 []
  obtain ⟨first, other, same, ran, disposition, _, _, values⟩ :=
    (simplified_policy_behaves Tagging.asking).2 Tagging.table Tagging.values Tagging.record 1
      [path] Tagging.asking_read Tagging.table_read given run
  cases same
  exact ⟨given, by rfl, path, other, run, ran, accepts, marks, disposition, values⟩

end RoutePolicy
