import RoutePolicy.Proofs.Complements
import RoutePolicy.Proofs.Courses
import RoutePolicy.Proofs.Policies

/-!
Guards that an execution has already assumed. A branching statement whose guard, or its negation,
is among the conditions of a course takes the branch they say, and the execution is not split again.
The decision is found by simplifying the conjunction of the conditions with the guard or its
negation, so a guard that is a conjunction, or the negation of one, is not recognised.
-/

set_option autoImplicit false

namespace RoutePolicy

/-- Conditions that simplification finds contradictory. -/
def Refuted (conditions : List Expr) : Prop := (Expr.all conditions).simplify.bool? = some false

instance (conditions : List Expr) : Decidable (Refuted conditions) :=
  inferInstanceAs (Decidable (_ = _))

theorem refuted_iff {conditions : List Expr} :
    Refuted conditions ↔ Expr.Decisive .all (Expr.simpleParts .all conditions) :=
  @Expr.simplify_decided .all none conditions

theorem refuted_of_false {conditions : List Expr} {x : Expr} (member : x ∈ conditions)
    (constant : x.bool? = some false) : Refuted conditions := by
  obtain ⟨cls, rfl⟩ := Expr.bool?_eq_some constant
  exact refuted_iff.mpr (.inl ⟨_, Expr.mem_simpleParts member rfl, rfl⟩)

/-- Conditions that are there already do not refute others. -/
theorem refuted_append {conditions : List Expr} {x c : Expr} (member : x ∈ conditions)
    (equal : x.simplify.content = c.simplify.content) (refuted : Refuted (conditions ++ [c])) :
    Refuted conditions := by
  refine refuted_iff.mpr ((refuted_iff.mp refuted).of_contents (Expr.simpleParts_contents ?_))
  refine List.forall_mem_append.mpr ⟨fun y inside => ⟨y, inside, rfl⟩, ?_⟩
  exact List.forall_mem_singleton.mpr ⟨x, member, equal⟩

/-- A condition is refuted beside its negation. -/
theorem refuted_of_opposite {conditions : List Expr} {x c : Expr} (member : x ∈ conditions)
    (whole : x.Whole .all) (opposite : c.simplify.content = x.simplify.negate.content) :
    Refuted (conditions ++ [c]) :=
  refuted_iff.mpr (Expr.decisive_of_complement (List.mem_append_left _ member)
    (List.mem_append_right _ (List.mem_singleton_self c)) whole opposite)

namespace Execution

variable {conditions : List Expr} {x guard : Expr}

/-- A guard is decided by refuting one of the two branches, once there are conditions. -/
theorem assumed_eq (member : x ∈ conditions) : assumed conditions guard =
    if Refuted (conditions ++ [guard.negate]) then some true
    else if Refuted (conditions ++ [guard]) then some false
    else none := by
  have filled : conditions.isEmpty = false :=
    List.isEmpty_eq_false_iff.mpr (List.ne_nil_of_mem member)
  unfold assumed
  rw [filled]
  rfl

/-- A condition that comes to the same as a guard refutes the negation of the guard. -/
theorem refuted_negate (member : x ∈ conditions) (whole : x.Whole .all)
    (equal : guard.simplify.content = x.simplify.content) :
    Refuted (conditions ++ [guard.negate]) := by
  apply refuted_of_opposite member whole
  rw [Expr.simplify_negate, ← Expr.negate_content, equal, Expr.negate_content]

/-- A guard is decided by a condition that comes to the same or to the opposite. -/
theorem assumed_ne_none (member : x ∈ conditions) (whole : x.Whole .all)
    (known : guard.simplify.content = x.simplify.content ∨
      guard.simplify.content = x.simplify.negate.content) : assumed conditions guard ≠ none := by
  rw [assumed_eq member]
  rcases known with equal | opposite
  · rw [if_pos (refuted_negate member whole equal)]
    exact Option.some_ne_none _
  · rw [if_pos (refuted_of_opposite member whole opposite)]
    split
    · exact Option.some_ne_none _
    · exact Option.some_ne_none _

/-- A guard that is among the conditions is true. -/
theorem assumed_of_same (member : x ∈ conditions) (equal : x.same guard = true)
    (whole : guard.Whole .all) : assumed conditions guard = some true := by
  have contents := Expr.same_iff.mp (Expr.same_simplify equal)
  rw [assumed_eq member, if_pos (refuted_negate member (whole.of_content contents) contents.symm)]

/-- A guard whose negation is among the conditions is decided, and it is false unless the conditions
are contradictory. -/
theorem assumed_of_negated (member : x ∈ conditions) (equal : x.same guard.negate = true)
    (whole : guard.Whole .all) : assumed conditions guard ≠ none ∧
      (¬Refuted conditions → assumed conditions guard = some false) := by
  have contents : x.simplify.content = guard.simplify.negate.content :=
    (Expr.same_iff.mp (Expr.same_simplify equal)).trans (Expr.simplify_negate guard)
  have own := whole.of_opposite contents
  have opposite := Expr.opposite_symm contents
  refine ⟨assumed_ne_none member own (.inr opposite), fun satisfiable => ?_⟩
  have again : x.simplify.content = guard.negate.simplify.content :=
    contents.trans (Expr.simplify_negate guard).symm
  rw [assumed_eq member, if_neg fun refuted => satisfiable (refuted_append member again refuted),
    if_pos (refuted_of_opposite member own opposite)]

end Execution

/-! ### Decisions -/

namespace Decision

/-- What a decision adds to the conditions. -/
def assumption? (d : Decision) : Option Expr :=
  if d.split then some (if d.taken then d.guard else d.guard.negate) else none

/-- A decision takes the branch that is decided, or it splits the execution. -/
def Made (d : Decision) : Prop :=
  Execution.choice d.condition d.guard = if d.split then none else some d.taken

/-- A decision on a guard that is among the conditions does not split the execution and takes the
true branch; one on a guard whose negation is among them takes the false branch. Contradictory
conditions decide a guard, too, but not in this way. -/
structure FollowsAssumptions (d : Decision) : Prop where
  same : ∀ x ∈ d.condition, x.same d.guard = true → d.split = false ∧
    (d.guard.bool? = none ∨ ¬Refuted d.condition → d.taken = true)
  negated : ∀ x ∈ d.condition, x.same d.guard.negate = true → d.split = false ∧
    (¬Refuted d.condition → d.taken = false)

theorem Made.eq_some {d : Decision} (made : d.Made) {taken : Bool}
    (chosen : Execution.choice d.condition d.guard = some taken) :
    d.split = false ∧ d.taken = taken := by
  unfold Made at made
  rw [chosen] at made
  cases split : d.split with
  | true => simp [split] at made
  | false =>
      rw [split, if_neg Bool.false_ne_true, Option.some.injEq] at made
      exact ⟨rfl, made.symm⟩

theorem Made.eq_none {d : Decision} (made : d.Made) (split : d.split = true) :
    d.guard.bool? = none ∧ Execution.assumed d.condition d.guard = none := by
  unfold Made at made
  rw [split, if_pos rfl] at made
  exact Option.or_eq_none_iff.mp made

/-- A constant guard takes its branch, whatever has been assumed. -/
theorem Made.of_constant {d : Decision} (made : d.Made) {value : Bool}
    (constant : d.guard.bool? = some value) : d.FollowsAssumptions := by
  obtain ⟨whole, taken⟩ := made.eq_some (by rw [Execution.choice, constant, Option.some_or])
  rw [← taken] at constant
  constructor
  case same =>
    refine fun x member equal => ⟨whole, fun open' => ?_⟩
    have satisfiable := open'.resolve_left (by simp [constant])
    have equal' : x.bool? = some d.taken := by
      rw [← Expr.bool?_content, Expr.same_iff.mp equal, Expr.bool?_content, constant]
    cases value' : d.taken with
    | true => rfl
    | false =>
        rw [value'] at equal'
        exact absurd (refuted_of_false member equal') satisfiable
  case negated =>
    refine fun x member equal => ⟨whole, fun satisfiable => ?_⟩
    have opposite : x.bool? = some !d.taken := by
      obtain ⟨cls, literal⟩ := Expr.bool?_eq_some constant
      rw [← Expr.bool?_content, Expr.same_iff.mp equal, literal]
      rfl
    cases value' : d.taken with
    | false => rfl
    | true =>
        rw [value'] at opposite
        exact absurd (refuted_of_false member opposite) satisfiable

theorem Made.followsAssumptions {d : Decision} (made : d.Made) (whole : d.guard.Whole .all) :
    d.FollowsAssumptions := by
  cases constant : d.guard.bool? with
  | some value => exact made.of_constant constant
  | none =>
      have chosen : Execution.choice d.condition d.guard =
          Execution.assumed d.condition d.guard := by
        rw [Execution.choice, constant, Option.none_or]
      constructor
      case same =>
        intro x member equal
        obtain ⟨apart, taken⟩ :=
          made.eq_some (chosen.trans (Execution.assumed_of_same member equal whole))
        exact ⟨apart, fun _ => taken⟩
      case negated =>
        intro x member equal
        obtain ⟨decided, false'⟩ := Execution.assumed_of_negated member equal whole
        refine ⟨?_, fun satisfiable => (made.eq_some (chosen.trans (false' satisfiable))).2⟩
        obtain ⟨taken, found⟩ := Option.ne_none_iff_exists'.mp decided
        exact (made.eq_some (chosen.trans found)).1

end Decision

/-! ### Conditions of a course -/

/-- Decisions one after another: each one finds the conditions that those before it have left. -/
def Decision.Successive (conditions : List Expr) : List Decision → Prop
  | [] => True
  | d :: ds => d.condition = conditions ∧ Successive (conditions ++ d.assumption?.toList) ds

/-- The conditions that decisions add. -/
def Decision.assumptions (ds : List Decision) : List Expr := ds.flatMap (·.assumption?.toList)

namespace Decision

theorem successive_append {conditions : List Expr} {ds later : List Decision} :
    Successive conditions (ds ++ later) ↔
      Successive conditions ds ∧ Successive (conditions ++ assumptions ds) later := by
  induction ds generalizing conditions with
  | nil => simp [Successive, assumptions]
  | cons d ds ih =>
      rw [List.cons_append, Successive, Successive, ih, and_assoc, List.append_assoc]
      rfl

/-- Conditions among which an expression that is recognised beside its negation stands beside it
only if both were assumed at the start. -/
def Compatible (start conditions : List Expr) : Prop :=
  ∀ x ∈ conditions, ∀ y ∈ conditions, x.Whole .all → y.same x.negate = true → x ∈ start ∧ y ∈ start

/-- What a decision adds to the conditions it finds is the opposite of none of them. -/
theorem Made.not_opposite {d : Decision} (made : d.Made) {added x : Expr}
    (adds : d.assumption? = some added) (member : x ∈ d.condition) (whole : x.Whole .all) :
    added.simplify.content ≠ x.simplify.negate.content := by
  intro opposite
  unfold assumption? at adds
  cases split : d.split with
  | false => simp [split] at adds
  | true =>
      have undecided := (made.eq_none split).2
      refine Execution.assumed_ne_none member whole ?_ undecided
      rw [split, if_pos rfl, Option.some.injEq] at adds
      cases taken : d.taken with
      | true =>
          rw [taken, if_pos rfl] at adds
          exact .inr (adds ▸ opposite)
      | false =>
          rw [taken, if_neg Bool.false_ne_true] at adds
          subst adds
          -- the negation of the guard is the opposite of the guard, too
          have other := Expr.opposite_symm (Expr.simplify_negate d.guard)
          rw [other, ← Expr.negate_content, opposite, Expr.negate_content,
            Expr.negate_negate (Expr.each_normal_simplify x).root]
          exact .inl rfl

/-- What a decision adds is compatible with the conditions it finds. -/
theorem Made.compatible {d : Decision} (made : d.Made) {start : List Expr}
    (compatible : Compatible start d.condition) :
    Compatible start (d.condition ++ d.assumption?.toList) := by
  cases adds : d.assumption? with
  | none => rwa [Option.toList_none, List.append_nil]
  | some added =>
      intro x inside y among whole equal
      have opposite : y.simplify.content = x.simplify.negate.content :=
        (Expr.same_iff.mp (Expr.same_simplify equal)).trans (Expr.simplify_negate x)
      rw [Option.toList_some, List.mem_append, List.mem_singleton] at inside among
      rcases inside with inside | rfl
      · rcases among with among | rfl
        · exact compatible x inside y among whole equal
        · exact absurd opposite (made.not_opposite adds inside whole)
      · rcases among with among | rfl
        · exact absurd (Expr.opposite_symm opposite)
            (made.not_opposite adds among (whole.of_opposite opposite))
        · exact absurd (Expr.same_iff.mp equal).symm (Expr.content_negate_ne _)

/-- What successive decisions add is compatible with the conditions they start from. -/
theorem compatible_of_successive {start conditions : List Expr} {ds : List Decision}
    (made : ∀ d ∈ ds, d.Made) (successive : Successive conditions ds)
    (compatible : Compatible start conditions) :
    Compatible start (conditions ++ assumptions ds) := by
  induction ds generalizing conditions with
  | nil => rwa [assumptions, List.flatMap_nil, List.append_nil]
  | cons d ds ih =>
      obtain ⟨rfl, later⟩ := successive
      obtain ⟨here, others⟩ := List.forall_mem_cons.mp made
      rw [assumptions, List.flatMap_cons, ← List.append_assoc]
      exact ih others later (here.compatible compatible)

end Decision

/-! ### Courses -/

namespace Execution

variable [Arithmetic] {frame : Frame}

open Decision

/-- What a course says of its decisions and of the conditions it ends under. -/
structure Chronicle (t : Thread) (ds : List Decision) (e : Ended) : Prop where
  made : ∀ d ∈ ds, d.Made
  successive : Successive t.condition ds
  condition : e.1.condition = t.condition ++ assumptions ds

omit [Arithmetic] in
/-- A decision comes before those of the branch it takes. -/
theorem Chronicle.cons {t u : Thread} {d : Decision} {ds : List Decision} {e : Ended}
    (made : d.Made) (here : d.condition = t.condition)
    (adds : u.condition = t.condition ++ d.assumption?.toList) (chronicle : Chronicle u ds e) :
    Chronicle t (d :: ds) e where
  made := List.forall_mem_cons.mpr ⟨made, chronicle.made⟩
  successive := ⟨here, adds ▸ chronicle.successive⟩
  condition := by
    rw [chronicle.condition, adds, List.append_assoc]
    rfl

omit [Arithmetic] in
theorem Chronicle.append {t u : Thread} {ds later : List Decision} {e : Ended}
    {disposition : Option Disposition} (first : Chronicle t ds (u, disposition))
    (others : Chronicle u later e) : Chronicle t (ds ++ later) e where
  made := List.forall_mem_append.mpr ⟨first.made, others.made⟩
  successive := successive_append.mpr ⟨first.successive, first.condition ▸ others.successive⟩
  condition := by
    rw [others.condition, first.condition, List.append_assoc, assumptions, assumptions, assumptions,
      List.flatMap_append]

mutual

theorem StatementCourse.chronicle {here : Position} (s : Statement) {t : Thread}
    {ds : List Decision} {e : Ended} (course : StatementCourse frame here s t ds e) :
    Chronicle t ds e := by
  cases s with
  | finish cls disposition =>
      cases course
      exact ⟨List.forall_mem_nil _, trivial, (List.append_nil _).symm⟩
  | assign cls target value =>
      cases course
      exact ⟨List.forall_mem_nil _, trivial, (List.append_nil _).symm⟩
  | branch cls guard onTrue onFalse comment =>
      cases course with
      | @decided _ _ _ value _ _ _ _ taken later _ known chosen inside =>
          have inner : Chronicle (t.log (.branch frame.policy here taken value.bool?.isNone)) later
              e := by
            cases taken with
            | true => exact BlockCourse.chronicle onTrue inside
            | false => exact BlockCourse.chronicle onFalse inside
          refine inner.cons chosen rfl ?_
          exact (List.append_nil _).symm
      | @split _ _ _ value _ _ _ _ taken later _ known undecided inside =>
          have inner : Chronicle ((t.assuming (if taken then value else value.negate)).log
              (.branch frame.policy here taken true)) later e := by
            cases taken with
            | true => exact BlockCourse.chronicle onTrue inside
            | false => exact BlockCourse.chronicle onFalse inside
          exact inner.cons undecided rfl rfl

theorem BlockCourse.chronicle {above : Position} {i : Nat} (block : List Statement) {t : Thread}
    {ds : List Decision} {e : Ended} (course : BlockCourse frame above i block t ds e) :
    Chronicle t ds e := by
  cases block with
  | nil =>
      cases course
      exact ⟨List.forall_mem_nil _, trivial, (List.append_nil _).symm⟩
  | cons s rest =>
      cases course with
      | ended first => exact StatementCourse.chronicle s first
      | further first others =>
          exact (StatementCourse.chronicle s first).append (BlockCourse.chronicle rest others)

end

end Execution

/-- Guards that are neither conjunctions nor negations of conjunctions are not asked again. Every
path of a policy has come on a course; a decision of it on a guard that is among the conditions
there, or whose negation is, does not split the execution and takes the branch that the conditions
say, if they are not contradictory; and the path does not hold under a condition and its negation
unless both were assumed at the start. -/
theorem assumed_guards_not_asked_again [Arithmetic] {given : Assumed} {p : Policy} {r : Record}
    {paths : List Path} (ran : evaluatePolicy given p r = .ok paths) {path : Path}
    (member : path ∈ paths) : (∃ ds, p.Course given r ds path) ∧
      (∀ ds, p.Course given r ds path → ∀ d ∈ ds, d.guard.Whole .all → d.FollowsAssumptions) ∧
      Decision.Compatible given.assumptions path.condition := by
  obtain ⟨ds, course⟩ := (mem_evaluatePolicy ran path).mp member
  refine ⟨⟨ds, course⟩, ?_, ?_⟩
  · rintro ds ⟨e, course, -⟩ d inside whole
    exact ((Execution.BlockCourse.chronicle p.statements course).made d inside).followsAssumptions
      whole
  · obtain ⟨e, course, rfl⟩ := course
    obtain ⟨made, successive, condition⟩ := Execution.BlockCourse.chronicle p.statements course
    rw [Execution.toPath_condition, condition]
    exact Decision.compatible_of_successive made successive fun x inside y among _ _ =>
      ⟨inside, among⟩

namespace AskingTwice

/-! A policy that asks for one guard twice, over a route of which nothing is known. -/

def policy (guard : Expr) : Policy :=
  ⟨"P", [.branch none guard [.assign none .metric (.int 1)] [] .absent,
    .branch none guard [.finish none .accept] [.finish none .reject] .absent]⟩

def tagged (community : String) : Expr := .hasCommunity none (.ref .communities) community

def both : Expr := .all [tagged "65000:1", tagged "65000:2"]

def given : Assumed := ⟨[], 1024, []⟩

def record : Record := .symbolic [.communities, .metric]

/-- The path that takes a branch at each of the two statements. -/
def path (first second : Bool) (condition : List Expr) : Path where
  disposition := if second then .accept else .reject
  condition := condition
  record := ⟨[(.communities, .ref .communities),
    (.metric, if first then .int 1 else .ref .metric)]⟩
  trace := [.branch "P" [.index 0] first true] ++
    (if first then [.assign "P" [.index 0, .branch true, .index 0] .metric false] else []) ++
    [.branch "P" [.index 1] second true,
      .finish "P" [.index 1, .branch second, .index 0] (if second then .accept else .reject)]

theorem paths_tagged : @evaluatePolicy .binary64 given (policy (tagged "65000:1")) record =
    .ok [path true true [tagged "65000:1"], path false false [(tagged "65000:1").negate]] := by
  with_unfolding_all rfl

theorem paths_both : @evaluatePolicy .binary64 given (policy both) record =
    .ok [path true true [both, both], path true false [both, both.negate],
      path false true [both.negate, both], path false false [both.negate, both.negate]] := by
  with_unfolding_all rfl

/-- The first decision assumes the conjunction, the second one denies it. -/
def decisions : List Decision :=
  [⟨[.index 0], both, [], true, true⟩, ⟨[.index 1], both, [both], false, true⟩]

theorem course_both : @Policy.Course .binary64 given (policy both) record decisions
    (path true false [both, both.negate]) := by
  let frame : Execution.Frame := ⟨"P", 1024, @Execution.callsFrom .binary64 [] 1024 ["P"]⟩
  let between : Thread := ⟨⟨[(.communities, .ref .communities), (.metric, .int 1)]⟩, [both],
    [.branch "P" [.index 0] true true,
      .assign "P" [.index 0, .branch true, .index 0] .metric false]⟩
  have assigned : @Execution.BlockCourse .binary64 frame [.index 0, .branch true] 0
      [.assign none .metric (.int 1)] ⟨record, [both], [.branch "P" [.index 0] true true]⟩ []
      (between, none) :=
    @Execution.BlockCourse.further .binary64 frame _ 0 _ _ _ _ [] [] _
      (.assign (x := .int 1) rfl rfl) .done
  have first : @Execution.StatementCourse .binary64 frame [.index 0]
      (.branch none both [.assign none .metric (.int 1)] [] .absent) ⟨record, [], []⟩
      [⟨[.index 0], both, [], true, true⟩] (between, none) := by
    refine .split true ?_ ?_ assigned
    all_goals with_unfolding_all rfl
  have second : ∃ t, @Execution.StatementCourse .binary64 frame [.index 1]
      (.branch none both [.finish none .accept] [.finish none .reject] .absent) between
      [⟨[.index 1], both, [both], false, true⟩] (t, some .reject) ∧
      path true false [both, both.negate] = Execution.toPath "P" (t, some .reject) := by
    refine ⟨_, .split false ?_ ?_ (.ended .finish), ?_⟩
    all_goals with_unfolding_all rfl
  obtain ⟨t, second, same⟩ := second
  exact ⟨(t, some .reject),
    @Execution.BlockCourse.further .binary64 frame [] 0 _ _ _ _ _ _ _ first (.ended second), same⟩

end AskingTwice

open AskingTwice in
theorem tagged_not_asked_again : ∃ paths path,
    @evaluatePolicy .binary64 given (policy (tagged "65000:1")) record = .ok paths ∧ path ∈ paths ∧
      (tagged "65000:1").Whole .all ∧
      (∃ ds, @Policy.Course .binary64 given (policy (tagged "65000:1")) record ds path) ∧
      (∀ ds, @Policy.Course .binary64 given (policy (tagged "65000:1")) record ds path →
        ∀ d ∈ ds, d.guard.Whole .all → d.FollowsAssumptions) ∧
      Decision.Compatible given.assumptions path.condition :=
  ⟨_, _, paths_tagged, List.mem_cons_self, by decide,
    @assumed_guards_not_asked_again .binary64 _ _ _ _ paths_tagged _ List.mem_cons_self⟩

open AskingTwice in
/-- A conjunction is asked again: on one course it is assumed, the execution is split at the same
guard once more, and the path holds under the conjunction and its negation although nothing was
assumed at the start. -/
theorem conjunction_asked_again : ∃ paths path ds,
    @evaluatePolicy .binary64 given (policy both) record = .ok paths ∧ path ∈ paths ∧
      @Policy.Course .binary64 given (policy both) record ds path ∧
      (∃ d ∈ ds, d.guard ∈ d.condition ∧ d.split = true ∧ d.taken = false) ∧
      (∃ x ∈ path.condition, ∃ y ∈ path.condition, y.same x.negate = true) ∧
      given.assumptions = [] := by
  refine ⟨_, path true false [both, both.negate], decisions, paths_both, ?_, course_both, ?_, ?_,
    rfl⟩
  · exact List.mem_cons_of_mem _ List.mem_cons_self
  · exact ⟨_, List.mem_cons_of_mem _ List.mem_cons_self, List.mem_singleton_self both, rfl, rfl⟩
  · exact ⟨both, List.mem_cons_self, both.negate, List.mem_cons_of_mem _ List.mem_cons_self,
      by with_unfolding_all rfl⟩

end RoutePolicy
