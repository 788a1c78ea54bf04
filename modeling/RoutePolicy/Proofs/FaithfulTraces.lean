import RoutePolicy.Proofs.Courses
import RoutePolicy.Proofs.Policies
import RoutePolicy.Proofs.SteadyGuards
import RoutePolicy.Proofs.Tours

/-!
The trace of a path is faithful: it records, statement by statement, the tour through the policy that
takes at every branching statement the branch that the trace records for its location. What the trace
records no assignment to is left as it was. Two paths of one evaluation part at a branching statement,
so their traces differ.
-/

set_option autoImplicit false

namespace RoutePolicy

/-! ### Where visits lie -/

/-- A visit to a statement or to one below it. -/
def Statement.Lies (here : Position) (s : Statement) (v : Position × Statement) : Prop :=
  ∃ rest, v.1 = here ++ rest ∧ s.below? rest = some v.2

/-- A visit to a statement of a block, the first of which has the given number, or to one below. -/
def Statement.LiesAll (above : Position) (i : Nat) (block : List Statement)
    (v : Position × Statement) : Prop :=
  ∃ j rest, v.1 = above ++ .index (i + j) :: rest ∧ (block[j]?).bind (·.below? rest) = some v.2

namespace Statement

variable {above here : Position} {i : Nat} {s : Statement} {rest : List Statement}
  {v : Position × Statement}

theorem Lies.head (lies : s.Lies (above ++ [.index i]) v) : LiesAll above i (s :: rest) v := by
  obtain ⟨further, place, found⟩ := lies
  exact ⟨0, further, by simpa using place, found⟩

theorem LiesAll.tail (lies : LiesAll above (i + 1) rest v) : LiesAll above i (s :: rest) v := by
  obtain ⟨j, further, place, found⟩ := lies
  exact ⟨j + 1, further, by rw [place, Nat.add_right_comm, Nat.add_assoc], found⟩

theorem LiesAll.branch {cls : Spelling} {guard : Expr} {onTrue onFalse : List Statement}
    {comment : Comment} {taken : Bool}
    (lies : LiesAll (here ++ [.branch taken]) 0 (if taken then onTrue else onFalse) v) :
    (Statement.branch cls guard onTrue onFalse comment).Lies here v := by
  obtain ⟨j, further, place, found⟩ := lies
  exact ⟨.branch taken :: .index j :: further, by simpa using place, found⟩

/-- A visit below a branching statement is no visit to the statement. -/
theorem LiesAll.ne_here {block : List Statement} {taken : Bool}
    (lies : LiesAll (here ++ [.branch taken]) 0 block v) : v.1 ≠ here := by
  obtain ⟨j, further, place, -⟩ := lies
  simp [place]

/-- Visits at and behind a statement are apart. -/
theorem Lies.ne_of_later {w : Position × Statement} (lies : s.Lies (above ++ [.index i]) v)
    (later : LiesAll above (i + 1) rest w) : v.1 ≠ w.1 := by
  obtain ⟨further, place, -⟩ := lies
  obtain ⟨j, behind, place', -⟩ := later
  rw [place, place', List.append_assoc, ne_eq, List.append_cancel_left_eq, List.singleton_append,
    List.cons.injEq, Turn.index.injEq]
  omega

end Statement

/-! ### Courses leave the events of tours -/

namespace Execution

/-- The events that a thread leaves in its trace on the way to its end are those of a tour. -/
structure Leaves (policy : String) (lies : Position × Statement → Prop)
    (tour : (String → Option Bool) → Option Tour) (t : Thread) (e : Ended) (events : List Event)
    (visits : List (Position × Statement)) : Prop where
  trace : e.1.trace = t.trace ++ events
  records : List.Forall₂ (Event.Records policy) events visits
  located : ∀ v ∈ visits, lies v
  distinct : (visits.map Prod.fst).Nodup
  stops : Tour.Stops ⟨visits, e.2⟩
  toured : ∀ takes, (∀ x ∈ events, x.Told takes) → tour takes = some ⟨visits, e.2⟩
  kept : ∀ name, (∀ x ∈ events, x.assigned? ≠ some name) → e.1.record.get? name = t.record.get? name

section

variable {policy : String} {here above : Position} {i : Nat} {t u : Thread} {e : Ended}
  {events later : List Event} {visits behind : List (Position × Statement)} {s : Statement}
  {rest : List Statement}

/-- A branching statement leaves the branch it takes before the events of the branch. -/
theorem Leaves.branch {cls : Spelling} {guard : Expr} {onTrue onFalse : List Statement}
    {comment : Comment} {taken symbolic : Bool}
    (inside : Leaves policy
      (Statement.LiesAll (here ++ [.branch taken]) 0 (if taken then onTrue else onFalse))
      (fun takes => Statement.tourAll takes (here ++ [.branch taken]) 0
        (if taken then onTrue else onFalse)) u e events visits)
    (record : u.record = t.record)
    (trace : u.trace = t.trace ++ [.branch policy here taken symbolic]) :
    Leaves policy ((Statement.branch cls guard onTrue onFalse comment).Lies here)
      (fun takes => (Statement.branch cls guard onTrue onFalse comment).tour takes here) t e
      (.branch policy here taken symbolic :: events)
      ((here, .branch cls guard onTrue onFalse comment) :: visits) where
  trace := by rw [inside.trace, trace, List.append_assoc, List.singleton_append]
  records := .cons (.branch taken symbolic) inside.records
  located := List.forall_mem_cons.mpr
    ⟨⟨[], (List.append_nil here).symm, rfl⟩, fun v member => (inside.located v member).branch⟩
  distinct := by
    refine List.nodup_cons.mpr ⟨fun among => ?_, inside.distinct⟩
    obtain ⟨v, member, same⟩ := List.mem_map.mp among
    exact (inside.located v member).ne_here same
  stops := inside.stops.after (List.forall_mem_singleton.mpr rfl)
  toured takes told := by
    obtain ⟨own, told⟩ := List.forall_mem_cons.mp told
    have further := inside.toured takes told
    rw [Statement.tour, show takes here.text = some taken from own]
    cases taken
    · simp only [Bool.false_eq_true, if_false] at further
      simp [further]
    · simp only [if_true] at further
      simp [further]
  kept name untouched := by
    rw [inside.kept name (List.forall_mem_cons.mp untouched).2, record]

/-- The events of a statement that ends the policy are all the block leaves. -/
theorem Leaves.ended {disposition : Disposition}
    (first : Leaves policy (s.Lies (above ++ [.index i]))
      (fun takes => s.tour takes (above ++ [.index i])) t (u, some disposition) events visits) :
    Leaves policy (Statement.LiesAll above i (s :: rest))
      (fun takes => Statement.tourAll takes above i (s :: rest)) t (u, some disposition) events
      visits where
  trace := first.trace
  records := first.records
  located v member := (first.located v member).head
  distinct := first.distinct
  stops := first.stops
  toured takes told := by
    have own := first.toured takes told
    dsimp only at own ⊢
    simp [Statement.tourAll, own]
  kept := first.kept

/-- The events of a statement come before those of the statements behind it. -/
theorem Leaves.further
    (first : Leaves policy (s.Lies (above ++ [.index i]))
      (fun takes => s.tour takes (above ++ [.index i])) t (u, none) events visits)
    (others : Leaves policy (Statement.LiesAll above (i + 1) rest)
      (fun takes => Statement.tourAll takes above (i + 1) rest) u e later behind) :
    Leaves policy (Statement.LiesAll above i (s :: rest))
      (fun takes => Statement.tourAll takes above i (s :: rest)) t e (events ++ later)
      (visits ++ behind) where
  trace := by rw [others.trace, first.trace, List.append_assoc]
  records := List.rel_append first.records others.records
  located := List.forall_mem_append.mpr
    ⟨fun v member => (first.located v member).head, fun v member => (others.located v member).tail⟩
  distinct := by
    rw [List.map_append]
    refine first.distinct.append others.distinct ?_
    intro position inFirst inOthers
    obtain ⟨v, member, rfl⟩ := List.mem_map.mp inFirst
    obtain ⟨w, member', same⟩ := List.mem_map.mp inOthers
    exact (first.located v member).ne_of_later (others.located w member') same.symm
  stops := others.stops.after first.stops
  toured takes told := by
    obtain ⟨told, told'⟩ := List.forall_mem_append.mp told
    have own := first.toured takes told
    have further := others.toured takes told'
    dsimp only at own further ⊢
    simp [Statement.tourAll, own, further]
  kept name untouched := by
    obtain ⟨untouched, untouched'⟩ := List.forall_mem_append.mp untouched
    rw [others.kept name untouched', first.kept name untouched]

end

variable [Arithmetic] {frame : Frame}

mutual

/-- A course through a statement leaves the events of a tour. -/
theorem StatementCourse.leaves {here : Position} (s : Statement) {t : Thread} {ds : List Decision}
    {e : Ended} (course : StatementCourse frame here s t ds e) :
    ∃ events visits, Leaves frame.policy (s.Lies here) (fun takes => s.tour takes here) t e events
      visits := by
  cases s with
  | finish cls disposition =>
      cases course
      refine ⟨[.finish frame.policy here disposition], [(here, .finish cls disposition)], ?_⟩
      exact {
        trace := rfl
        records := .cons .finish .nil
        located := List.forall_mem_singleton.mpr ⟨[], (List.append_nil here).symm, rfl⟩
        distinct := List.nodup_singleton here
        stops := ⟨[], here, cls, rfl, List.forall_mem_nil _⟩
        toured := fun _ _ => rfl
        kept := fun _ _ => rfl }
  | assign cls target value =>
      cases course with
      | @assign _ _ _ _ x _ _ known stored =>
          refine ⟨[.assign frame.policy here target !x.isLiteral], [(here, .assign cls target value)],
            ?_⟩
          exact {
            trace := rfl
            records := .cons (.assign _) .nil
            located := List.forall_mem_singleton.mpr ⟨[], (List.append_nil here).symm, rfl⟩
            distinct := List.nodup_singleton here
            stops := List.forall_mem_singleton.mpr rfl
            toured := fun _ _ => rfl
            kept := fun name untouched => by
              have other : target.toAttribute ≠ name := by
                simpa [Event.assigned?] using untouched
              exact Record.get?_assign_other other.symm stored }
  | branch cls guard onTrue onFalse comment =>
      cases course with
      | @decided _ _ _ value _ _ _ _ taken later _ known chosen inside =>
          obtain ⟨events, visits, leaves⟩ : ∃ events visits, Leaves frame.policy
              (Statement.LiesAll (here ++ [.branch taken]) 0 (if taken then onTrue else onFalse))
              (fun takes => Statement.tourAll takes (here ++ [.branch taken]) 0
                (if taken then onTrue else onFalse))
              (t.log (.branch frame.policy here taken value.bool?.isNone)) e events visits := by
            cases taken with
            | true => exact BlockCourse.leaves onTrue inside
            | false => exact BlockCourse.leaves onFalse inside
          exact ⟨_, _, leaves.branch rfl rfl⟩
      | @split _ _ _ value _ _ _ _ taken later _ known undecided inside =>
          obtain ⟨events, visits, leaves⟩ : ∃ events visits, Leaves frame.policy
              (Statement.LiesAll (here ++ [.branch taken]) 0 (if taken then onTrue else onFalse))
              (fun takes => Statement.tourAll takes (here ++ [.branch taken]) 0
                (if taken then onTrue else onFalse))
              ((t.assuming (if taken then value else value.negate)).log
                (.branch frame.policy here taken true)) e events visits := by
            cases taken with
            | true => exact BlockCourse.leaves onTrue inside
            | false => exact BlockCourse.leaves onFalse inside
          exact ⟨_, _, leaves.branch rfl rfl⟩

/-- A course through a block leaves the events of a tour. -/
theorem BlockCourse.leaves {above : Position} {i : Nat} (block : List Statement) {t : Thread}
    {ds : List Decision} {e : Ended} (course : BlockCourse frame above i block t ds e) :
    ∃ events visits, Leaves frame.policy (Statement.LiesAll above i block)
      (fun takes => Statement.tourAll takes above i block) t e events visits := by
  cases block with
  | nil =>
      cases course
      refine ⟨[], [], ?_⟩
      exact {
        trace := (List.append_nil _).symm
        records := .nil
        located := List.forall_mem_nil _
        distinct := List.nodup_nil
        stops := List.forall_mem_nil _
        toured := fun _ _ => rfl
        kept := fun _ _ => rfl }
  | cons s rest =>
      cases course with
      | ended first =>
          obtain ⟨events, visits, leaves⟩ := StatementCourse.leaves s first
          exact ⟨events, visits, leaves.ended⟩
      | further first others =>
          obtain ⟨events, visits, leaves⟩ := StatementCourse.leaves s first
          obtain ⟨later, behind, leaves'⟩ := BlockCourse.leaves rest others
          exact ⟨_, _, leaves.further leaves'⟩

end

/-! ### Paths part -/

/-- Traces that part at a branching statement: the first one takes the true branch there, the second
one the false branch. -/
def Part (a b : List Event) : Prop :=
  ∃ common policy here yes no first second,
    a = common ++ .branch policy here true yes :: first ∧
      b = common ++ .branch policy here false no :: second

omit [Arithmetic] in
theorem Part.append {a b : List Event} (part : Part a b) (first second : List Event) :
    Part (a ++ first) (b ++ second) := by
  obtain ⟨common, policy, here, yes, no, later, other, rfl, rfl⟩ := part
  exact ⟨common, policy, here, yes, no, later ++ first, other ++ second, by simp, by simp⟩

omit [Arithmetic] in
/-- Traces that part are rendered differently. -/
theorem Part.toJson_ne {a b : List Event} (part : Part a b) :
    a.map Event.toJson ≠ b.map Event.toJson := by
  obtain ⟨common, policy, here, yes, no, first, second, rfl, rfl⟩ := part
  simp [Event.toJson]

/-- Threads that part, each of which goes on from the events that were there. -/
structure Parted (before : List Event) (ended : List Ended) : Prop where
  grown : ∀ x ∈ ended, before <+: x.1.trace
  part : ended.Pairwise fun x y => Part x.1.trace y.1.trace

omit [Arithmetic] in
theorem Parted.of_extended {before : List Event} {event : Event} {ended : List Ended}
    (parted : Parted (before ++ [event]) ended) : Parted before ended :=
  ⟨fun x member => (List.prefix_append before [event]).trans (parted.grown x member), parted.part⟩

omit [Arithmetic] in
/-- The threads of both branches part at the branching statement. -/
theorem Parted.append {before : List Event} {policy : String} {here : Position} {yes no : Bool}
    {first second : List Ended} (onTrue : Parted (before ++ [.branch policy here true yes]) first)
    (onFalse : Parted (before ++ [.branch policy here false no]) second) :
    Parted before (first ++ second) where
  grown := List.forall_mem_append.mpr ⟨onTrue.of_extended.grown, onFalse.of_extended.grown⟩
  part := by
    refine List.pairwise_append.mpr ⟨onTrue.part, onFalse.part, fun x inside y among => ?_⟩
    obtain ⟨later, same⟩ := onTrue.grown x inside
    obtain ⟨other, same'⟩ := onFalse.grown y among
    refine ⟨before, policy, here, yes, no, later, other, ?_, ?_⟩
    · rw [← same, List.append_assoc, List.singleton_append]
    · rw [← same', List.append_assoc, List.singleton_append]

omit [Arithmetic] in
/-- Threads that part go on apart when the rest of a block is run. -/
theorem Parted.resume {run : Thread → Nat → Threads}
    (runs : ∀ u n ended m, run u n = .ok (ended, m) → Parted u.trace ended) {before : List Event}
    {first later : List Ended} {n m : Nat} (parted : Parted before first)
    (resumed : Execution.resume run first n = .ok (later, m)) : Parted before later := by
  have goes : ∀ {first later : List Ended} {n m : Nat},
      Execution.resume run first n = .ok (later, m) →
      ∀ x ∈ later, ∃ y ∈ first, y.1.trace <+: x.1.trace := by
    intro first later n m resumed x member
    rcases mem_resume resumed member with ⟨here, -⟩ | ⟨t, n, ended, m, here, ran, found⟩
    · exact ⟨x, here, List.prefix_refl _⟩
    · exact ⟨_, here, (runs t n ended m ran).grown x found⟩
  constructor
  case grown =>
    intro x member
    obtain ⟨y, here, further⟩ := goes resumed x member
    exact (parted.grown y here).trans further
  case part =>
    replace parted := parted.part
    induction first generalizing n later with
    | nil =>
        cases resumed
        exact .nil
    | cons head others ih =>
        obtain ⟨apart, rest'⟩ := List.pairwise_cons.mp parted
        -- whatever goes on from the head is apart from whatever goes on from the others
        have further : ∀ {x : Ended} {rest : List Ended} {n m : Nat}, head.1.trace <+: x.1.trace →
            Execution.resume run others n = .ok (rest, m) →
            ∀ y ∈ rest, Part x.1.trace y.1.trace := by
          intro x rest n m extended resumed y member
          obtain ⟨z, here, extended'⟩ := goes resumed y member
          obtain ⟨a, same⟩ := extended
          obtain ⟨b, same'⟩ := extended'
          rw [← same, ← same']
          exact (apart z here).append a b
        obtain ⟨t, disposition⟩ := head
        cases disposition with
        | some disposition =>
            obtain ⟨⟨rest, _⟩, resumed, same⟩ := Outcome.bind_ok.mp resumed
            cases same
            exact .cons (further (List.prefix_refl _) resumed) (ih resumed rest')
        | none =>
            obtain ⟨⟨ended, _⟩, ran, resumed⟩ := Outcome.bind_ok.mp resumed
            obtain ⟨⟨rest, _⟩, resumed, same⟩ := Outcome.bind_ok.mp resumed
            cases same
            have own := runs t n ended _ ran
            refine List.pairwise_append.mpr ⟨own.part, ih resumed rest', fun x member => ?_⟩
            exact further (own.grown x member) resumed

mutual

theorem runStatement_parted {here : Position} (s : Statement) {t : Thread} {n m : Nat}
    {ended : List Ended} (ran : runStatement frame here s t n = .ok (ended, m)) :
    Parted t.trace ended := by
  cases s with
  | finish cls disposition =>
      cases ran
      exact ⟨List.forall_mem_singleton.mpr (List.prefix_append _ _), List.pairwise_singleton _ _⟩
  | assign cls target value =>
      obtain ⟨⟨x, r⟩, found, same⟩ := Outcome.bind_ok.mp ran
      cases same
      exact ⟨List.forall_mem_singleton.mpr (List.prefix_append _ _), List.pairwise_singleton _ _⟩
  | branch cls guard onTrue onFalse comment =>
      obtain ⟨value, -, ⟨taken, symbolic, -, ran⟩ | ⟨first, second, between, rfl, ranTrue, ranFalse⟩⟩ :=
        branch_ok ran
      · have inner : Parted (t.trace ++ [.branch frame.policy here taken symbolic]) ended := by
          cases taken with
          | true => exact runBlock_parted onTrue ran
          | false => exact runBlock_parted onFalse ran
        exact inner.of_extended
      · exact .append (runBlock_parted onTrue ranTrue) (runBlock_parted onFalse ranFalse)

/-- Threads of a block part where the execution was split. -/
theorem runBlock_parted {above : Position} {i : Nat} (block : List Statement) {t : Thread}
    {n m : Nat} {ended : List Ended} (ran : runBlock frame above i block t n = .ok (ended, m)) :
    Parted t.trace ended := by
  cases block with
  | nil =>
      cases ran
      exact ⟨List.forall_mem_singleton.mpr (List.prefix_refl _), List.pairwise_singleton _ _⟩
  | cons s rest =>
      obtain ⟨⟨first, _⟩, ran, resumed⟩ := Outcome.bind_ok.mp ran
      exact (runStatement_parted s ran).resume (fun _ _ _ _ ran => runBlock_parted rest ran) resumed

end

end Execution

/-! ### Paths -/

theorem Execution.trace_prefix_toPath (policy : String) (x : Ended) :
    x.1.trace <+: (toPath policy x).trace := by
  obtain ⟨t, disposition⟩ := x
  cases disposition with
  | some disposition => exact List.prefix_refl _
  | none => exact List.prefix_append _ _

/-- The trace of a path records the tour through the policy that takes the branches the trace records,
and the disposition it ends with; a tour through all statements is followed by the default. Attributes
that the trace records no assignment to are those of the record at the start. -/
structure Path.Faithful (p : Policy) (r : Record) (path : Path) : Prop where
  toured : ∃ tour events, p.tour (recorded path.trace) = some tour ∧ tour.Stops ∧
    (∀ v ∈ tour.visits, p.statementAt? v.1 = some v.2) ∧
    List.Forall₂ (Event.Records p.name) events tour.visits ∧
    match tour.ending with
    | some disposition => path.trace = events ∧ path.disposition = disposition
    | none => path.trace = events ++ [.fallOff p.name] ∧ path.disposition = .reject
  kept : ∀ name, (∀ x ∈ path.trace, x.assigned? ≠ some name) →
    path.record.get? name = r.get? name

theorem Policy.Course.faithful [Arithmetic] {given : Assumed} {p : Policy} {r : Record}
    {ds : List Decision} {path : Path} (course : p.Course given r ds path) : path.Faithful p r := by
  obtain ⟨⟨t, ending⟩, course, rfl⟩ := course
  obtain ⟨events, visits, leaves⟩ := Execution.BlockCourse.leaves p.statements course
  have trace : t.trace = events := leaves.trace
  have located : ∀ v ∈ visits, p.statementAt? v.1 = some v.2 := by
    intro v member
    obtain ⟨j, rest, place, found⟩ := leaves.located v member
    rw [place, List.nil_append, Nat.zero_add]
    exact found
  have told := told_recorded leaves.records leaves.distinct
  cases ending with
  | some disposition =>
      have same : (Execution.toPath p.name (t, some disposition)).trace = events := trace
      refine ⟨⟨⟨visits, some disposition⟩, events, leaves.toured _ ?_, leaves.stops, located,
        leaves.records, same, rfl⟩, ?_⟩
      · rw [same]
        simpa using told []
      · rw [same]
        exact leaves.kept
  | none =>
      have same : (Execution.toPath p.name (t, none)).trace = events ++ [.fallOff p.name] :=
        congrArg (fun events : List Event => events ++ [.fallOff p.name]) trace
      refine ⟨⟨⟨visits, none⟩, events, leaves.toured _ ?_, leaves.stops, located, leaves.records,
        same, rfl⟩, ?_⟩
      · rw [same]
        exact told _
      · rw [same]
        exact fun name untouched => leaves.kept name (List.forall_mem_append.mp untouched).1

/-- Every trace is faithful to its path, and no two paths of an evaluation have traces that are
rendered alike. -/
theorem traces_are_faithful [Arithmetic] {given : Assumed} {p : Policy} {r : Record}
    {paths : List Path} (ran : evaluatePolicy given p r = .ok paths) :
    (∀ path ∈ paths, path.Faithful p r) ∧
      paths.Pairwise fun a b => a.trace.map Event.toJson ≠ b.trace.map Event.toJson := by
  constructor
  · intro path member
    obtain ⟨ds, course⟩ := (mem_evaluatePolicy ran path).mp member
    exact course.faithful
  · obtain ⟨⟨ended, _⟩, ranBlock, same⟩ := Outcome.bind_ok.mp ran
    cases same
    have parted := (Execution.runBlock_parted p.statements ranBlock).part
    refine List.pairwise_map.mpr (parted.imp fun {x y} part => ?_)
    obtain ⟨a, extended⟩ := Execution.trace_prefix_toPath p.name x
    obtain ⟨b, extended'⟩ := Execution.trace_prefix_toPath p.name y
    rw [← extended, ← extended']
    exact (part.append a b).toJson_ne

namespace Nested

/-! A policy with a branching statement inside another one, over a route of which little is known. -/

def tagged (community : String) : Expr := .hasCommunity none (.ref .communities) community

def policy : Policy :=
  ⟨"P", [
    .branch none (tagged "65000:1") [
      .branch none (tagged "65000:2") [.finish none .accept] [] .absent,
      .assign none .metric (.int 1)] [] .absent,
    .assign none .weight (.int 2)]⟩

def given : Assumed := ⟨[], 1024, []⟩

def record (metric weight : Expr) : Record :=
  ⟨[(.communities, .ref .communities), (.metric, metric), (.weight, weight)]⟩

def start : Record := record (.ref .metric) (.ref .weight)

def accepted : Path :=
  ⟨.accept, [tagged "65000:1", tagged "65000:2"], start,
    [.branch "P" [.index 0] true true,
      .branch "P" [.index 0, .branch true, .index 0] true true,
      .finish "P" [.index 0, .branch true, .index 0, .branch true, .index 0] .accept]⟩

def metered : Path :=
  ⟨.reject, [tagged "65000:1", (tagged "65000:2").negate], record (.int 1) (.int 2),
    [.branch "P" [.index 0] true true,
      .branch "P" [.index 0, .branch true, .index 0] false true,
      .assign "P" [.index 0, .branch true, .index 1] .metric false,
      .assign "P" [.index 1] .weight false, .fallOff "P"]⟩

def passedBy : Path :=
  ⟨.reject, [(tagged "65000:1").negate], record (.ref .metric) (.int 2),
    [.branch "P" [.index 0] false true, .assign "P" [.index 1] .weight false, .fallOff "P"]⟩

theorem evaluated :
    @evaluatePolicy .binary64 given policy start = .ok [accepted, metered, passedBy] := by
  with_unfolding_all rfl

end Nested

open Nested in
theorem nested_traces_are_faithful :
    @evaluatePolicy .binary64 given policy start = .ok [accepted, metered, passedBy] ∧
      (∀ path ∈ [accepted, metered, passedBy], path.Faithful policy start) ∧
      [accepted, metered, passedBy].Pairwise fun a b =>
        a.trace.map Event.toJson ≠ b.trace.map Event.toJson :=
  ⟨evaluated, @traces_are_faithful .binary64 _ _ _ _ evaluated⟩

end RoutePolicy
