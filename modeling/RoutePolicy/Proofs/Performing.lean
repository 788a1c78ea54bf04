import RoutePolicy.Proofs.Execution

/-!
Policies over concrete records, statement by statement: what they make of a record, and how they
end. Symbolic execution has a path for what is performed, and over a concrete record no other one.
-/

set_option autoImplicit false

namespace RoutePolicy

variable [Arithmetic]

namespace Statement

mutual

/-- What a statement makes of a record, and how the policy ends if it ends there. A guard has to be
decided by the record. -/
def perform (calls : Calls) (r : Record) : Statement → Outcome (Record × Option Disposition)
  | finish _ disposition => .ok (r, some disposition)
  | assign _ target value => do
    let value ← value.evaluate calls r
    let r ← r.assign target.toAttribute value
    .ok (r, none)
  | branch _ guard onTrue onFalse _ => do
    let value ← guard.evaluate calls r
    match value.bool? with
    | some true => performAll calls r onTrue
    | some false => performAll calls r onFalse
    | none => .error (.evaluation (.symbolic value.kind))

/-- What a block makes of a record: its statements are performed until one of them ends the
policy. -/
def performAll (calls : Calls) (r : Record) :
    List Statement → Outcome (Record × Option Disposition)
  | [] => .ok (r, none)
  | s :: rest => do
    let (next, ended) ← s.perform calls r
    match ended with
    | some disposition => .ok (next, some disposition)
    | none => performAll calls next rest

end

variable {calls : Calls} {r : Record} {x : Record × Option Disposition}

theorem perform_assign {cls : Spelling} {target : Settable} {value : Expr} :
    (assign cls target value).perform calls r = .ok x ↔ ∃ y s,
      value.evaluate calls r = .ok y ∧ r.assign target.toAttribute y = .ok s ∧ x = (s, none) := by
  simp only [perform, Outcome.bind_ok, Except.ok.injEq]
  constructor
  · rintro ⟨y, evaluated, s, assigned, rfl⟩
    exact ⟨y, s, evaluated, assigned, rfl⟩
  · rintro ⟨y, s, evaluated, assigned, rfl⟩
    exact ⟨y, evaluated, s, assigned, rfl⟩

theorem perform_branch {cls : Spelling} {guard : Expr} {onTrue onFalse : List Statement}
    {comment : Comment} :
    (branch cls guard onTrue onFalse comment).perform calls r = .ok x ↔ ∃ y taken,
      guard.evaluate calls r = .ok y ∧ y.bool? = some taken ∧
      performAll calls r (if taken then onTrue else onFalse) = .ok x := by
  simp only [perform, Outcome.bind_ok]
  refine exists_congr fun y => ?_
  cases constant : y.bool? with
  | none => simp
  | some taken => cases taken <;> simp

theorem performAll_cons {s : Statement} {rest : List Statement} :
    performAll calls r (s :: rest) = .ok x ↔ ∃ y, s.perform calls r = .ok y ∧
      ((∃ disposition, y.2 = some disposition ∧ x = y) ∨
        (y.2 = none ∧ performAll calls y.1 rest = .ok x)) := by
  simp only [performAll, Outcome.bind_ok]
  refine exists_congr fun y => and_congr_right fun _ => ?_
  obtain ⟨next, ended⟩ := y
  cases ended with
  | none => simp
  | some disposition => simp [eq_comm]

end Statement

/-- What a policy makes of a record, and how it ends. A policy whose statements do not end it
rejects. -/
def Policy.perform (calls : Calls) (p : Policy) (r : Record) : Outcome (Disposition × Record) := do
  let (last, ended) ← Statement.performAll calls r p.statements
  .ok (ended.getD .reject, last)

theorem Policy.perform_ok {calls : Calls} {p : Policy} {r s : Record} {d : Disposition} :
    p.perform calls r = .ok (d, s) ↔ ∃ ended,
      Statement.performAll calls r p.statements = .ok (s, ended) ∧ d = ended.getD .reject := by
  simp only [perform, Outcome.bind_ok, Except.ok.injEq, Prod.mk.injEq]
  constructor
  · rintro ⟨⟨last, ended⟩, done, rfl, rfl⟩
    exact ⟨ended, done, rfl⟩
  · rintro ⟨ended, done, rfl⟩
    exact ⟨(s, ended), done, rfl, rfl⟩

/-- What calls are answered over concrete records while the policies on the stack are performed:
whether the called policy accepts. -/
def Execution.performedCalls (table : Table Policy) (stack : List String) : Calls := fun name r =>
  if _fresh : name ∈ stack then .error (.evaluation (.recursiveCall name))
  else
    match _found : table.get? name with
    | none => .error (.evaluation (.undefinedCall name))
    | some p => do
      let (d, _) ← p.perform (performedCalls table (stack ++ [name])) r
      .ok (.bool (d = .accept))
termination_by (idle table stack).length
decreasing_by exact idle_lt _fresh _found

/-- Performs policies one after another: a policy that passes hands its record to the next one, and
passing the last one rejects. -/
def Chain.perform (calls : Policy → Calls) : List Policy → Record → Outcome (Disposition × Record)
  | [], r => .ok (.reject, r)
  | p :: rest, r => do
    let (d, s) ← p.perform (calls p) r
    if d = .pass then perform calls rest s else .ok (d, s)

/-- What a chain of policies makes of a concrete record. An empty chain accepts it as it is. -/
def performChain (table : Table Policy) (policies : List Policy) (r : Record) :
    Outcome (Disposition × Record) :=
  match policies with
  | [] => .ok (.accept, r)
  | p :: rest => Chain.perform (fun p => Execution.performedCalls table [p.name]) (p :: rest) r

theorem Chain.perform_cons {calls : Policy → Calls} {p : Policy} {rest : List Policy}
    {r s : Record} {d : Disposition} :
    perform calls (p :: rest) r = .ok (d, s) ↔ ∃ e u, p.perform (calls p) r = .ok (e, u) ∧
      ((e = .pass ∧ perform calls rest u = .ok (d, s)) ∨ (e ≠ .pass ∧ d = e ∧ s = u)) := by
  simp only [perform, Outcome.bind_ok, Prod.exists]
  refine exists_congr fun e => exists_congr fun u => and_congr_right fun _ => ?_
  by_cases passes : e = .pass
  · simp [passes]
  · simp [passes, eq_comm]

namespace Execution

variable {route : Route}

/-! ### One path -/

/-- A thread that went on to a record, and how it ended. -/
structure Reaches (t : Thread) (s : Record) (ended : Option Disposition) (y : Ended) : Prop where
  record : y.1.record = s
  condition : y.1.condition = t.condition
  ending : y.2 = ended

mutual

/-- A statement that can be performed is run along one path. -/
theorem runStatement_of_perform (frame : Frame) (here : Position) (statement : Statement)
    {t : Thread} {s : Record} {ended : Option Disposition}
    (performed : statement.perform frame.calls t.record = .ok (s, ended)) (n : Nat) :
    ∃ y, runStatement frame here statement t n = .ok ([y], n) ∧ Reaches t s ended y := by
  cases statement with
  | finish cls disposition =>
      cases performed
      exact ⟨_, rfl, rfl, rfl, rfl⟩
  | assign cls target value =>
      obtain ⟨y, last, evaluated, assigned, same⟩ := Statement.perform_assign.mp performed
      cases same
      refine ⟨(Thread.log ⟨s, t.condition, t.trace⟩
        (.assign frame.policy here target !y.isLiteral), none), ?_, rfl, rfl, rfl⟩
      rw [runStatement]
      simp only [evaluated, assigned, bind, Except.bind, Outcome.inContext, Except.mapError]
  | branch cls guard onTrue onFalse comment =>
      obtain ⟨y, taken, evaluated, constant, done⟩ := Statement.perform_branch.mp performed
      rw [branch_taken (guardValue_of_bool? evaluated constant) constant]
      cases taken with
      | true =>
          obtain ⟨z, ran, record, condition, ending⟩ :=
            runBlock_of_perform frame _ 0 onTrue (t := t.log _) done n
          exact ⟨z, ran, record, condition, ending⟩
      | false =>
          obtain ⟨z, ran, record, condition, ending⟩ :=
            runBlock_of_perform frame _ 0 onFalse (t := t.log _) done n
          exact ⟨z, ran, record, condition, ending⟩

/-- A block that can be performed is run along one path. -/
theorem runBlock_of_perform (frame : Frame) (above : Position) (i : Nat) (block : List Statement)
    {t : Thread} {s : Record} {ended : Option Disposition}
    (performed : Statement.performAll frame.calls t.record block = .ok (s, ended)) (n : Nat) :
    ∃ y, runBlock frame above i block t n = .ok ([y], n) ∧ Reaches t s ended y := by
  cases block with
  | nil =>
      cases performed
      exact ⟨_, rfl, rfl, rfl, rfl⟩
  | cons first rest =>
      obtain ⟨⟨next, stopped⟩, done, later⟩ := Statement.performAll_cons.mp performed
      obtain ⟨y, ran, reaches⟩ := runStatement_of_perform frame _ first done n
      rcases later with ⟨disposition, stops, same⟩ | ⟨continues, later⟩
      · cases same
        dsimp only at stops
        refine ⟨y, ?_, reaches⟩
        rw [runBlock, ran]
        refine resume_single (fun unended => ?_) fun _ => rfl
        rw [reaches.ending, stops] at unended
        cases unended
      · dsimp only at continues
        rw [← reaches.record] at later
        obtain ⟨z, reran, ends⟩ := runBlock_of_perform frame above (i + 1) rest later n
        refine ⟨z, ?_, ends.record, ends.condition.trans reaches.condition, ends.ending⟩
        rw [runBlock, ran]
        refine resume_single (fun _ => reran) fun closed => ?_
        rw [reaches.ending, continues] at closed
        cases closed

end

/-! ### The path that is performed -/

mutual

/-- Over a concrete record a statement is performed along the path that holds of the route. -/
theorem runStatement_performs (exact : ∀ i : Int, Arithmetic.round i = i) {frame : Frame}
    {concrete : Calls} (answers : frame.calls.AnswerResiduals)
    (agree : Calls.Agree route frame.calls concrete) (here : Position) (statement : Statement)
    (usable : statement.Every Expr.Usable) {t : Thread} (sound : t.Sound) {paths after : Nat}
    {ended : List Ended} (run : runStatement frame here statement t paths = .ok (ended, after))
    {x : Ended} (member : x ∈ ended) (holds : x.1.holdsAt route = true) {c : Record}
    (comes : t.record.ComesTo route c) :
    ∃ d, statement.perform concrete c = .ok (d, x.2) ∧ x.1.record.ComesTo route d := by
  cases statement with
  | finish cls disposition =>
      cases run
      cases List.mem_singleton.mp member
      exact ⟨c, rfl, comes⟩
  | assign cls target value =>
      rw [runStatement] at run
      obtain ⟨⟨result, record⟩, stepped, same⟩ := Outcome.bind_ok.mp run
      obtain ⟨_, evaluated, stepped⟩ := Outcome.bind_ok.mp (Outcome.inContext_ok.mp stepped)
      obtain ⟨_, assigned, stepped⟩ := Outcome.bind_ok.mp stepped
      cases stepped
      cases same
      cases List.mem_singleton.mp member
      obtain ⟨y, computed, denotes⟩ :=
        Expr.evaluate_agrees exact answers agree sound.record comes usable.foldable evaluated
      obtain ⟨d, assigned, comes⟩ := comes.assign assigned denotes
      exact ⟨d, Statement.perform_assign.mpr ⟨y, d, computed, assigned, rfl⟩, comes⟩
  | branch cls guard onTrue onFalse comment =>
      obtain ⟨value, taken, u, before, others, last, evaluated, said, reached, same, run, inside⟩ :=
        branch_reaches answers usable sound run member holds
      have residual := usable_residual answers sound.record usable.1 (guardValue_ok evaluated)
      obtain ⟨y, computed, denotes⟩ := Expr.evaluate_agrees exact answers agree sound.record comes
        usable.1.foldable (guardValue_ok evaluated)
      rw [Expr.valueAt_bool residual, said] at denotes
      have performed : ∃ d, Statement.performAll concrete c (if taken then onTrue else onFalse) =
          .ok (d, x.2) ∧ x.1.record.ComesTo route d := by
        cases taken with
        | true =>
            exact runBlock_performs exact answers agree _ 0 onTrue usable.2.1 reached run inside
              holds (same ▸ comes)
        | false =>
            exact runBlock_performs exact answers agree _ 0 onFalse usable.2.2 reached run inside
              holds (same ▸ comes)
      obtain ⟨d, done, comes⟩ := performed
      exact ⟨d, Statement.perform_branch.mpr ⟨y, taken, computed, denotes.bool?, done⟩, comes⟩

/-- Over a concrete record a block is performed along the path that holds of the route. -/
theorem runBlock_performs (exact : ∀ i : Int, Arithmetic.round i = i) {frame : Frame}
    {concrete : Calls} (answers : frame.calls.AnswerResiduals)
    (agree : Calls.Agree route frame.calls concrete) (above : Position) (i : Nat)
    (block : List Statement) (usable : Statement.EveryAll Expr.Usable block) {t : Thread}
    (sound : t.Sound) {paths after : Nat} {ended : List Ended}
    (run : runBlock frame above i block t paths = .ok (ended, after)) {x : Ended}
    (member : x ∈ ended) (holds : x.1.holdsAt route = true) {c : Record}
    (comes : t.record.ComesTo route c) :
    ∃ d, Statement.performAll concrete c block = .ok (d, x.2) ∧ x.1.record.ComesTo route d := by
  cases block with
  | nil =>
      cases run
      cases List.mem_singleton.mp member
      exact ⟨c, rfl, comes⟩
  | cons s rest =>
      rw [runBlock] at run
      obtain ⟨⟨first, between⟩, ran, resumed⟩ := Outcome.bind_ok.mp run
      have splits := runStatement_splits frame answers _ s usable.1 sound ran
      rcases mem_resume resumed member with
        ⟨here, closed⟩ | ⟨u, before, ended, later, here, rerun, found⟩
      · obtain ⟨d, done, comes⟩ :=
          runStatement_performs exact answers agree _ s usable.1 sound ran here holds comes
        obtain ⟨disposition, stops⟩ := Option.isSome_iff_exists.mp closed
        exact ⟨d, Statement.performAll_cons.mpr ⟨_, done, .inl ⟨disposition, stops, rfl⟩⟩, comes⟩
      · -- the rest of the block holds of the route only if the thread it started from does
        have restSplits := runBlock_splits frame answers above (i + 1) rest usable.2
          (splits.sound _ here) rerun
        obtain ⟨next, done, comes⟩ := runStatement_performs exact answers agree _ s usable.1 sound
          ran here (restSplits.holds found holds) comes
        obtain ⟨d, further, comes⟩ := runBlock_performs exact answers agree above (i + 1) rest
          usable.2 (splits.sound _ here) rerun found holds comes
        exact ⟨d, Statement.performAll_cons.mpr ⟨_, done, .inr ⟨rfl, further⟩⟩, comes⟩

end

end Execution

end RoutePolicy
