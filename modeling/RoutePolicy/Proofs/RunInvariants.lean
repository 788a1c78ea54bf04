import RoutePolicy.Proofs.Policies
import RoutePolicy.Proofs.Tables

/-!
What runs keep. Whatever kind of values evaluation gives over slots of that kind, symbolic execution
keeps it for the slots and conditions of all paths, and it complains about types only where
evaluation does.
-/

set_option autoImplicit false

namespace RoutePolicy

/-- A complaint of an evaluation about a type. -/
def Failure.isTypeError (f : Failure) : Bool :=
  match f.cause with
  | .evaluation (.typeMismatch _ _ _) => true
  | .evaluation (.guardLiteral _) => true
  | _ => false

namespace Outcome

variable {α β : Type} {typed : Prop} {P R : α → Prop} {Q : β → Prop}

/-- A result with a property, or a failure, which is not about types if this is ruled out. -/
def Gives (typed : Prop) (P : α → Prop) : Outcome α → Prop
  | .ok a => P a
  | .error f => typed → f.isTypeError = false

theorem Gives.bind {first : Outcome α} {next : α → Outcome β} (gives : first.Gives typed P)
    (further : ∀ a, P a → (next a).Gives typed Q) : (first >>= next).Gives typed Q := by
  cases first with
  | ok a => exact further a gives
  | error f => exact gives

theorem Gives.mono {r : Outcome α} (gives : r.Gives typed P) (weaker : ∀ a, P a → R a) :
    r.Gives typed R := by
  cases r with
  | ok a => exact weaker a gives
  | error f => exact gives

theorem Gives.inContext {r : Outcome α} (gives : r.Gives typed P) (context : Context) :
    (r.inContext context).Gives typed P := by
  cases r with
  | ok a => exact gives
  | error f => exact gives

end Outcome

/-! ### Kinds -/

/-- The slots of a record are of a kind that depends on the type of their attribute. -/
def Record.Holds (V : ValueType → Expr → Prop) (r : Record) : Prop :=
  ∀ slot ∈ r.slots, V slot.1.type slot.2

/-- Calls over such records are answered by conditions of a kind. -/
def Calls.Give (typed : Prop) (V : ValueType → Expr → Prop) (A : Expr → Prop) (calls : Calls) :
    Prop :=
  ∀ policy r, r.Holds V → (calls policy r).Gives typed A

/-- The slots of a thread are of a kind, and its conditions are of another one. -/
structure Thread.Holds (V : ValueType → Expr → Prop) (C : Expr → Prop) (t : Thread) : Prop where
  record : t.record.Holds V
  condition : ∀ c ∈ t.condition, C c

/-- The same of a path. -/
structure Path.Holds (V : ValueType → Expr → Prop) (C : Expr → Prop) (path : Path) : Prop where
  record : path.record.Holds V
  condition : ∀ c ∈ path.condition, C c

/-- Kinds that evaluation keeps: of the expressions of policies, of values, and of the values that
become conditions. -/
structure Kinds [Arithmetic] (typed : Prop) (E V : ValueType → Expr → Prop) (A : Expr → Prop) :
    Prop where
  value : ∀ {calls : Calls} {r : Record} {expected : ValueType} {e : Expr},
    calls.Give typed V A → r.Holds V → E expected e → (e.evaluate calls r).Gives typed (V expected)
  constant : ∀ x, V .boolean x → x.isLiteral = true → typed → x.bool?.isSome = true
  condition : ∀ x, V .boolean x → x.isLiteral = false → A x ∧ A x.negate
  answer : ∀ paths d, (∀ path ∈ paths, ∀ c ∈ path.condition, A c) → A (residual paths d)

section

variable {typed : Prop} {V : ValueType → Expr → Prop} {C : Expr → Prop} {r : Record} {t : Thread}

theorem Record.Holds.lookup (holds : r.Holds V) (name : Attribute) :
    (r.lookup name).Gives typed (V name.type) := by
  unfold Record.lookup
  split
  · rename_i slot found
    exact holds _ (Record.mem_of_get? found)
  · exact fun _ => rfl

theorem Record.Holds.assign (holds : r.Holds V) {name : Attribute} {value : Expr}
    (own : V name.type value) : (r.assign name value).Gives typed (Record.Holds V) := by
  unfold Record.assign
  split
  · refine List.forall_mem_map.mpr fun slot member => ?_
    split
    · exact own
    · exact holds slot member
  · exact fun _ => rfl

theorem Thread.Holds.log (holds : t.Holds V C) (event : Event) : (t.log event).Holds V C :=
  ⟨holds.record, holds.condition⟩

theorem Thread.Holds.assuming (holds : t.Holds V C) {c : Expr} (own : C c) :
    (t.assuming c).Holds V C :=
  ⟨holds.record, List.forall_mem_append.mpr ⟨holds.condition, List.forall_mem_singleton.mpr own⟩⟩

end

/-- The values of operands are of the kinds of the values of each operand. -/
theorem Expr.evaluateAll_gives [Arithmetic] {typed : Prop} {calls : Calls} {r : Record}
    {R : Expr → Expr → Prop} {es : List Expr}
    (each : ∀ e ∈ es, (e.evaluate calls r).Gives typed (R e)) :
    (evaluateAll calls r es).Gives typed (List.Forall₂ R es) := by
  induction es with
  | nil => exact .nil
  | cons e rest ih =>
      obtain ⟨here, later⟩ := List.forall_mem_cons.mp each
      apply here.bind
      intro x value
      apply (ih later).bind
      intro xs values
      exact .cons value values

namespace Execution

variable {typed : Prop} {E V : ValueType → Expr → Prop} {A C : Expr → Prop}

/-- Ended threads over slots and under conditions of certain kinds. -/
def AllHold (V : ValueType → Expr → Prop) (C : Expr → Prop) (result : List Ended × Nat) : Prop :=
  ∀ x ∈ result.1, x.1.Holds V C

theorem resume_gives {run : Thread → Nat → Threads}
    (rest : ∀ t paths, t.Holds V C → (run t paths).Gives typed (AllHold V C)) {ended : List Ended}
    (holds : ∀ x ∈ ended, x.1.Holds V C) (paths : Nat) :
    (resume run ended paths).Gives typed (AllHold V C) := by
  induction ended generalizing paths with
  | nil => exact List.forall_mem_nil _
  | cons head others ih =>
      obtain ⟨here, later⟩ := List.forall_mem_cons.mp holds
      obtain ⟨t, disposition⟩ := head
      cases disposition with
      | some disposition =>
          apply (ih later paths).bind
          intro result further
          exact List.forall_mem_cons.mpr ⟨here, further⟩
      | none =>
          apply (rest t paths here).bind
          rintro ⟨first, between⟩ firstHold
          apply (ih later between).bind
          intro result further
          exact List.forall_mem_append.mpr ⟨firstHold, further⟩

theorem toPath_holds {x : Ended} (holds : x.1.Holds V C) (policy : String) :
    (toPath policy x).Holds V C := by
  constructor
  · rw [toPath_record]
    exact holds.record
  · rw [toPath_condition]
    exact holds.condition

variable [Arithmetic] {frame : Frame}

/-- A guard gives a constant or a condition. -/
theorem guardValue_gives (kinds : Kinds typed E V A) (answers : frame.calls.Give typed V A)
    {r : Record} (record : r.Holds V) {guard : Expr} (suits : E .boolean guard) :
    (guardValue frame r guard).Gives typed fun value =>
      value.bool? = none → A value ∧ A value.negate := by
  apply (kinds.value answers record suits).bind
  intro value own
  split
  · rename_i literal
    intro impossible
    have constant := kinds.constant value own literal.1 impossible
    rw [Option.isNone_iff_eq_none.mp literal.2] at constant
    cases constant
  · rename_i open'
    intro undecided
    apply kinds.condition value own
    simpa [undecided] using open'

mutual

/-- A statement keeps the kinds of slots and conditions. -/
theorem runStatement_gives (kinds : Kinds typed E V A) (answers : frame.calls.Give typed V A)
    (admits : ∀ c, A c → C c) (here : Position) (s : Statement) (suits : s.Every E) {t : Thread}
    (holds : t.Holds V C) (paths : Nat) :
    (runStatement frame here s t paths).Gives typed (AllHold V C) := by
  cases s with
  | finish cls disposition => exact List.forall_mem_singleton.mpr (holds.log _)
  | assign cls target value =>
      rw [runStatement]
      have stepped : Outcome.Gives typed (fun result => result.2.Holds V) (do
          let value ← value.evaluate frame.calls t.record
          let record ← t.record.assign target.toAttribute value
          .ok (value, record)) := by
        apply (kinds.value answers holds.record suits).bind
        intro x own
        apply (holds.record.assign own).bind
        exact fun record kept => kept
      apply (stepped.inContext _).bind
      rintro ⟨x, record⟩ own
      exact List.forall_mem_singleton.mpr ⟨own, holds.condition⟩
  | branch cls guard onTrue onFalse comment =>
      obtain ⟨guardSuits, trueSuits, falseSuits⟩ := suits
      have whenTrue := fun {t : Thread} (holds : t.Holds V C) paths =>
        runBlock_gives kinds answers admits (here ++ [.branch true]) 0 onTrue trueSuits holds
          paths
      have whenFalse := fun {t : Thread} (holds : t.Holds V C) paths =>
        runBlock_gives kinds answers admits (here ++ [.branch false]) 0 onFalse falseSuits holds
          paths
      rw [runStatement]
      apply ((guardValue_gives kinds answers holds.record guardSuits).inContext _).bind
      intro value own
      dsimp only
      split
      · exact whenTrue (holds.log _) paths
      · exact whenFalse (holds.log _) paths
      · rename_i undecided
        obtain ⟨positive, negative⟩ := own undecided
        split
        · exact whenTrue (holds.log _) paths
        · exact whenFalse (holds.log _) paths
        · split
          · exact fun _ => rfl
          · apply (whenTrue ((holds.assuming (admits _ positive)).log _) (paths + 1)).bind
            rintro ⟨first, between⟩ firstHold
            apply (whenFalse ((holds.assuming (admits _ negative)).log _) between).bind
            intro result secondHold
            exact List.forall_mem_append.mpr ⟨firstHold, secondHold⟩

theorem runBlock_gives (kinds : Kinds typed E V A) (answers : frame.calls.Give typed V A)
    (admits : ∀ c, A c → C c) (above : Position) (i : Nat) (block : List Statement)
    (suits : Statement.EveryAll E block) {t : Thread} (holds : t.Holds V C) (paths : Nat) :
    (runBlock frame above i block t paths).Gives typed (AllHold V C) := by
  cases block with
  | nil => exact List.forall_mem_singleton.mpr holds
  | cons s rest =>
      rw [runBlock]
      apply (runStatement_gives kinds answers admits _ s suits.1 holds paths).bind
      rintro ⟨ended, between⟩ endedHold
      apply resume_gives _ endedHold
      intro t paths holds
      exact runBlock_gives kinds answers admits above (i + 1) rest suits.2 holds paths

end

/-! ### Policies -/

theorem runPolicy_gives (kinds : Kinds typed E V A) {calls : Calls}
    (answers : calls.Give typed V A) (admits : ∀ c, A c → C c) (limit : Int)
    {assumptions : List Expr} (assumed : ∀ c ∈ assumptions, C c) {p : Policy}
    (suits : Statement.EveryAll E p.statements) {r : Record} (record : r.Holds V) :
    (runPolicy calls limit assumptions p r).Gives typed fun paths =>
      ∀ path ∈ paths, path.Holds V C := by
  apply (runBlock_gives kinds answers admits [] 0 p.statements suits ⟨record, assumed⟩ 1).bind
  intro result holds
  exact List.forall_mem_map.mpr fun x member => toPath_holds (holds x member) p.name

/-- Calls into a table are answered by conditions of the kind. -/
theorem callsFrom_gives (kinds : Kinds typed E V A) {table : Table Policy}
    (suits : table.All fun p => Statement.EveryAll E p.statements) (limit : Int)
    (stack : List String) : (callsFrom table limit stack).Give typed V A := by
  intro name r record
  rw [callsFrom]
  split
  · exact fun _ => rfl
  · rename_i fresh
    split
    · exact fun _ => rfl
    · rename_i p found
      have smaller := idle_lt fresh found
      have answers := callsFrom_gives kinds suits limit (stack ++ [name])
      apply (runPolicy_gives kinds answers (fun _ own => own) limit (List.forall_mem_nil _)
        (suits.get? found) record).bind
      intro paths holds
      exact kinds.answer paths .accept fun path member => (holds path member).condition
termination_by (idle table stack).length
decreasing_by exact smaller

end Execution

/-! ### Chains -/

section

variable [Arithmetic] {typed : Prop} {E V : ValueType → Expr → Prop} {A C : Expr → Prop}
  (kinds : Kinds typed E V A) (admits : ∀ c, A c → C c) (given : Assumed)
  (table : given.table.All fun p => Statement.EveryAll E p.statements)

include kinds admits table

/-- A run of a policy keeps the kinds of slots and conditions. -/
theorem evaluatePolicy_gives (assumed : ∀ c ∈ given.assumptions, C c) {p : Policy}
    (suits : Statement.EveryAll E p.statements) {r : Record} (record : r.Holds V) :
    (evaluatePolicy given p r).Gives typed fun paths => ∀ path ∈ paths, path.Holds V C :=
  Execution.runPolicy_gives kinds (Execution.callsFrom_gives kinds table given.limit [p.name])
    admits given.limit assumed suits record

namespace Chain

theorem extend_gives {p : Policy} (suits : Statement.EveryAll E p.statements) {t : Thread}
    (holds : t.Holds V C) :
    (extend given p t).Gives typed fun paths => ∀ path ∈ paths, path.Holds V C := by
  have own := evaluatePolicy_gives kinds admits ⟨t.condition, given.limit, given.table⟩ table
    holds.condition suits holds.record
  apply own.bind
  intro paths each
  exact List.forall_mem_map.mpr fun path member =>
    ⟨(each path member).record, (each path member).condition⟩

theorem extendAll_gives {p : Policy} (suits : Statement.EveryAll E p.statements)
    {passed : List Thread} (each : ∀ t ∈ passed, t.Holds V C) :
    (extendAll given p passed).Gives typed fun paths => ∀ path ∈ paths, path.Holds V C := by
  induction passed with
  | nil => exact List.forall_mem_nil _
  | cons t rest ih =>
      obtain ⟨here, later⟩ := List.forall_mem_cons.mp each
      apply (extend_gives kinds admits given table suits here).bind
      intro first firstHold
      apply (ih later).bind
      intro others othersHold
      exact List.forall_mem_append.mpr ⟨firstHold, othersHold⟩

theorem run_gives {policies : List Policy}
    (suits : ∀ p ∈ policies, Statement.EveryAll E p.statements) (last : String)
    {finished : List Path} (ended : ∀ path ∈ finished, path.Holds V C) {passed : List Thread}
    (each : ∀ t ∈ passed, t.Holds V C) :
    (run given last finished passed policies).Gives typed fun paths =>
      ∀ path ∈ paths, path.Holds V C := by
  induction policies generalizing last finished passed with
  | nil =>
      refine List.forall_mem_append.mpr ⟨ended, List.forall_mem_map.mpr fun t member => ?_⟩
      exact ⟨(each t member).record, (each t member).condition⟩
  | cons p rest ih =>
      obtain ⟨here, later⟩ := List.forall_mem_cons.mp suits
      apply (extendAll_gives kinds admits given table here each).bind
      intro paths own
      dsimp only
      split
      · exact fun _ => rfl
      · apply ih later
        · refine List.forall_mem_append.mpr ⟨ended, fun path member => ?_⟩
          exact own path (List.mem_filter.mp member).1
        · refine List.forall_mem_map.mpr fun path member => ?_
          have reached := own path (List.mem_filter.mp member).1
          exact ⟨reached.record, reached.condition⟩

end Chain

/-- A run of a chain keeps the kinds of slots and conditions. -/
theorem evaluateChain_gives (assumed : ∀ c ∈ given.assumptions, C c) {policies : List Policy}
    (suits : ∀ p ∈ policies, Statement.EveryAll E p.statements) {r : Record} (record : r.Holds V) :
    (evaluateChain given policies r).Gives typed fun paths => ∀ path ∈ paths, path.Holds V C := by
  cases policies with
  | nil => exact List.forall_mem_singleton.mpr ⟨record, assumed⟩
  | cons p rest =>
      have start : Thread.Holds V C ⟨r, given.assumptions, []⟩ := ⟨record, assumed⟩
      exact Chain.run_gives kinds admits given table suits p.name (List.forall_mem_nil _)
        (List.forall_mem_singleton.mpr start)

end

end RoutePolicy
