import RoutePolicy.Proofs.Chain
import RoutePolicy.Proofs.Concrete

/-!
Simplification of statements keeps what policies do to concrete records: the records they leave have
the same values, and they end in the same way. Branches that agree are merged, branches that are
never taken and statements after the end of a policy are dropped.
-/

set_option autoImplicit false

namespace RoutePolicy

/-! ### Types -/

theorem ValueType.fits_self (type : ValueType) : type.fits type = true := by
  simp [ValueType.fits]

theorem ValueType.fits_trans {a b c : ValueType} (first : a.fits b = true)
    (second : b.fits c = true) : a.fits c = true := by
  simp only [ValueType.fits, Bool.or_eq_true, decide_eq_true_eq] at first second ⊢
  rcases first with rfl | unknown
  · exact second
  · exact .inr unknown

namespace Expr

/-- An expression of an unknown type suits every type. -/
def Suits (expected : ValueType) (e : Expr) : Prop := e.type.fits expected = true

theorem fitted_of_suits {e : Expr} {expected : ValueType}
    (operator : e.operandType? = some expected) (suits : ∀ c ∈ e.children, Suits expected c) :
    e.fitted = true := by
  simp only [fitted, operator, List.all_eq_true]
  exact suits

theorem suits_of_fitted {e : Expr} {expected : ValueType}
    (operator : e.operandType? = some expected) (fits : e.fitted = true) :
    ∀ c ∈ e.children, Suits expected c := by
  simp only [fitted, operator, List.all_eq_true] at fits
  exact fits

/-- New nodes are fitted when their operands suit them. -/
theorem fitted_stable : Stable type Suits False (·.fitted = true) where
  own _ := ValueType.fits_self _
  operator _ _ _ := rfl
  constant _ _ := rfl
  part _ c _ fits _ operator member := suits_of_fitted operator fits c member
  room _ _ _ impossible := impossible.elim
  boolean _ := rfl
  set _ _ := rfl
  path _ _ := rfl
  negated _ suits := fitted_of_suits rfl (by simpa [children] using suits)
  joined _ _ _ suits := fitted_of_suits rfl suits
  united _ _ suits := fitted_of_suits rfl suits
  matched _ _ _ suits := fitted_of_suits rfl (by simpa [children] using suits)
  ranged _ _ _ suits := fitted_of_suits rfl (by simpa [children] using suits)
  prepended _ _ _ suits := fitted_of_suits rfl (by simpa [children] using suits)

/-- A well-typed expression stays well typed, and suits what it suited before. -/
theorem simplify_fitted {e : Expr} (fits : e.Each (·.fitted = true)) :
    e.simplify.EachOf Suits (·.fitted = true) e.type := by
  refine fitted_stable.eachOf_simplify (fun e es root related => ?_) fits
  have lengths : es.length = e.children.length := related.length_eq.symm
  have parts : ∀ part ∈ es, part.Each (·.fitted = true) :=
    forall_of_forall₂ related fun _ _ suits => suits.1
  refine fitted_stable.ready (each_iff.mpr ⟨?_, by rwa [children_withChildren lengths]⟩)
  cases operator : e.operandType? with
  | none =>
      unfold fitted
      rw [operandType?_withChildren, operator]
  | some expected =>
      refine fitted_of_suits ((operandType?_withChildren e es).trans operator) ?_
      rw [children_withChildren lengths]
      refine forall₂_right related (suits_of_fitted operator root) ?_
      intro _ _ before suits
      exact ValueType.fits_trans suits.2 before

/-- An expression that policies may use where a type is needed, without type errors. -/
structure Checked (expected : ValueType) (e : Expr) : Prop where
  usable : e.Usable expected
  fitted : e.Each (·.fitted = true)

theorem Checked.simplify {expected : ValueType} {e : Expr} (checked : e.Checked expected) :
    e.simplify.Checked expected := by
  obtain ⟨fitted, suits⟩ := simplify_fitted checked.fitted
  have fits := ValueType.fits_trans suits checked.usable.fits
  exact ⟨⟨fits, simplify_foldable checked.usable.foldable⟩, fitted⟩

end Expr

namespace Statement

variable {Q R : ValueType → Expr → Prop}

theorem everyAll_append {first second : List Statement} (before : EveryAll Q first)
    (after : EveryAll Q second) : EveryAll Q (first ++ second) := by
  rw [everyAll_iff] at before after ⊢
  exact List.forall_mem_append.mpr ⟨before, after⟩

theorem cutAfterEnd_sublist (block : List Statement) : (cutAfterEnd block).Sublist block := by
  induction block with
  | nil => exact .slnil
  | cons s rest ih =>
      unfold cutAfterEnd
      split
      · exact (List.nil_sublist rest).cons_cons s
      · exact ih.cons_cons s

mutual

/-- What simplification of expressions keeps holds of all expressions of a simplified statement. -/
theorem everyAll_simplify (keeps : ∀ expected e, Q expected e → Q expected e.simplify)
    (s : Statement) (every : s.Every Q) : EveryAll Q s.simplify := by
  cases s with
  | finish cls disposition => exact ⟨trivial, trivial⟩
  | assign cls target value => exact ⟨keeps _ _ every, trivial⟩
  | branch cls guard onTrue onFalse comment =>
      obtain ⟨guardHolds, trueEvery, falseEvery⟩ := every
      have inTrue := everyAll_simplifyAll keeps onTrue trueEvery
      have inFalse := everyAll_simplifyAll keeps onFalse falseEvery
      rw [simplify]
      split
      · split
        · exact inTrue
        · exact inFalse
      · split
        · exact inTrue
        · exact ⟨⟨keeps _ _ guardHolds, inTrue, inFalse⟩, trivial⟩

theorem everyAll_simplifyAll (keeps : ∀ expected e, Q expected e → Q expected e.simplify)
    (block : List Statement) (every : EveryAll Q block) : EveryAll Q (simplifyAll block) := by
  cases block with
  | nil => trivial
  | cons s rest =>
      have first := everyAll_simplify keeps s every.1
      have later := everyAll_simplifyAll keeps rest every.2
      have all := everyAll_iff.mp (everyAll_append first later)
      rw [simplifyAll, everyAll_iff]
      exact fun x member => all x ((cutAfterEnd_sublist _).subset member)

end

/-! ### The end of a block -/

variable [Arithmetic] {calls : Calls} {r : Record} {x : Record × Option Disposition}

theorem performAll_append {first second : List Statement} :
    performAll calls r (first ++ second) = .ok x ↔ ∃ y, performAll calls r first = .ok y ∧
      ((∃ disposition, y.2 = some disposition ∧ x = y) ∨
        (y.2 = none ∧ performAll calls y.1 second = .ok x)) := by
  induction first generalizing r with
  | nil => simp [performAll]
  | cons s rest ih =>
      simp only [List.cons_append, performAll_cons, ih]
      constructor
      · rintro ⟨y, done, ⟨disposition, ends, rfl⟩ | ⟨continues, z, later, after⟩⟩
        · exact ⟨x, ⟨x, done, .inl ⟨disposition, ends, rfl⟩⟩, .inl ⟨disposition, ends, rfl⟩⟩
        · exact ⟨z, ⟨y, done, .inr ⟨continues, later⟩⟩, after⟩
      · rintro ⟨z, ⟨y, done, ⟨disposition, ends, rfl⟩ | ⟨continues, later⟩⟩, after⟩
        · refine ⟨z, done, ?_⟩
          rcases after with same | ⟨open', _⟩
          · exact .inl same
          · rw [ends] at open'
            cases open'
        · exact ⟨y, done, .inr ⟨continues, z, later, after⟩⟩

theorem performAll_singleton {s : Statement} :
    performAll calls r [s] = .ok x ↔ s.perform calls r = .ok x := by
  rw [performAll_cons]
  constructor
  · rintro ⟨y, done, ⟨_, _, rfl⟩ | ⟨continues, later⟩⟩
    · exact done
    · cases later
      rwa [← continues]
  · intro done
    refine ⟨x, done, ?_⟩
    obtain ⟨next, ended⟩ := x
    cases ended with
    | none => exact .inr ⟨rfl, rfl⟩
    | some disposition => exact .inl ⟨disposition, rfl, rfl⟩

mutual

/-- A statement every way through which ends the policy ends it. -/
theorem isSome_of_terminates (s : Statement) (ends : s.terminates = true) {r : Record}
    {x : Record × Option Disposition} (performed : s.perform calls r = .ok x) :
    x.2.isSome = true := by
  cases s with
  | finish cls disposition =>
      cases performed
      rfl
  | assign cls target value => cases ends
  | branch cls guard onTrue onFalse comment =>
      simp only [terminates, Bool.and_eq_true] at ends
      obtain ⟨y, taken, _, _, done⟩ := perform_branch.mp performed
      cases taken with
      | true => exact isSome_of_endsBlock onTrue ends.1 done
      | false => exact isSome_of_endsBlock onFalse ends.2 done

/-- A block the last statement of which ends the policy ends it. -/
theorem isSome_of_endsBlock (block : List Statement) (ends : endsBlock block = true) {r : Record}
    {x : Record × Option Disposition} (performed : performAll calls r block = .ok x) :
    x.2.isSome = true := by
  cases block with
  | nil => cases ends
  | cons s rest =>
      obtain ⟨y, done, ⟨disposition, stops, rfl⟩ | ⟨continues, later⟩⟩ :=
        performAll_cons.mp performed
      · rw [stops]
        rfl
      · cases rest with
        | nil =>
            have closed := isSome_of_terminates s ends done
            rw [continues] at closed
            cases closed
        | cons next others => exact isSome_of_endsBlock (next :: others) ends later

end

/-- Statements after one that ends the policy are not performed. -/
theorem performAll_cutAfterEnd {block : List Statement}
    (performed : performAll calls r block = .ok x) :
    performAll calls r (cutAfterEnd block) = .ok x := by
  induction block generalizing r with
  | nil => exact performed
  | cons s rest ih =>
      obtain ⟨y, done, later⟩ := performAll_cons.mp performed
      unfold cutAfterEnd
      split
      · rename_i ends
        have closed := isSome_of_terminates s ends done
        rcases later with ⟨_, _, rfl⟩ | ⟨continues, _⟩
        · exact performAll_singleton.mpr done
        · rw [continues] at closed
          cases closed
      · refine performAll_cons.mpr ⟨y, done, later.imp_right ?_⟩
        rintro ⟨continues, later⟩
        exact ⟨continues, ih later⟩

end Statement

/-! ### Replacing expressions -/

/-- An expression that may stand in the place of another one: the simplified one, or one that is
equal up to spelling. -/
def Expr.Replaces (other e : Expr) : Prop := other = e.simplify ∨ same other e = true

/-- Calls with which expressions may be replaced. Over alike records, an expression with a property
and what replaces it decide guards in the same way and are assigned alike. -/
structure Calls.Tolerant [Arithmetic] (calls : Calls) (Q : ValueType → Expr → Prop)
    (Alike : Record → Record → Prop) : Prop where
  keeps : ∀ expected e, Q expected e → Q expected e.simplify
  other : ∀ {c d : Record}, Alike c d → Alike d d
  trans : ∀ {c d e : Record}, Alike c d → Alike d e → Alike c e
  guard : ∀ {c d : Record} {e x y : Expr} {taken : Bool}, Alike c d → Q .boolean e →
    x.Replaces e → e.evaluate calls c = .ok y → y.bool? = some taken →
    ∃ z, x.evaluate calls d = .ok z ∧ z.bool? = some taken
  assign : ∀ {c d s : Record} {e x y : Expr} {target : Settable}, Alike c d →
    Q target.toAttribute.type e → x.Replaces e → e.evaluate calls c = .ok y →
    c.assign target.toAttribute y = .ok s →
    ∃ z s', x.evaluate calls d = .ok z ∧ d.assign target.toAttribute z = .ok s' ∧ Alike s s'

namespace Statement

/-! ### Performing over alike records -/

variable [Arithmetic] {calls : Calls} {Q : ValueType → Expr → Prop}
  {Alike : Record → Record → Prop}

mutual

/-- Statements that are equal up to spelling make alike records of alike records. -/
theorem perform_same (tolerant : Calls.Tolerant calls Q Alike) (other statement : Statement)
    (equal : same other statement = true) (every : statement.Every Q) {c d s : Record}
    (alike : Alike c d) {ended : Option Disposition}
    (performed : statement.perform calls c = .ok (s, ended)) :
    ∃ s', other.perform calls d = .ok (s', ended) ∧ Alike s s' := by
  cases statement with
  | finish cls disposition =>
      cases other with
      | finish cls' disposition' =>
          obtain rfl := of_decide_eq_true equal
          cases performed
          exact ⟨d, rfl, alike⟩
      | assign _ _ _ | branch _ _ _ _ _ => cases equal
  | assign cls target value =>
      cases other with
      | assign cls' target' value' =>
          simp only [same, Bool.and_eq_true, decide_eq_true_eq] at equal
          obtain ⟨rfl, equal⟩ := equal
          obtain ⟨y, next, evaluated, assigned, same⟩ := perform_assign.mp performed
          cases same
          obtain ⟨z, s', found, also, becomes⟩ :=
            tolerant.assign alike every (.inr equal) evaluated assigned
          exact ⟨s', perform_assign.mpr ⟨z, s', found, also, rfl⟩, becomes⟩
      | finish _ _ | branch _ _ _ _ _ => cases equal
  | branch cls guard onTrue onFalse comment =>
      cases other with
      | branch cls' guard' onTrue' onFalse' comment' =>
          simp only [same, Bool.and_eq_true, decide_eq_true_eq] at equal
          obtain ⟨⟨⟨_, guards⟩, trues⟩, falses⟩ := equal
          obtain ⟨guardHolds, trueEvery, falseEvery⟩ := every
          obtain ⟨y, taken, evaluated, constant, done⟩ := perform_branch.mp performed
          obtain ⟨z, found, decided⟩ :=
            tolerant.guard alike guardHolds (.inr guards) evaluated constant
          cases taken with
          | true =>
              obtain ⟨s', also, becomes⟩ :=
                performAll_same tolerant onTrue' onTrue trues trueEvery alike done
              exact ⟨s', perform_branch.mpr ⟨z, true, found, decided, also⟩, becomes⟩
          | false =>
              obtain ⟨s', also, becomes⟩ :=
                performAll_same tolerant onFalse' onFalse falses falseEvery alike done
              exact ⟨s', perform_branch.mpr ⟨z, false, found, decided, also⟩, becomes⟩
      | finish _ _ | assign _ _ _ => cases equal

/-- Blocks that are equal up to spelling make alike records of alike records. -/
theorem performAll_same (tolerant : Calls.Tolerant calls Q Alike) (others block : List Statement)
    (equal : sameAll others block = true) (every : EveryAll Q block) {c d s : Record}
    (alike : Alike c d) {ended : Option Disposition}
    (performed : performAll calls c block = .ok (s, ended)) :
    ∃ s', performAll calls d others = .ok (s', ended) ∧ Alike s s' := by
  cases block with
  | nil =>
      cases others with
      | nil =>
          cases performed
          exact ⟨d, rfl, alike⟩
      | cons _ _ => cases equal
  | cons first rest =>
      cases others with
      | nil => cases equal
      | cons first' rest' =>
          simp only [sameAll, Bool.and_eq_true] at equal
          obtain ⟨⟨next, stopped⟩, done, later⟩ := performAll_cons.mp performed
          obtain ⟨next', also, becomes⟩ :=
            perform_same tolerant first' first equal.1 every.1 alike done
          rcases later with ⟨disposition, stops, same⟩ | ⟨continues, later⟩
          · cases same
            exact ⟨next', performAll_cons.mpr ⟨_, also, .inl ⟨disposition, stops, rfl⟩⟩, becomes⟩
          · obtain ⟨s', further, ends⟩ :=
              performAll_same tolerant rest' rest equal.2 every.2 becomes later
            exact ⟨s', performAll_cons.mpr ⟨_, also, .inr ⟨continues, further⟩⟩, ends⟩

end

/-- A simplified branching statement does what the simplified branch does that is taken. -/
theorem branch_simplify (tolerant : Calls.Tolerant calls Q Alike) {cls : Spelling} {guard y : Expr}
    {onTrue onFalse : List Statement} {comment : Comment} {c d s : Record} (alike : Alike c d)
    (guardHolds : Q .boolean guard) (falseEvery : EveryAll Q (simplifyAll onFalse))
    (evaluated : guard.evaluate calls c = .ok y) {taken : Bool} (constant : y.bool? = some taken)
    {ended : Option Disposition} {s' : Record} (becomes : Alike s s')
    (done : performAll calls d (if taken then simplifyAll onTrue else simplifyAll onFalse) =
      .ok (s', ended)) :
    ∃ s', performAll calls d (branch cls guard onTrue onFalse comment).simplify = .ok (s', ended) ∧
      Alike s s' := by
  obtain ⟨z, found, decided⟩ := tolerant.guard alike guardHolds (.inl rfl) evaluated constant
  rw [simplify]
  split
  · -- the guard has become a constant, which is what it comes to
    rename_i value folded
    obtain ⟨_, literal⟩ := Expr.bool?_eq_some folded
    rw [literal] at found
    cases found
    cases decided
    cases taken <;> exact ⟨s', done, becomes⟩
  · split
    · rename_i merged
      cases taken with
      | true => exact ⟨s', done, becomes⟩
      | false =>
          obtain ⟨s'', also, same⟩ :=
            performAll_same tolerant _ _ merged falseEvery (tolerant.other alike) done
          exact ⟨s'', also, tolerant.trans becomes same⟩
    · exact ⟨s', performAll_singleton.mpr (perform_branch.mpr ⟨z, taken, found, decided, by
        cases taken <;> exact done⟩), becomes⟩

mutual

/-- A simplified statement makes alike records of alike records, and ends as the statement does. -/
theorem perform_simplify (tolerant : Calls.Tolerant calls Q Alike) (statement : Statement)
    (every : statement.Every Q) {c d s : Record} (alike : Alike c d) {ended : Option Disposition}
    (performed : statement.perform calls c = .ok (s, ended)) :
    ∃ s', performAll calls d statement.simplify = .ok (s', ended) ∧ Alike s s' := by
  cases statement with
  | finish cls disposition =>
      cases performed
      exact ⟨d, rfl, alike⟩
  | assign cls target value =>
      obtain ⟨y, next, evaluated, assigned, same⟩ := perform_assign.mp performed
      cases same
      obtain ⟨z, s', found, also, becomes⟩ :=
        tolerant.assign alike every (.inl rfl) evaluated assigned
      refine ⟨s', performAll_singleton.mpr ?_, becomes⟩
      exact perform_assign.mpr ⟨z, s', found, also, rfl⟩
  | branch cls guard onTrue onFalse comment =>
      obtain ⟨guardHolds, trueEvery, falseEvery⟩ := every
      obtain ⟨y, taken, evaluated, constant, done⟩ := perform_branch.mp performed
      have chosen : ∃ s', performAll calls d
          (if taken then simplifyAll onTrue else simplifyAll onFalse) = .ok (s', ended) ∧
            Alike s s' := by
        cases taken with
        | true => exact performAll_simplify tolerant onTrue trueEvery alike done
        | false => exact performAll_simplify tolerant onFalse falseEvery alike done
      obtain ⟨s', also, becomes⟩ := chosen
      exact branch_simplify tolerant alike guardHolds
        (everyAll_simplifyAll tolerant.keeps onFalse falseEvery) evaluated constant becomes also

/-- A simplified block makes alike records of alike records, and ends as the block does. -/
theorem performAll_simplify (tolerant : Calls.Tolerant calls Q Alike) (block : List Statement)
    (every : EveryAll Q block) {c d s : Record} (alike : Alike c d) {ended : Option Disposition}
    (performed : performAll calls c block = .ok (s, ended)) :
    ∃ s', performAll calls d (simplifyAll block) = .ok (s', ended) ∧ Alike s s' := by
  cases block with
  | nil =>
      cases performed
      exact ⟨d, rfl, alike⟩
  | cons first rest =>
      obtain ⟨⟨next, stopped⟩, done, later⟩ := performAll_cons.mp performed
      obtain ⟨next', also, becomes⟩ := perform_simplify tolerant first every.1 alike done
      rcases later with ⟨disposition, stops, same⟩ | ⟨continues, later⟩
      · cases same
        refine ⟨next', performAll_cutAfterEnd ?_, becomes⟩
        exact performAll_append.mpr ⟨_, also, .inl ⟨disposition, stops, rfl⟩⟩
      · obtain ⟨s', further, ends⟩ := performAll_simplify tolerant rest every.2 becomes later
        refine ⟨s', performAll_cutAfterEnd ?_, ends⟩
        exact performAll_append.mpr ⟨_, also, .inr ⟨continues, further⟩⟩

end

end Statement

/-- A simplified policy makes alike records of alike records, and ends as the policy does. -/
theorem Policy.perform_simplify [Arithmetic] {calls : Calls} {Q : ValueType → Expr → Prop}
    {Alike : Record → Record → Prop} (tolerant : Calls.Tolerant calls Q Alike) {p : Policy}
    (every : Statement.EveryAll Q p.statements) {c d s : Record} (alike : Alike c d)
    {disposition : Disposition} (performed : p.perform calls c = .ok (disposition, s)) :
    ∃ s', p.simplify.perform calls d = .ok (disposition, s') ∧ Alike s s' := by
  obtain ⟨ended, done, same⟩ := perform_ok.mp performed
  obtain ⟨s', also, becomes⟩ :=
    Statement.performAll_simplify tolerant p.statements every alike done
  exact ⟨s', perform_ok.mpr ⟨ended, also, same⟩, becomes⟩

/-- Over alike concrete records, well-typed expressions may be replaced. -/
theorem Calls.Steady.tolerant [Arithmetic] (exact : ∀ i : Int, Arithmetic.round i = i)
    {route : Route} {calls : Calls} (steady : calls.Steady route) :
    Calls.Tolerant calls Expr.Checked (Record.Alike route) := by
  have replaced : ∀ {c d : Record} {e x y : Expr} {expected : ValueType}, c.Alike route d →
      e.Checked expected → x.Replaces e → e.evaluate calls c = .ok y →
      ∃ z, x.evaluate calls d = .ok z ∧ z.Denotes (y.valueAt route) := by
    rintro c d e x y expected alike checked (rfl | equal) evaluated
    · exact Expr.evaluate_simplify exact steady alike checked.usable.foldable evaluated
    · exact Expr.evaluate_same exact steady alike checked.usable.foldable evaluated equal
  constructor
  case keeps => exact fun _ _ => Expr.Checked.simplify
  case other => exact fun alike => ⟨alike.other, alike.other.comesTo route⟩
  case trans => exact fun first second => ⟨first.concrete, first.comes.trans second.comes⟩
  case guard =>
    intro c d e x y taken alike checked replaces evaluated constant
    obtain ⟨z, found, denotes⟩ := replaced alike checked replaces evaluated
    obtain ⟨cls, rfl⟩ := Expr.bool?_eq_some constant
    exact ⟨z, found, denotes.bool?⟩
  case assign =>
    intro c d s e x y target alike checked replaces evaluated assigned
    obtain ⟨z, found, denotes⟩ := replaced alike checked replaces evaluated
    have residual := Execution.usable_residual steady.answers alike.concrete.residual
      checked.usable evaluated
    have literal := Expr.evaluate_literal exact steady alike.concrete checked.usable.foldable
      evaluated
    obtain ⟨s', also, becomes⟩ := alike.assign residual literal assigned denotes
    exact ⟨z, s', found, also, becomes⟩

/-! ### Policies -/

/-- A policy all expressions of which have the types needed, reach literals and are well typed. -/
def Policy.Checked (p : Policy) : Prop := Statement.EveryAll Expr.Checked p.statements

namespace Policy

theorem Foldable.checked {p : Policy} (foldable : p.Foldable) (typed : p.wellTyped = true) :
    p.Checked := by
  have reaches := Statement.everyAll_iff.mp foldable
  have types := Statement.everyAll_iff.mp (Policy.every_of_wellTyped typed)
  refine Statement.everyAll_iff.mpr fun s member => ?_
  refine Statement.Every.both ?_ s (reaches s member) (types s member)
  intro expected e each fits
  exact ⟨⟨fits.2, each⟩, Expr.wellTyped_iff.mp fits.1⟩

theorem Checked.usable {p : Policy} (checked : p.Checked) : p.Usable :=
  Statement.EveryAll.mono (fun _ _ => Expr.Checked.usable) checked

theorem Checked.simplify {p : Policy} (checked : p.Checked) : p.simplify.Checked :=
  Statement.everyAll_simplifyAll (Q := Expr.Checked) (fun _ _ => Expr.Checked.simplify)
    p.statements checked

end Policy

/-- The policies of a table, each simplified. -/
def Table.simplified (table : Table Policy) : Table Policy :=
  table.map fun (name, p) => (name, p.simplify)

/-- A table all policies of which are checked. -/
def Table.Checked (table : Table Policy) : Prop :=
  ∀ name p, table.get? name = some p → p.Checked

namespace Table

theorem get?_simplified (table : Table Policy) (name : String) :
    table.simplified.get? name = (table.get? name).map Policy.simplify :=
  get?_map table Policy.simplify

theorem Checked.usable {table : Table Policy} (checked : table.Checked) : table.Usable :=
  fun name p found => (checked name p found).usable

theorem Checked.simplified {table : Table Policy} (checked : table.Checked) :
    table.simplified.Checked := by
  intro name p found
  rw [get?_simplified] at found
  obtain ⟨q, known, rfl⟩ := Option.map_eq_some_iff.mp found
  exact (checked name q known).simplify

end Table

namespace Execution

variable [Arithmetic]

theorem callsFrom_steady (exact : ∀ i : Int, Arithmetic.round i = i) (route : Route)
    {table : Table Policy} (usable : table.Usable) (limit : Int) (stack : List String) :
    (callsFrom table limit stack).Steady route :=
  ⟨callsFrom_answers usable limit stack, callsFrom_agrees exact route usable limit limit stack⟩

/-- Calls of simplified policies are answered by the constants that the symbolic answers of the
policies come to. -/
theorem callsFrom_simplified (exact : ∀ i : Int, Arithmetic.round i = i) (route : Route)
    {table : Table Policy} (checked : table.Checked) (limit otherLimit : Int)
    (stack : List String) :
    Calls.Agree route (callsFrom table limit stack)
      (callsFrom table.simplified otherLimit stack) := by
  intro name r c x record comes called
  obtain ⟨fresh, p, paths, found, run, rfl⟩ := callsFrom_ok.mp called
  have answers := callsFrom_answers checked.usable limit (stack ++ [name])
  have agree := callsFrom_simplified exact route checked limit otherLimit (stack ++ [name])
  have steady :=
    callsFrom_steady exact route checked.simplified.usable otherLimit (stack ++ [name])
  have own := checked name p found
  have partition := runPolicy_partition answers (by simp) own.usable record run
  have certain : ([] : List Expr).all (·.holdsAt route) = true := rfl
  obtain ⟨path, single⟩ := partition.exactlyOne certain
  obtain ⟨member, holds⟩ := List.mem_filter.mp (single ▸ List.mem_singleton_self path)
  -- the policy is performed with the calls of the simplified table, and then the simplified policy
  obtain ⟨d, done, _⟩ :=
    runPolicy_performs exact answers agree (by simp) own.usable record comes run member holds
  have concrete := comes.concrete record
  obtain ⟨s, also, _⟩ :=
    Policy.perform_simplify (steady.tolerant exact) own ⟨concrete, concrete.comesTo route⟩ done
  obtain ⟨known, ran, disposition, _, condition⟩ := runPolicy_of_perform also otherLimit []
  have simplified : table.simplified.get? name = some p.simplify := by
    rw [Table.get?_simplified, found]
    rfl
  refine ⟨residual [known] .accept,
    callsFrom_ok.mpr ⟨fresh, p.simplify, [known], simplified, ran, rfl⟩, ?_⟩
  rw [Expr.valueAt_bool (residual_residual partition.sound .accept),
    holdsAt_residual_of_single partition.sound single, residual_single condition, disposition]
  exact ⟨none, _, rfl, rfl⟩
termination_by (idle table stack).length
decreasing_by exact idle_lt fresh found

end Execution

namespace Chain

variable [Arithmetic]

/-- A chain of simplified policies makes alike records of alike records, and ends as the chain
does. -/
theorem perform_simplify (exact : ∀ i : Int, Arithmetic.round i = i) {route : Route}
    {calls : String → Calls} (steady : ∀ name, (calls name).Steady route) {policies : List Policy}
    (checked : ∀ p ∈ policies, p.Checked) {c d s : Record} (alike : c.Alike route d)
    {disposition : Disposition}
    (performed : perform (fun p => calls p.name) policies c = .ok (disposition, s)) :
    ∃ s', perform (fun p => calls p.name) (policies.map Policy.simplify) d =
      .ok (disposition, s') ∧ s.Alike route s' := by
  induction policies generalizing c d with
  | nil =>
      cases performed
      exact ⟨d, rfl, alike⟩
  | cons p rest ih =>
      obtain ⟨here, further⟩ := List.forall_mem_cons.mp checked
      obtain ⟨e, u, done, next⟩ := perform_cons.mp performed
      obtain ⟨u', also, becomes⟩ :=
        Policy.perform_simplify ((steady p.name).tolerant exact) here alike done
      rcases next with ⟨passes, later⟩ | ⟨ends, rfl, rfl⟩
      · obtain ⟨s', finally', last⟩ := ih further becomes later
        exact ⟨s', perform_cons.mpr ⟨e, u', also, .inl ⟨passes, finally'⟩⟩, last⟩
      · exact ⟨u', perform_cons.mpr ⟨disposition, u', also, .inr ⟨ends, rfl, rfl⟩⟩, becomes⟩

end Chain

/-- Over a concrete record a chain of simplified policies takes a path that ends where the path of
the chain ends that holds of the route. -/
theorem evaluateChain_simplified [Arithmetic] (exact : ∀ i : Int, Arithmetic.round i = i)
    {route : Route} (given : Assumed) (assumed : ∀ c ∈ given.assumptions, c.ResidualOf .boolean)
    (table : given.table.Checked) {policies : List Policy} (checked : ∀ p ∈ policies, p.Checked)
    {r c : Record} (record : r.Residual) (comes : r.ComesTo route c) {paths : List Path}
    (run : evaluateChain given policies r = .ok paths) {path : Path} (member : path ∈ paths)
    (holds : path.holdsAt route = true) {limit : Int} (room : 1 ≤ limit) :
    ∃ known, evaluateChain ⟨[], limit, given.table.simplified⟩ (policies.map Policy.simplify) c =
      .ok [known] ∧ path.Follows route known := by
  have concrete := comes.concrete record
  cases policies with
  | nil =>
      cases run
      cases List.mem_singleton.mp member
      exact ⟨_, rfl, rfl, comes, rfl⟩
  | cons p rest =>
      have usable : ∀ q ∈ p :: rest, q.Usable := fun q inside => (checked q inside).usable
      obtain ⟨d, done, follows⟩ := evaluateChain_performs exact assumed table.usable usable
        (fun p => Execution.callsFrom_simplified exact route table given.limit limit [p.name])
        record comes run member holds
      obtain ⟨s, also, alike⟩ := Chain.perform_simplify exact
        (fun name => Execution.callsFrom_steady exact route table.simplified.usable limit [name])
        checked ⟨concrete, concrete.comesTo route⟩ done
      obtain ⟨k, ran, disposition, same, condition⟩ :=
        Chain.run_of_perform room ⟨c, [], []⟩ rfl also p.name
      exact ⟨k, ran, disposition, follows.trans (same ▸ alike.comes), condition⟩

end RoutePolicy
