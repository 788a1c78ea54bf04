import RoutePolicy.Proofs.Chain
import RoutePolicy.Proofs.EvaluatedCalls
import RoutePolicy.Proofs.Outlines
import RoutePolicy.Proofs.Tables

/-!
Guards that read nothing that is assigned. Runs from records that agree on the attributes that
guards read take the same branches under the same conditions, whatever the other attributes have
become meanwhile. So along a run no condition arises that does not arise at its start.
-/

set_option autoImplicit false

namespace RoutePolicy

/-! ### What guards read and statements assign -/

namespace Statement

mutual

/-- The guards of a statement. -/
def guards : Statement → List Expr
  | branch _ guard onTrue onFalse _ => guard :: (guardsAll onTrue ++ guardsAll onFalse)
  | _ => []

def guardsAll : List Statement → List Expr
  | [] => []
  | s :: rest => s.guards ++ guardsAll rest

end

mutual

/-- The attributes that a statement assigns. -/
def targets : Statement → List Attribute
  | branch _ _ onTrue onFalse _ => targetsAll onTrue ++ targetsAll onFalse
  | assign _ target _ => [target.toAttribute]
  | finish _ _ => []

def targetsAll : List Statement → List Attribute
  | [] => []
  | s :: rest => s.targets ++ targetsAll rest

end

/-- The guards of a block read attributes of a set, and its assignments spare them. -/
structure Spares (U : Set Attribute) (guards : List Expr) (targets : List Attribute) : Prop where
  reads : ∀ guard ∈ guards, ∀ name ∈ guard.attributes, name ∈ U
  assigns : ∀ name ∈ targets, name ∉ U

variable {U : Set Attribute} {guards others : List Expr} {targets further : List Attribute}

theorem Spares.left (spares : Spares U (guards ++ others) (targets ++ further)) :
    Spares U guards targets where
  reads guard member := spares.reads guard (List.mem_append_left _ member)
  assigns name member := spares.assigns name (List.mem_append_left _ member)

theorem Spares.right (spares : Spares U (guards ++ others) (targets ++ further)) :
    Spares U others further where
  reads guard member := spares.reads guard (List.mem_append_right _ member)
  assigns name member := spares.assigns name (List.mem_append_right _ member)

end Statement

/-! ### Records that agree -/

namespace Record

/-- Records with the same slots for the attributes of a set. -/
def AgreeOn (U : Set Attribute) (r s : Record) : Prop := ∀ name ∈ U, r.get? name = s.get? name

variable {U : Set Attribute} {r s u : Record}

theorem AgreeOn.refl (r : Record) : r.AgreeOn U r := fun _ _ => rfl

theorem AgreeOn.symm (agree : r.AgreeOn U s) : s.AgreeOn U r :=
  fun name member => (agree name member).symm

theorem AgreeOn.trans (first : r.AgreeOn U s) (second : s.AgreeOn U u) : r.AgreeOn U u :=
  fun name member => (first name member).trans (second name member)

theorem AgreeOn.lookup (agree : r.AgreeOn U s) {name : Attribute} (member : name ∈ U) :
    r.lookup name = s.lookup name := by
  rw [Record.lookup, Record.lookup, agree name member]

theorem get?_assign_other {name other : Attribute} (differs : other ≠ name) {value : Expr}
    (assigned : r.assign name value = .ok s) : s.get? other = r.get? other := by
  unfold assign at assigned
  split at assigned
  · rename_i has
    cases assigned
    clear has
    obtain ⟨slots⟩ := r
    unfold get?
    dsimp only
    induction slots with
    | nil => rfl
    | cons slot rest ih =>
        by_cases here : slot.1 = name
        · simpa [here, differs.symm] using ih
        · by_cases found : slot.1 = other
          · simp [found, differs]
          · simpa [here, found] using ih
  · cases assigned

/-- An assignment to an attribute outside of the set goes unnoticed. -/
theorem AgreeOn.assign {name : Attribute} (outside : name ∉ U) {value : Expr}
    (assigned : r.assign name value = .ok s) : r.AgreeOn U s := by
  intro other member
  refine (get?_assign_other ?_ assigned).symm
  rintro rfl
  exact outside member

end Record

/-- Calls that answer alike over records that agree, if they answer. -/
def Calls.Blind (U : Set Attribute) (calls : Calls) : Prop :=
  ∀ policy r s x y, r.AgreeOn U s → calls policy r = .ok x → calls policy s = .ok y → x = y

variable [Arithmetic] {U : Set Attribute}

namespace Expr

variable {calls : Calls} {r s : Record}

theorem evaluateAll_blind {es : List Expr}
    (each : ∀ e ∈ es, ∀ x y, e.evaluate calls r = .ok x → e.evaluate calls s = .ok y → x = y)
    {xs ys : List Expr} (left : evaluateAll calls r es = .ok xs)
    (right : evaluateAll calls s es = .ok ys) : xs = ys := by
  rw [evaluateAll_ok] at left right
  induction left generalizing ys with
  | nil =>
      cases right
      rfl
  | cons value _ ih =>
      cases right with
      | cons other others =>
          obtain ⟨here, later⟩ := List.forall_mem_cons.mp each
          rw [here _ _ value other, ih later others]

/-- Over records that agree on what an expression reads it has one value. -/
theorem evaluate_blind (blind : calls.Blind U) (agree : r.AgreeOn U s) {e : Expr}
    (reads : ∀ name ∈ e.attributes, name ∈ U) {x y : Expr} (left : e.evaluate calls r = .ok x)
    (right : e.evaluate calls s = .ok y) : x = y := by
  induction e using childrenInduction generalizing x y with
  | step e ih =>
    by_cases operator : e.isOperator = true
    · rw [evaluate_isOperator operator, Outcome.bind_ok] at left right
      obtain ⟨xs, values, left⟩ := left
      obtain ⟨ys, others, right⟩ := right
      have same : xs = ys := by
        refine evaluateAll_blind (fun c member u v => ?_) values others
        exact ih c member fun name inside => reads name (attributes_child member inside)
      subst same
      exact Except.ok.inj (left.symm.trans right)
    · cases e with
      | attr cls name =>
          rw [evaluate] at left right
          rw [agree.lookup (reads name (attributes_own rfl))] at left
          exact Except.ok.inj (left.symm.trans right)
      | adjust cls shift amount =>
          rw [evaluate, agree.lookup (reads _ (attributes_own rfl))] at left
          rw [evaluate] at right
          exact Except.ok.inj (left.symm.trans right)
      | call cls policy => exact blind policy r s x y agree left right
      | lit cls value => exact Except.ok.inj (left.symm.trans right)
      | inList _ _ _ _ | namedSet _ _ | unsupported _ _ =>
          rw [evaluate] at left
          cases left
      | _ => exact absurd rfl operator

end Expr

namespace Execution

/-! ### Two runs -/

/-- Threads under the same conditions, over records that agree. -/
structure AlikeThreads (U : Set Attribute) (t u : Thread) : Prop where
  condition : t.condition = u.condition
  record : t.record.AgreeOn U u.record

/-- Ended threads that end in the same way besides. -/
def AlikeEnded (U : Set Attribute) (x y : Ended) : Prop := AlikeThreads U x.1 y.1 ∧ x.2 = y.2

/-- Results with as many paths, each alike. -/
def AlikeResults (U : Set Attribute) (a b : List Ended × Nat) : Prop :=
  List.Forall₂ (AlikeEnded U) a.1 b.1 ∧ a.2 = b.2

variable {frame : Frame}

omit [Arithmetic] in
theorem AlikeThreads.log {t u : Thread} (alike : AlikeThreads U t u) (event other : Event) :
    AlikeThreads U (t.log event) (u.log other) := ⟨alike.condition, alike.record⟩

omit [Arithmetic] in
theorem AlikeThreads.assuming {t u : Thread} (alike : AlikeThreads U t u) (c : Expr) :
    AlikeThreads U (t.assuming c) (u.assuming c) :=
  ⟨congrArg (· ++ [c]) alike.condition, alike.record⟩

omit [Arithmetic] in
theorem resume_alike {run : Thread → Nat → Threads}
    (rest : ∀ t u n a b, AlikeThreads U t u → run t n = .ok a → run u n = .ok b →
      AlikeResults U a b) {first others : List Ended}
    (alike : List.Forall₂ (AlikeEnded U) first others) {n : Nat} {a b : List Ended × Nat}
    (left : resume run first n = .ok a) (right : resume run others n = .ok b) :
    AlikeResults U a b := by
  induction alike generalizing n a b with
  | nil =>
      cases left
      cases right
      exact ⟨.nil, rfl⟩
  | @cons x y xs ys here _ ih =>
      obtain ⟨t, ending⟩ := x
      obtain ⟨u, ending'⟩ := y
      obtain ⟨threads, same⟩ := here
      dsimp only at threads same
      subst same
      cases ending with
      | some disposition =>
          obtain ⟨⟨later, m⟩, resumed, same⟩ := Outcome.bind_ok.mp left
          cases same
          obtain ⟨⟨later', m'⟩, resumed', same⟩ := Outcome.bind_ok.mp right
          cases same
          obtain ⟨paths, count⟩ := ih resumed resumed'
          exact ⟨.cons ⟨threads, rfl⟩ paths, count⟩
      | none =>
          obtain ⟨⟨own, m⟩, ran, left⟩ := Outcome.bind_ok.mp left
          obtain ⟨⟨later, k⟩, resumed, same⟩ := Outcome.bind_ok.mp left
          cases same
          obtain ⟨⟨own', m'⟩, ran', right⟩ := Outcome.bind_ok.mp right
          obtain ⟨⟨later', k'⟩, resumed', same⟩ := Outcome.bind_ok.mp right
          cases same
          obtain ⟨paths, count⟩ := rest t u n _ _ threads ran ran'
          dsimp only at count resumed resumed'
          subst count
          obtain ⟨further, count⟩ := ih resumed resumed'
          exact ⟨List.rel_append paths further, count⟩

/-- A known guard decides alike for threads that are alike. -/
theorem runBranch_alike {here : Position} {onTrue onFalse : List Statement}
    (enters : ∀ taken symbolic t u n a b, AlikeThreads U t u →
      enter frame here onTrue onFalse taken symbolic t n = .ok a →
      enter frame here onTrue onFalse taken symbolic u n = .ok b → AlikeResults U a b)
    {t u : Thread} (alike : AlikeThreads U t u) {n : Nat} {value : Expr} {a b : List Ended × Nat}
    (left : runBranch frame here onTrue onFalse t n value = .ok a)
    (right : runBranch frame here onTrue onFalse u n value = .ok b) : AlikeResults U a b := by
  unfold runBranch at left right
  rw [← alike.condition] at right
  cases chosen : choice t.condition value with
  | some taken =>
      rw [chosen] at left right
      exact enters _ _ _ _ _ _ _ alike left right
  | none =>
      rw [chosen] at left right
      dsimp only at left right
      by_cases room : frame.limit < n + 1
      · rw [if_pos room] at left
        cases left
      · rw [if_neg room] at left right
        obtain ⟨⟨first, m⟩, ran, left⟩ := Outcome.bind_ok.mp left
        obtain ⟨⟨second, k⟩, rerun, same⟩ := Outcome.bind_ok.mp left
        cases same
        obtain ⟨⟨first', m'⟩, ran', right⟩ := Outcome.bind_ok.mp right
        obtain ⟨⟨second', k'⟩, rerun', same⟩ := Outcome.bind_ok.mp right
        cases same
        obtain ⟨paths, count⟩ := enters _ _ _ _ _ _ _ (alike.assuming value) ran ran'
        dsimp only at count rerun rerun'
        subst count
        obtain ⟨others, count⟩ := enters _ _ _ _ _ _ _ (alike.assuming value.negate) rerun rerun'
        exact ⟨List.rel_append paths others, count⟩

mutual

/-- A statement runs alike from threads that are alike. -/
theorem runStatement_alike (blind : frame.calls.Blind U) (here : Position) (s : Statement)
    (spares : Statement.Spares U s.guards s.targets) {t u : Thread} (alike : AlikeThreads U t u)
    {n : Nat} {a b : List Ended × Nat} (left : runStatement frame here s t n = .ok a)
    (right : runStatement frame here s u n = .ok b) : AlikeResults U a b := by
  cases s with
  | finish cls disposition =>
      cases left
      cases right
      exact ⟨.cons ⟨alike.log _ _, rfl⟩ .nil, rfl⟩
  | assign cls target value =>
      rw [runStatement] at left right
      obtain ⟨⟨x, record⟩, stepped, same⟩ := Outcome.bind_ok.mp left
      cases same
      obtain ⟨⟨y, other⟩, stepped', same⟩ := Outcome.bind_ok.mp right
      cases same
      obtain ⟨_, -, stepped⟩ := Outcome.bind_ok.mp (Outcome.inContext_ok.mp stepped)
      obtain ⟨_, assigned, same⟩ := Outcome.bind_ok.mp stepped
      cases same
      obtain ⟨_, -, stepped'⟩ := Outcome.bind_ok.mp (Outcome.inContext_ok.mp stepped')
      obtain ⟨_, assigned', same⟩ := Outcome.bind_ok.mp stepped'
      cases same
      have outside := spares.assigns target.toAttribute (List.mem_singleton_self _)
      have records := ((Record.AgreeOn.assign outside assigned).symm.trans alike.record).trans
        (.assign outside assigned')
      exact ⟨.cons ⟨⟨alike.condition, records⟩, rfl⟩ .nil, rfl⟩
  | branch cls guard onTrue onFalse comment =>
      have inside : Statement.Spares U (Statement.guardsAll onTrue ++ Statement.guardsAll onFalse)
          (Statement.targetsAll onTrue ++ Statement.targetsAll onFalse) :=
        ⟨fun e member => spares.reads e (List.mem_cons_of_mem guard member), spares.assigns⟩
      rw [runStatement_branch] at left right
      obtain ⟨value, known, left⟩ := Outcome.bind_ok.mp left
      obtain ⟨other, known', right⟩ := Outcome.bind_ok.mp right
      have same : value = other := Expr.evaluate_blind blind alike.record
        (spares.reads guard List.mem_cons_self) (guardValue_ok (Outcome.inContext_ok.mp known))
        (guardValue_ok (Outcome.inContext_ok.mp known'))
      subst same
      refine runBranch_alike (fun taken symbolic t u n a b alike left right => ?_) alike left right
      cases taken with
      | true => exact runBlock_alike blind _ 0 onTrue inside.left (alike.log _ _) left right
      | false => exact runBlock_alike blind _ 0 onFalse inside.right (alike.log _ _) left right

/-- A block runs alike from threads that are alike. -/
theorem runBlock_alike (blind : frame.calls.Blind U) (above : Position) (i : Nat)
    (block : List Statement)
    (spares : Statement.Spares U (Statement.guardsAll block) (Statement.targetsAll block))
    {t u : Thread} (alike : AlikeThreads U t u) {n : Nat} {a b : List Ended × Nat}
    (left : runBlock frame above i block t n = .ok a)
    (right : runBlock frame above i block u n = .ok b) : AlikeResults U a b := by
  cases block with
  | nil =>
      cases left
      cases right
      exact ⟨.cons ⟨alike, rfl⟩ .nil, rfl⟩
  | cons s rest =>
      rw [runBlock] at left right
      obtain ⟨⟨first, m⟩, ran, left⟩ := Outcome.bind_ok.mp left
      obtain ⟨⟨others, m'⟩, ran', right⟩ := Outcome.bind_ok.mp right
      obtain ⟨paths, count⟩ := runStatement_alike blind _ s spares.left alike ran ran'
      dsimp only at count left right
      subst count
      refine resume_alike (fun t u n a b alike left right => ?_) paths left right
      exact runBlock_alike blind above (i + 1) rest spares.right alike left right

end

/-! ### Calls -/

omit [Arithmetic] in
/-- The condition under which an evaluation ends in a disposition, read off the conditions of its
paths. -/
theorem residual_eq (paths : List Path) (d : Disposition) : residual paths d =
    if (paths.filter (·.disposition = d)).map Path.condition = [] then .bool false
    else (Expr.any (((paths.filter (·.disposition = d)).map Path.condition).map .all)).simplify := by
  unfold residual
  cases paths.filter (·.disposition = d) with
  | nil => rfl
  | cons p rest =>
      rw [List.map_map, List.map_cons, if_neg (List.cons_ne_nil _ _)]
      rfl

omit [Arithmetic] in
theorem residual_congr {paths others : List Path} {d : Disposition}
    (same : List.Forall₂ (fun p q => p.disposition = q.disposition ∧ p.condition = q.condition)
      paths others) : residual paths d = residual others d := by
  have conditions : (paths.filter (·.disposition = d)).map Path.condition =
      (others.filter (·.disposition = d)).map Path.condition := by
    induction same with
    | nil => rfl
    | cons here _ ih =>
        rw [List.filter_cons, List.filter_cons, here.1]
        split
        · rw [List.map_cons, List.map_cons, here.2, ih]
        · exact ih
  rw [residual_eq, residual_eq, conditions]

/-- Calls of policies that spare what guards read do not see what else a record holds. -/
theorem callsFrom_blind {table : Table Policy} (spare : ∀ p ∈ table.values,
    Statement.Spares U (Statement.guardsAll p.statements) (Statement.targetsAll p.statements))
    (limit : Int) (stack : List String) : (callsFrom table limit stack).Blind U := by
  intro name r s x y agree left right
  obtain ⟨fresh, p, paths, found, first, rfl⟩ := callsFrom_ok.mp left
  obtain ⟨-, q, paths', also, second, rfl⟩ := callsFrom_ok.mp right
  rw [found] at also
  cases also
  have smaller := idle_lt fresh found
  have blind := callsFrom_blind spare limit (stack ++ [name])
  obtain ⟨ended, n, ran, rfl⟩ := runPolicy_ok.mp first
  obtain ⟨others, m, rerun, rfl⟩ := runPolicy_ok.mp second
  have known : p ∈ table.values := List.mem_map.mpr ⟨_, Table.mem_of_get? found, rfl⟩
  have start : AlikeThreads U ⟨r, [], []⟩ ⟨s, [], []⟩ := ⟨rfl, agree⟩
  obtain ⟨alike, -⟩ := runBlock_alike blind [] 0 p.statements (spare p known) start ran rerun
  apply residual_congr
  rw [List.forall₂_map_left_iff, List.forall₂_map_right_iff]
  refine alike.imp fun x y alike => ?_
  rw [toPath_disposition, toPath_disposition, toPath_condition, toPath_condition, alike.2,
    alike.1.condition]
  exact ⟨rfl, rfl⟩
termination_by (idle table stack).length
decreasing_by exact smaller

/-! ### One run -/

/-- A thread that started from a record and under conditions of a set, and has stayed there. -/
structure Stays (U : Set Attribute) (origin : Record) (K : Set Expr) (t : Thread) : Prop where
  record : origin.AgreeOn U t.record
  condition : ∀ c ∈ t.condition, c ∈ K

/-- The values that a guard has over records that agree with the one a route started with. -/
def Values (U : Set Attribute) (calls : Calls) (origin : Record) (guard : Expr) : Set Expr :=
  {value | ∃ r, origin.AgreeOn U r ∧ guard.evaluate calls r = .ok value}

/-- A guard that spares has one value at most. -/
theorem values_subsingleton {calls : Calls} (blind : calls.Blind U) {guard : Expr}
    (reads : ∀ name ∈ guard.attributes, name ∈ U) (origin : Record) :
    (Values U calls origin guard).Subsingleton := by
  rintro x ⟨r, first, left⟩ y ⟨s, second, right⟩
  exact Expr.evaluate_blind blind (first.symm.trans second) reads left right

variable {origin : Record} {K : Set Expr}

omit [Arithmetic] in
theorem Stays.log {t : Thread} (stays : Stays U origin K t) (event : Event) :
    Stays U origin K (t.log event) := ⟨stays.record, stays.condition⟩

omit [Arithmetic] in
theorem Stays.assuming {t : Thread} (stays : Stays U origin K t) {c : Expr} (inside : c ∈ K) :
    Stays U origin K (t.assuming c) :=
  ⟨stays.record, List.forall_mem_append.mpr
    ⟨stays.condition, List.forall_mem_singleton.mpr inside⟩⟩

mutual

/-- Along a statement, records stay in agreement with the origin, and conditions in a set that holds
the values of guards and their negations. -/
theorem runStatement_stays (here : Position) (s : Statement)
    (spares : Statement.Spares U s.guards s.targets)
    (admits : ∀ guard ∈ s.guards, ∀ value ∈ Values U frame.calls origin guard,
      value ∈ K ∧ value.negate ∈ K)
    {t : Thread} (stays : Stays U origin K t) {n m : Nat} {ended : List Ended}
    (ran : runStatement frame here s t n = .ok (ended, m)) :
    ∀ x ∈ ended, Stays U origin K x.1 := by
  cases s with
  | finish cls disposition =>
      cases ran
      exact List.forall_mem_singleton.mpr (stays.log _)
  | assign cls target value =>
      rw [runStatement] at ran
      obtain ⟨⟨x, record⟩, stepped, same⟩ := Outcome.bind_ok.mp ran
      cases same
      obtain ⟨_, -, stepped⟩ := Outcome.bind_ok.mp (Outcome.inContext_ok.mp stepped)
      obtain ⟨_, assigned, same⟩ := Outcome.bind_ok.mp stepped
      cases same
      have outside := spares.assigns target.toAttribute (List.mem_singleton_self _)
      exact List.forall_mem_singleton.mpr
        ⟨stays.record.trans (.assign outside assigned), stays.condition⟩
  | branch cls guard onTrue onFalse comment =>
      have inside : Statement.Spares U (Statement.guardsAll onTrue ++ Statement.guardsAll onFalse)
          (Statement.targetsAll onTrue ++ Statement.targetsAll onFalse) :=
        ⟨fun e member => spares.reads e (List.mem_cons_of_mem guard member), spares.assigns⟩
      have first := fun e member => admits e (List.mem_cons_of_mem guard
        (List.mem_append_left (Statement.guardsAll onFalse) member))
      have second := fun e member => admits e (List.mem_cons_of_mem guard
        (List.mem_append_right (Statement.guardsAll onTrue) member))
      obtain ⟨value, known, ⟨taken, symbolic, -, run⟩ |
        ⟨trues, falses, between, rfl, runTrue, runFalse⟩⟩ := branch_ok ran
      · cases taken with
        | true => exact runBlock_stays _ 0 onTrue inside.left first (stays.log _) run
        | false => exact runBlock_stays _ 0 onFalse inside.right second (stays.log _) run
      · obtain ⟨positive, negative⟩ := admits guard List.mem_cons_self value
          ⟨t.record, stays.record, guardValue_ok known⟩
        exact List.forall_mem_append.mpr
          ⟨runBlock_stays _ 0 onTrue inside.left first ((stays.assuming positive).log _) runTrue,
            runBlock_stays _ 0 onFalse inside.right second ((stays.assuming negative).log _)
              runFalse⟩

theorem runBlock_stays (above : Position) (i : Nat) (block : List Statement)
    (spares : Statement.Spares U (Statement.guardsAll block) (Statement.targetsAll block))
    (admits : ∀ guard ∈ Statement.guardsAll block, ∀ value ∈ Values U frame.calls origin guard,
      value ∈ K ∧ value.negate ∈ K)
    {t : Thread} (stays : Stays U origin K t) {n m : Nat} {ended : List Ended}
    (ran : runBlock frame above i block t n = .ok (ended, m)) :
    ∀ x ∈ ended, Stays U origin K x.1 := by
  cases block with
  | nil =>
      cases ran
      exact List.forall_mem_singleton.mpr stays
  | cons s rest =>
      rw [runBlock] at ran
      obtain ⟨⟨first, between⟩, ran, resumed⟩ := Outcome.bind_ok.mp ran
      have here := runStatement_stays _ s spares.left
        (fun e member => admits e (List.mem_append_left _ member)) stays ran
      intro x member
      rcases mem_resume resumed member with
        ⟨early, -⟩ | ⟨u, before, ended, later, early, rerun, found⟩
      · exact here x early
      · exact runBlock_stays above (i + 1) rest spares.right
          (fun e member => admits e (List.mem_append_right _ member)) (here _ early) rerun x found

end

end Execution

/-! ### Chains -/

namespace Chain

variable {J : Thread → Prop} {given : Assumed} {policies : List Policy}

/-- What every policy of a chain keeps from the threads it is run from to its paths, a run of the
chain keeps. -/
theorem run_keeps (keeps : ∀ p ∈ policies, ∀ t paths, J t → extend given p t = .ok paths →
      ∀ path ∈ paths, J (toThread path))
    (last : String) {finished : List Path} (ended : ∀ path ∈ finished, J (toThread path))
    {passed : List Thread} (each : ∀ t ∈ passed, J t)
    (drops : ∀ t last, J t → J (toThread (dropped last t))) {paths : List Path}
    (ran : run given last finished passed policies = .ok paths) :
    ∀ path ∈ paths, J (toThread path) := by
  induction policies generalizing last finished passed with
  | nil =>
      cases ran
      refine List.forall_mem_append.mpr ⟨ended, List.forall_mem_map.mpr fun t member => ?_⟩
      exact drops t last (each t member)
  | cons p rest ih =>
      obtain ⟨here, later⟩ := List.forall_mem_cons.mp keeps
      obtain ⟨own, extended, ran⟩ := Outcome.bind_ok.mp ran
      have kept : ∀ path ∈ own, J (toThread path) := by
        intro path member
        obtain ⟨t, among, found, extends', inside⟩ := mem_extendAll extended member
        exact here t found (each t among) extends' path inside
      dsimp only at ran
      split at ran
      · cases ran
      · refine ih later _ ?_ ?_ ran
        · exact List.forall_mem_append.mpr
            ⟨ended, fun path member => kept path (List.mem_filter.mp member).1⟩
        · exact List.forall_mem_map.mpr fun path member => kept path (List.mem_filter.mp member).1

end Chain

open Execution

/-- Along a chain whose policies spare what guards read, records stay in agreement with the origin,
and conditions in a set that holds the values of guards and their negations. -/
theorem evaluateChain_stays {origin : Record} {K : Set Expr} {given : Assumed}
    {policies : List Policy} (spare : ∀ p ∈ policies,
      Statement.Spares U (Statement.guardsAll p.statements) (Statement.targetsAll p.statements))
    (admits : ∀ p ∈ policies, ∀ guard ∈ Statement.guardsAll p.statements,
      ∀ value ∈ Values U (callsFrom given.table given.limit [p.name]) origin guard,
        value ∈ K ∧ value.negate ∈ K)
    {r : Record} (stays : Stays U origin K ⟨r, given.assumptions, []⟩) {paths : List Path}
    (ran : evaluateChain given policies r = .ok paths) :
    ∀ path ∈ paths, Stays U origin K (Chain.toThread path) := by
  cases policies with
  | nil =>
      cases ran
      exact List.forall_mem_singleton.mpr stays
  | cons p rest =>
      refine Chain.run_keeps (fun p member t paths holds extended => ?_) p.name
        (List.forall_mem_nil _) (List.forall_mem_singleton.mpr stays)
        (fun t last holds => ⟨holds.record, holds.condition⟩) ran
      obtain ⟨own, evaluated, rfl⟩ := Chain.extend_ok.mp extended
      obtain ⟨ended, m, ran, rfl⟩ := runPolicy_ok.mp evaluated
      have start : Stays U origin K ⟨t.record, t.condition, []⟩ := ⟨holds.record, holds.condition⟩
      have kept := runBlock_stays [] 0 p.statements (spare p member) (admits p member) start ran
      simp only [List.forall_mem_map]
      intro x inside
      obtain ⟨record, condition⟩ := kept x inside
      constructor
      · rw [Chain.toThread, toPath_record]
        exact record
      · rw [Chain.toThread, toPath_condition]
        exact condition

end RoutePolicy
