import RoutePolicy.Proofs.Nodes
import RoutePolicy.Proofs.SafeIntegers
import RoutePolicy.Record
import RoutePolicy.Execution

/-!
Tours of a policy. A tour starts at the first statement, takes at every branching statement the
branch that it is told for the location of the statement, and goes on behind it; it ends at the first
statement that returns, or behind the last statement of the policy. A location is a text, such as
`1.true.0`, and no two positions have the same one.
-/

set_option autoImplicit false

namespace RoutePolicy

/-! ### Locations -/

namespace Position

theorem toList_index (i : Nat) : (turnText (.index i)).toList = Nat.toDigits 10 i := by
  simp [turnText]

theorem point_not_mem (turn : Turn) : '.' ∉ (turnText turn).toList := by
  cases turn with
  | index i =>
      rw [toList_index]
      intro member
      exact absurd (Nat.isDigit_of_mem_toDigits (by decide) (by decide) member) (by decide)
  | branch taken => cases taken <;> decide

theorem turnText_ne_nil (turn : Turn) : (turnText turn).toList ≠ [] := by
  cases turn with
  | index i =>
      rw [toList_index]
      exact Nat.toDigits_ne_nil
  | branch taken => cases taken <;> decide

theorem turnText_inj {a b : Turn} (same : turnText a = turnText b) : a = b := by
  have apart : ∀ (i : Nat) (taken : Bool), turnText (.index i) ≠ turnText (.branch taken) := by
    intro i taken same
    have digits : (turnText (.branch taken)).toList.all Char.isDigit = true := by
      rw [← same, toList_index, List.all_eq_true]
      exact fun c => Nat.isDigit_of_mem_toDigits (by decide) (by decide)
    cases taken <;> exact absurd digits (by decide)
  cases a with
  | index i =>
      cases b with
      | index j =>
          have digits := congrArg String.toList same
          rw [toList_index, toList_index] at digits
          rw [Number.toDigits_inj digits]
      | branch taken => exact absurd same (apart i taken)
  | branch taken =>
      cases b with
      | index j => exact absurd same.symm (apart j taken)
      | branch other => cases taken <;> cases other <;> first | rfl | exact absurd same (by decide)

/-- The parts of a location are read back at the points. -/
theorem splitOn_text {position : Position} (some : position ≠ []) :
    position.text.toList.splitOn '.' = position.map fun turn => (turnText turn).toList := by
  rw [text, String.toList_intercalate, List.map_map]
  refine List.splitOn_intercalate '.' (List.forall_mem_map.mpr fun turn _ => point_not_mem turn) ?_
  simpa using some

/-- A location is the text of one position only. -/
theorem text_inj {a b : Position} (same : a.text = b.text) : a = b := by
  have empty : ∀ {turn : Turn} {rest : Position}, text (turn :: rest) ≠ text [] := by
    intro turn rest same
    have parts := splitOn_text (List.cons_ne_nil turn rest)
    rw [same] at parts
    exact turnText_ne_nil turn (List.cons.inj parts).1.symm
  cases a with
  | nil =>
      cases b with
      | nil => rfl
      | cons turn rest => exact absurd same.symm empty
  | cons turn rest =>
      cases b with
      | nil => exact absurd same empty
      | cons other later =>
          have parts := splitOn_text (List.cons_ne_nil turn rest)
          rw [same, splitOn_text (List.cons_ne_nil other later)] at parts
          refine List.map_injective_iff.mpr ?_ parts.symm
          exact fun _ _ same => turnText_inj (String.toList_injective same)

end Position

/-! ### Positions in a policy -/

namespace Statement

/-- The statement at a position below another one. -/
def below? : Statement → Position → Option Statement
  | s, [] => some s
  | branch _ _ onTrue onFalse _, .branch taken :: .index i :: rest =>
    ((if taken then onTrue else onFalse)[i]?).bind (below? · rest)
  | _, _ => none

end Statement

/-- The statement at a position of a policy. -/
def Policy.statementAt? (p : Policy) : Position → Option Statement
  | .index i :: rest => (p.statements[i]?).bind (·.below? rest)
  | _ => none

/-! ### Tours -/

/-- The statements that a tour comes to, with their positions, and the disposition it ends with. There
is none if it reaches the end of the statements. -/
structure Tour where
  visits : List (Position × Statement)
  ending : Option Disposition

def Statement.returns : Statement → Bool
  | finish _ _ => true
  | _ => false

/-- A tour that ends with a disposition ends at a statement that returns it, which is the first one
that returns; a tour through all statements comes to none that returns. -/
def Tour.Stops (tour : Tour) : Prop :=
  match tour.ending with
  | some disposition => ∃ before here cls,
    tour.visits = before ++ [(here, .finish cls disposition)] ∧ ∀ v ∈ before, v.2.returns = false
  | none => ∀ v ∈ tour.visits, v.2.returns = false

/-- Statements that do not return may come before. -/
theorem Tour.Stops.after {visits behind : List (Position × Statement)} {ending : Option Disposition}
    (stops : Tour.Stops ⟨behind, ending⟩) (before : ∀ v ∈ visits, v.2.returns = false) :
    Tour.Stops ⟨visits ++ behind, ending⟩ := by
  cases ending with
  | none => exact List.forall_mem_append.mpr ⟨before, stops⟩
  | some disposition =>
      obtain ⟨between, here, cls, rfl, silent⟩ := stops
      exact ⟨visits ++ between, here, cls, (List.append_assoc _ _ _).symm,
        List.forall_mem_append.mpr ⟨before, silent⟩⟩

namespace Statement

mutual

/-- The tour through a statement, if it is told a branch wherever it has to choose one. -/
def tour (takes : String → Option Bool) (here : Position) : Statement → Option Tour
  | finish cls disposition => some ⟨[(here, finish cls disposition)], some disposition⟩
  | assign cls target value => some ⟨[(here, assign cls target value)], none⟩
  | branch cls guard onTrue onFalse comment => do
    let taken ← takes here.text
    let inside ← if taken then tourAll takes (here ++ [.branch true]) 0 onTrue
      else tourAll takes (here ++ [.branch false]) 0 onFalse
    some ⟨(here, branch cls guard onTrue onFalse comment) :: inside.visits, inside.ending⟩

/-- The tour through the statements of a block, the first of which has the given number. -/
def tourAll (takes : String → Option Bool) (above : Position) (i : Nat) :
    List Statement → Option Tour
  | [] => some ⟨[], none⟩
  | s :: rest => do
    let first ← tour takes (above ++ [.index i]) s
    match first.ending with
    | some disposition => some ⟨first.visits, some disposition⟩
    | none => do
      let later ← tourAll takes above (i + 1) rest
      some ⟨first.visits ++ later.visits, later.ending⟩

end

end Statement

/-- The tour through a policy. -/
def Policy.tour (takes : String → Option Bool) (p : Policy) : Option Tour :=
  Statement.tourAll takes [] 0 p.statements

/-! ### Events of a tour -/

namespace Event

/-- The branch that an event records for a location. -/
def takenAt? (location : String) : Event → Option Bool
  | branch _ position taken _ => if position.text = location then some taken else none
  | _ => none

/-- The attribute that an event records an assignment to. -/
def assigned? : Event → Option Attribute
  | assign _ _ target _ => some target.toAttribute
  | _ => none

/-- An event records what a policy does at a statement. -/
inductive Records (policy : String) : Event → Position × Statement → Prop
  | branch {here : Position} {cls : Spelling} {guard : Expr} {onTrue onFalse : List Statement}
      {comment : Comment} (taken symbolic : Bool) :
      Records policy (.branch policy here taken symbolic)
        (here, .branch cls guard onTrue onFalse comment)
  | assign {here : Position} {cls : Spelling} {target : Settable} {value : Expr} (symbolic : Bool) :
      Records policy (.assign policy here target symbolic) (here, .assign cls target value)
  | finish {here : Position} {cls : Spelling} {disposition : Disposition} :
      Records policy (.finish policy here disposition) (here, .finish cls disposition)

/-- A branch that an event records is the one that a tour is told. -/
def Told (takes : String → Option Bool) : Event → Prop
  | branch _ position taken _ => takes position.text = some taken
  | _ => True

end Event

/-- The branch that a trace records for a location. -/
def recorded (trace : List Event) (location : String) : Option Bool :=
  trace.findSome? (·.takenAt? location)

/-- A trace tells the branches it records, if no statement occurs in it twice. -/
theorem told_recorded {policy : String} {events : List Event}
    {visits : List (Position × Statement)}
    (records : List.Forall₂ (Event.Records policy) events visits)
    (distinct : (visits.map Prod.fst).Nodup) (later : List Event) :
    ∀ x ∈ events, x.Told (recorded (events ++ later)) := by
  induction records with
  | nil => exact List.forall_mem_nil _
  | @cons x v events visits own records ih =>
      obtain ⟨fresh, distinct⟩ := List.nodup_cons.mp distinct
      refine List.forall_mem_cons.mpr ⟨?_, fun y member => ?_⟩
      · cases own with
        | branch taken symbolic => simp [Event.Told, recorded, Event.takenAt?]
        | assign symbolic => trivial
        | finish => trivial
      · -- the first event is at another location than the later ones
        have told := ih distinct y member
        obtain ⟨w, among, own'⟩ := exists_of_forall₂ records member
        cases own' with
        | branch taken symbolic =>
            rename_i here _ _ _ _ _
            have apart : v.1 ≠ here := by
              intro same
              rw [same] at fresh
              exact fresh (List.mem_map_of_mem among)
            have silent : x.takenAt? here.text = none := by
              cases own with
              | branch taken symbolic =>
                  exact if_neg fun same => apart (Position.text_inj same)
              | assign symbolic => rfl
              | finish => rfl
            simp only [Event.Told, recorded, List.cons_append, List.findSome?_cons, silent] at told ⊢
            exact told
        | assign symbolic => trivial
        | finish => trivial

end RoutePolicy
