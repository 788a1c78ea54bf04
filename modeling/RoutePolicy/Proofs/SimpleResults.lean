import RoutePolicy.Proofs.Complements
import RoutePolicy.Proofs.GivenRoutes
import RoutePolicy.Proofs.LiteralEvaluation
import RoutePolicy.Proofs.Policies

/-!
Evaluation and simplification. Over the attributes of the incoming route an expression is evaluated
to what it is simplified to, and over slots that simplification leaves alone every result is left
alone by it.
-/

set_option autoImplicit false

namespace RoutePolicy

/-- A shift of the local preference, if the node is one, is by a positive amount. -/
def Expr.shiftsUp : Expr → Bool
  | adjust _ _ amount => 0 < amount
  | _ => true

/-- An expression that simplification leaves alone, up to spelling. -/
def Expr.Fixed (e : Expr) : Prop := e.simplify.same e = true

/-- A record of slots that simplification leaves alone. -/
def Record.Fixed (r : Record) : Prop := ∀ slot ∈ r.slots, slot.2.Fixed

namespace Expr

variable {e x : Expr}

/-! ### Fixed expressions -/

/-- What simplification leaves alone up to spelling it leaves alone altogether. -/
theorem fixed_iff : e.Fixed ↔ e.Each Normal := by
  constructor
  · intro fixed
    refine each_of_same (fun a b equal normal => ?_) (same_iff.mpr (same_iff.mp fixed).symm)
      (each_normal_simplify e)
    exact normal.of_same (same_iff.mpr (same_iff.mp equal).symm)
  · intro normal
    rw [Fixed, simplify_eq_self_iff.mpr normal]
    exact same_iff.mpr rfl

theorem offset_delta {amount : Int} (positive : 0 < amount) (shift : Shift) :
    Expr.offset (shift.delta amount) = .adjust none shift amount := by
  cases shift with
  | increment =>
      rw [offset, Shift.delta, if_neg positive.ne', if_pos positive]
  | decrement =>
      rw [offset, Shift.delta, if_neg (by omega), if_neg (by omega), Int.neg_neg]

/-! ### Evaluation over the incoming route -/

theorem lookup_symbolic (name : Attribute) :
    (Record.symbolic Attribute.all).lookup name = .ok (.ref name) := by
  cases name <;> rfl

variable [Arithmetic] {calls : Calls} {r : Record}

/-- Over the incoming route an expression that names nothing has its simplified form for a result. -/
theorem evaluate_symbolic (proper : e.Each Proper) (resolved : e.Each (·.isResolved = true))
    (shifts : e.Each (·.shiftsUp = true)) :
    ∃ x, e.evaluate calls (Record.symbolic Attribute.all) = .ok x ∧
      x.content = e.simplify.content := by
  induction e using childrenInduction with
  | step e ih =>
    by_cases operator : e.isOperator = true
    · obtain ⟨xs, computed, simple⟩ := exists_forall₂_of_mem fun part member =>
        ih part member (proper.child member) (resolved.child member) (shifts.child member)
      have lengths := computed.length_eq.symm
      have contents : xs.map content = (e.children.map simplify).map content := by
        rw [List.map_map]
        exact map_eq_iff_forall₂.mpr simple.flip
      -- simplification keeps types, so the operator takes the results of its operands
      have types : xs.map type = e.children.map type := by
        refine map_eq_iff_forall₂.mpr (forall₂_of_mem simple fun part member x _ equal => ?_).flip
        exact (sameShape_of_same (same_iff.mpr equal)).type.trans
          (proper_typed.eachOf_simplify (proper.child member)).2
      have fits := (fitted_withChildren types).trans proper.root.fits
      refine ⟨_, (evaluate_operator operator).mpr ⟨xs, computed, fits, rfl⟩, ?_⟩
      rw [simplify_eq, settle_content]
      exact simplifyNode_congr lengths contents
    · cases e with
      | lit cls l => exact ⟨_, rfl, rfl⟩
      | attr cls name => exact ⟨.ref name, lookup_symbolic name, rfl⟩
      | adjust cls shift amount =>
          refine ⟨.offset (shift.delta amount), ?_, ?_⟩
          · rw [evaluate, lookup_symbolic]
            rfl
          · rw [offset_delta (of_decide_eq_true shifts.root)]
            rfl
      | call _ _ | inList _ _ _ _ | namedSet _ _ | unsupported _ _ => cases resolved.root
      | _ => exact absurd rfl operator

/-! ### Results that are simple -/

omit [Arithmetic] in
theorem normal_offset (delta : Int) : (Expr.offset delta).Each Normal := by
  unfold offset
  split
  · exact each_leaf trivial rfl
  · split
    · exact each_leaf trivial rfl
    · exact each_leaf trivial rfl

theorem normal_moved {current : Expr} {delta : Int} (moved : current.moved delta = .ok x) :
    x.Each Normal := by
  unfold Expr.moved at moved
  split at moved
  · cases moved
    exact each_leaf trivial rfl
  · cases moved
    exact normal_offset _
  · cases moved
    exact normal_offset _
  · cases moved

/-- Results over simple slots are simple, if the answers of calls are. -/
theorem evaluate_normal (slots : ∀ slot ∈ r.slots, slot.2.Each Normal)
    (answers : ∀ policy y, calls policy r = .ok y → y.Each Normal)
    (value : e.evaluate calls r = .ok x) : x.Each Normal := by
  induction e using childrenInduction generalizing x with
  | step e ih =>
    by_cases operator : e.isOperator = true
    · obtain ⟨xs, operands, -, rfl⟩ := (evaluate_operator operator).mp value
      refine each_normal_simplifyNode ?_
      rw [children_withChildren operands.length_eq.symm]
      exact forall₂_right operands (fun _ member => member) fun part y member known =>
        ih part member known
    · cases e with
      | lit cls l =>
          cases value
          exact each_leaf trivial rfl
      | attr cls name => exact slots _ (Record.mem_of_get? (Record.lookup_ok.mp value))
      | adjust cls shift amount =>
          obtain ⟨current, -, moved⟩ := Outcome.bind_ok.mp value
          exact normal_moved moved
      | call cls policy => exact answers policy x value
      | inList _ _ _ _ | namedSet _ _ | unsupported _ _ => cases value
      | _ => exact absurd rfl operator

end Expr

/-! ### Records and calls -/

/-- What a call is answered is simple. -/
theorem Execution.callsFrom_fixed [Arithmetic] {table : Table Policy} {limit : Int}
    {stack : List String} {policy : String} {r : Record} {x : Expr}
    (answered : callsFrom table limit stack policy r = .ok x) : x.Fixed := by
  obtain ⟨-, p, paths, -, -, rfl⟩ := callsFrom_ok.mp answered
  rw [Expr.fixed_iff, residual]
  split
  · exact Expr.each_bool false
  · exact Expr.each_normal_simplify _

namespace Record

variable {r s : Record}

theorem fixed_of_ofGiven {values : List Given} {openSlots : Bool}
    (given : ofGiven values openSlots = .ok r) : r.Fixed := by
  intro slot member
  rw [Expr.fixed_iff]
  rcases mem_ofGiven given slot member with ⟨l, own, -⟩ | ⟨-, own⟩
  · exact own ▸ Expr.each_leaf trivial rfl
  · exact own ▸ Expr.each_leaf trivial rfl

theorem Fixed.assign (fixed : r.Fixed) {name : Attribute} {x : Expr} (own : x.Fixed)
    (assigned : r.assign name x = .ok s) : s.Fixed :=
  forall_assign (P := fun slot => slot.2.Fixed) fixed own assigned

end Record

/-- Evaluation and simplification agree. Over the attributes of the incoming route the result of an
expression is its simplified form; and over any record of simple slots, as records of given values
are and stay when results are assigned, every result is simple if the answers of calls are. -/
theorem evaluation_simplifies [Arithmetic] (calls : Calls) :
    (∀ e : Expr, e.wellTyped = true → (∀ x ∈ e.nodes, x.isResolved = true) →
      (∀ x ∈ e.nodes, x.shiftsUp = true) →
      ∃ x, e.evaluate calls (Record.symbolic Attribute.all) = .ok x ∧
        x.same e.simplify = true) ∧
    (∀ values openSlots r, Record.ofGiven values openSlots = .ok r → r.Fixed) ∧
    (∀ (r s : Record) name (x : Expr), r.Fixed → x.Fixed → r.assign name x = .ok s → s.Fixed) ∧
    ∀ (r : Record) (e x : Expr), r.Fixed → (∀ policy y, calls policy r = .ok y → y.Fixed) →
      e.evaluate calls r = .ok x → x.Fixed := by
  refine ⟨fun e typed resolved shifts => ?_, fun _ _ _ given => Record.fixed_of_ofGiven given,
    fun _ _ _ _ fixed own assigned => fixed.assign own assigned, fun r e x slots answers value => ?_⟩
  · have fitted := Expr.wellTyped_iff.mp typed
    have proper : e.Each Expr.Proper := fun x member =>
      ⟨Expr.isSupported_of_isResolved (resolved x member), fitted x member⟩
    obtain ⟨x, value, equal⟩ := Expr.evaluate_symbolic proper resolved shifts
    exact ⟨x, value, Expr.same_iff.mpr equal⟩
  · rw [Expr.fixed_iff]
    refine Expr.evaluate_normal (fun slot member => ?_) (fun policy y answered => ?_) value
    · exact Expr.fixed_iff.mp (slots slot member)
    · exact Expr.fixed_iff.mp (answers policy y answered)

namespace Prepending

/-- A doubly negated match beside the constant false, and a shift of the local preference. -/
def guard : Expr :=
  .any [.not none (.not none (.hasCommunity none (.ref .communities) "65000:1")), .bool false,
    .compare none .ge (.adjust none .decrement 5) (.int 100)]

def prepended (asns : List Int) : Expr := .prepend none asns (.ref .asPath)

/-- There is no policy to call. -/
def calls : Calls := @Execution.callsFrom .binary64 [] 1024 []

/-- The record of a network with nothing else known. -/
def start : Record :=
  ⟨(.network, .lit none (.network "10.0.0.0/8")) ::
    [.nextHop, .communities, .localPreference, .metric, .weight, .tag, .asPath].map fun name =>
      (name, .ref name)⟩

/-- The same record with AS numbers prepended. -/
def next : Record := ⟨start.slots.dropLast ++ [(.asPath, prepended [65001])]⟩

end Prepending

open Prepending in
theorem prepending_evaluation_simplifies :
    guard.wellTyped = true ∧ (∀ x ∈ guard.nodes, x.isResolved = true) ∧
      (∀ x ∈ guard.nodes, x.shiftsUp = true) ∧
      (∃ x, @Expr.evaluate .binary64 calls (Record.symbolic Attribute.all) guard = .ok x ∧
        x.same guard.simplify = true) ∧
      Record.ofGiven [.network "10.0.0.0/8"] true = .ok start ∧ start.Fixed ∧
      (prepended [65001]).Fixed ∧ start.assign .asPath (prepended [65001]) = .ok next ∧ next.Fixed ∧
      @Expr.evaluate .binary64 calls next (prepended [65002]) = .ok (prepended [65002, 65001]) ∧
      (prepended [65002, 65001]).Fixed := by
  obtain ⟨symbolic, given, assigned, results⟩ := @evaluation_simplifies .binary64 calls
  have typed : guard.wellTyped = true := by decide
  have resolved : ∀ x ∈ guard.nodes, x.isResolved = true := by decide
  have shifts : ∀ x ∈ guard.nodes, x.shiftsUp = true := by decide
  have known : Record.ofGiven [.network "10.0.0.0/8"] true = .ok start := by with_unfolding_all rfl
  have fixed := given _ _ _ known
  have first := results start (prepended [65001]) _ fixed
    (fun _ _ answered => Execution.callsFrom_fixed answered) rfl
  have made : start.assign .asPath (prepended [65001]) = .ok next := by rfl
  have kept := assigned _ _ _ _ fixed first made
  have second := results next (prepended [65002]) (prepended [65002, 65001]) kept
    (fun _ _ answered => Execution.callsFrom_fixed answered) rfl
  exact ⟨typed, resolved, shifts, symbolic guard typed resolved shifts, known, fixed, first, made,
    kept, rfl, second⟩

end RoutePolicy
