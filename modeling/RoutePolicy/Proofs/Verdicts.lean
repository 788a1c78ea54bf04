import RoutePolicy.Proofs.Complements
import RoutePolicy.Proofs.SimplifiedAnswers

/-!
What the disposition of an answer says of the reported conditions. With a source it is decided by the
condition of the source. Without one it is decided by what the conjunction of all conditions
simplifies to, which is the constant false in two cases: a condition is false, or two of them have
opposite conjuncts. In the second case no condition need be false, but no route meets them all.
-/

set_option autoImplicit false

namespace RoutePolicy

namespace Expr

/-! ### Opposed conditions -/

/-- The first condition has a conjunct that is the negation of a conjunct of the second. -/
def Opposed (a b : Expr) : Prop :=
  ∃ x ∈ a.conjuncts, ∃ y ∈ b.conjuncts, x.same (not none y) = true

instance (a b : Expr) : Decidable (a.Opposed b) :=
  inferInstanceAs (Decidable (∃ x ∈ a.conjuncts, ∃ y ∈ b.conjuncts, x.same (not none y) = true))

/-- No route meets both of two opposed conditions. -/
theorem Opposed.fails {a b : Expr} (opposed : a.Opposed b) (route : Route) :
    a.holdsAt route = false ∨ b.holdsAt route = false := by
  obtain ⟨x, inside, y, there, negation⟩ := opposed
  have contrary : x.holdsAt route = !y.holdsAt route :=
    ((compositional_value Names.none route).truth_eq_of_same negation).trans
      ((compositional_value Names.none route).truth_not none y)
  rw [← holdsAt_conjuncts a, ← holdsAt_conjuncts b, List.all_eq_false, List.all_eq_false]
  cases holds : y.holdsAt route with
  | true => exact .inl ⟨x, inside, by simp [contrary, holds]⟩
  | false => exact .inr ⟨y, there, by simp [holds]⟩

theorem fails_of_isFalse {e : Expr} (constant : e.isFalse = true) (route : Route) :
    e.holdsAt route = false :=
  holdsAt_of_bool? (of_decide_eq_true constant)

/-- The conjuncts of a condition to which no rule applies are its parts in a conjunction, but for the
constant true. -/
theorem mem_conjuncts_iff {e x : Expr} (normal : e.Normal) :
    x ∈ e.conjuncts ↔ x ∈ junctionParts .all e ∧ x.bool? ≠ some true := by
  unfold conjuncts
  split
  · rename_i cls operands
    rw [junctionParts_junction]
    refine ⟨fun member => ⟨member, ?_⟩, And.left⟩
    simp [NormalJunction.undecided normal x member]
  · refine iff_of_false List.not_mem_nil ?_
    rintro ⟨part, open'⟩
    rw [List.mem_singleton.mp part] at open'
    exact open' rfl
  · rename_i notConjunction notTrue
    have flat : e.joins .all = false := by
      cases e with
      | junction cls op operands =>
          refine decide_eq_false ?_
          rintro rfl
          exact notConjunction cls operands rfl
      | _ => rfl
    rw [junctionParts_of_flat flat, List.mem_singleton]
    refine ⟨?_, And.left⟩
    rintro rfl
    refine ⟨rfl, fun constant => ?_⟩
    obtain ⟨cls, rfl⟩ := bool?_eq_some constant
    exact notTrue cls rfl

/-- A false part of a condition to which no rule applies is the condition itself. -/
theorem isFalse_of_part {e p : Expr} (normal : e.Normal) (part : p ∈ junctionParts .all e)
    (constant : p.bool? = some false) : e.isFalse = true := by
  cases joined : e.joins .all with
  | false =>
      rw [junctionParts_of_flat joined] at part
      rw [← List.mem_singleton.mp part]
      exact decide_eq_true constant
  | true =>
      obtain ⟨cls, operands, rfl⟩ := eq_junction_of_joins joined
      rw [junctionParts_junction] at part
      rw [NormalJunction.undecided normal p part] at constant
      cases constant

/-- A conjunction of conditions to which no rule applies is found to be false exactly if one of them
is false, or if two of them are opposed. -/
theorem isFalse_simplify_all_iff {conditions : List Expr}
    (normal : ∀ e ∈ conditions, e.Each Normal) :
    (all conditions).simplify.isFalse = true ↔
      (∃ e ∈ conditions, e.isFalse = true) ∨
        ∃ a ∈ conditions, ∃ b ∈ conditions, a.Opposed b := by
  have unchanged : conditions.map simplify = conditions :=
    (List.map_congr_left fun e member => simplify_eq_self_iff.mpr (normal e member)).trans
      (List.map_id' _)
  have decided : (all conditions).simplify.isFalse = true ↔
      Decisive .all (conditions.flatMap (junctionParts .all)) := by
    have general := @simplify_decided .all none conditions
    rw [simpleParts, unchanged] at general
    exact decide_eq_true_iff.trans general
  rw [decided]
  constructor
  · rintro (⟨p, member, constant⟩ | ⟨p, member, q, among, undecided, negation⟩)
    · obtain ⟨e, inside, part⟩ := List.mem_flatMap.mp member
      exact .inl ⟨e, inside, isFalse_of_part (normal e inside).root part constant⟩
    · obtain ⟨a, inside, part⟩ := List.mem_flatMap.mp member
      obtain ⟨b, there, other⟩ := List.mem_flatMap.mp among
      have negated : p.bool? = none := by
        rw [← bool?_content, negation]
        rfl
      refine .inr ⟨a, inside, b, there, p, (mem_conjuncts_iff (normal a inside).root).mpr
        ⟨part, by simp [negated]⟩, q, (mem_conjuncts_iff (normal b there).root).mpr
        ⟨other, by simp [undecided]⟩, same_iff.mpr negation⟩
  · rintro (⟨e, inside, constant⟩ | ⟨a, inside, b, there, x, first, y, second, negation⟩)
    · have whole : e.bool? = some false := of_decide_eq_true constant
      refine .inl ⟨e, List.mem_flatMap.mpr ⟨e, inside, ?_⟩, whole⟩
      obtain ⟨cls, rfl⟩ := bool?_eq_some whole
      exact List.mem_singleton_self _
    · obtain ⟨part, -⟩ := (mem_conjuncts_iff (normal a inside).root).mp first
      obtain ⟨other, -⟩ := (mem_conjuncts_iff (normal b there).root).mp second
      obtain ⟨cls, inner, rfl, equal⟩ := eq_not_of_content (same_iff.mp negation)
      have undecided : y.bool? = none := by
        rw [← bool?_content, ← equal, bool?_content]
        exact (normal_junctionParts (normal a inside) part).1.root.1
      exact .inr ⟨_, List.mem_flatMap.mpr ⟨a, inside, part⟩, y,
        List.mem_flatMap.mpr ⟨b, there, other⟩, undecided, same_iff.mp negation⟩

end Expr

namespace Answer

theorem disposition_eq_accept {a : Answer} : a.disposition = .accept ↔ a.accepted = true := by
  unfold disposition
  cases a.accepted <;> simp

/-- What the disposition of an answer says of its conditions. -/
structure DecidedByConditions (q : Query) (a : Answer) : Prop where
  source : ∀ name, q.source = some name → ∃ e, a.predicates.get? name = some e ∧
    (a.disposition = .accept ↔ e.isFalse = false)
  everywhere : q.source = none → (a.disposition = .accept ↔
    (∀ e ∈ a.predicates.values, e.isFalse = false) ∧
      ∀ e ∈ a.predicates.values, ∀ e' ∈ a.predicates.values, ¬e.Opposed e')
  rejected : q.source = none → a.disposition ≠ .accept → ∀ route : Route,
    ∃ e ∈ a.predicates.values, e.holdsAt route = false

end Answer

namespace Propagation

theorem normal_predicates {t : Topology} {s : State} :
    ∀ e ∈ (predicates t s).values, e.Each Expr.Normal := by
  intro e member
  obtain ⟨entry, listed, rfl⟩ := List.mem_map.mp member
  obtain ⟨n, -, rfl⟩ := List.mem_map.mp listed
  exact Expr.each_normal_simplify _

theorem accepted_of_source {t : Topology} {s : State} {q : Query} {name : String}
    (asked : q.source = some name) (known : t.nodes.any (·.name = name) = true) :
    ∃ e, (answer t q s).predicates.get? name = some e ∧
      ((answer t q s).accepted = true ↔ e.isFalse = false) := by
  have reports : (predicates t s).get? name = some (predicate s name) := by
    rw [get?_predicates, if_pos known]
  refine ⟨predicate s name, reports, ?_⟩
  simp only [answer, witness, asked, reports, Option.getD_some, Bool.not_eq_true']

theorem accepted_everywhere_iff {t : Topology} {s : State} {q : Query} (asked : q.source = none) :
    (answer t q s).accepted = true ↔
      (∀ e ∈ (predicates t s).values, e.isFalse = false) ∧
        ∀ e ∈ (predicates t s).values, ∀ e' ∈ (predicates t s).values, ¬e.Opposed e' := by
  have refuted := Expr.isFalse_simplify_all_iff (@normal_predicates t s)
  have accepted : (answer t q s).accepted = true ↔
      ¬(Expr.all (predicates t s).values).simplify.isFalse = true := by
    simp only [answer, witness, asked, Bool.not_eq_true', Bool.not_eq_true]
  rw [accepted, refuted]
  push Not
  simp only [ne_eq, Bool.not_eq_true]

end Propagation

theorem Query.source_listed {t : Topology} {q : Query} {name : String}
    (checked : q.checkSource t = .ok ()) (asked : q.source = some name) :
    t.nodes.any (·.name = name) = true := by
  rw [checkSource, asked] at checked
  dsimp only at checked
  split at checked
  · rename_i found
    rwa [Topology.node?, List.find?_isSome, ← List.any_eq_true] at found
  · cases checked

/-- With a source a query is accepted exactly if the condition of the source is not the constant
false. Without one it is accepted exactly if no condition is the constant false and no two conditions
are opposed; and where it is rejected, every route fails one of the conditions. -/
theorem disposition_decided_by_conditions [Arithmetic] {t : Topology} {limits : Limits} {q : Query}
    {a : Answer} (asked : t.ask limits q = .ok a) : a.DecidedByConditions q := by
  obtain ⟨origins, s, ran, rfl⟩ := Topology.ask_ok.mp asked
  have everywhere := fun source => @Propagation.accepted_everywhere_iff t s q source
  refine ⟨fun name source => ?_, fun source => ?_, fun source rejected route => ?_⟩
  · obtain ⟨_, checked, -⟩ := Outcome.bind_ok.mp ran.starts
    rw [Answer.disposition_eq_accept]
    exact Propagation.accepted_of_source source (Query.source_listed checked source)
  · rw [Answer.disposition_eq_accept]
    exact everywhere source
  · rw [ne_eq, Answer.disposition_eq_accept, everywhere source, not_and_or] at rejected
    push Not at rejected
    rcases rejected with ⟨e, member, constant⟩ | ⟨e, member, e', among, opposed⟩
    · exact ⟨e, member, Expr.fails_of_isFalse (Bool.eq_true_of_not_eq_false constant) route⟩
    · rcases opposed.fails route with fails | fails
      · exact ⟨e, member, fails⟩
      · exact ⟨e', among, fails⟩

namespace TwoLinks

open Propagation

theorem fan_answered : ∃ a, @Topology.ask .exact (fan undivided opposite) .default anywhere = .ok a ∧
    a.predicates = [("a", .bool true), ("b", RaisingPeer.positive .metric),
      ("d", .not none (RaisingPeer.positive .metric))] ∧ a.accepted = false := by
  obtain ⟨cs, emits, stand⟩ := undivided_emits
  obtain ⟨ran, -⟩ := @Topology.undisturbed_single .exact _ _ anywhere _ _ _
    (by with_unfolding_all rfl) emits stand (by decide) (by decide) (by decide) (by decide)
  obtain ⟨a, asked, -, conditions, accepted⟩ := @Topology.Propagates.ask_of_standing .exact _ _ _ _ _
    _ _ _ ran (congrArg (standing RaisingPeer.origin :: ·) stand)
  exact ⟨a, asked, conditions.trans (by with_unfolding_all rfl), accepted.trans (by decide)⟩

end TwoLinks

theorem fan_decided_by_conditions : ∃ a,
    @Topology.ask .exact (TwoLinks.fan TwoLinks.undivided TwoLinks.opposite) .default
      TwoLinks.anywhere = .ok a ∧ a.DecidedByConditions TwoLinks.anywhere := by
  obtain ⟨a, asked, -⟩ := TwoLinks.fan_answered
  exact ⟨a, asked, @disposition_decided_by_conditions .exact _ _ _ _ asked⟩

/-- A query without a source is rejected although every node is reached under a condition that is
not the constant false: the conditions of two nodes are opposed. -/
theorem opposed_conditions_rejected : ∃ a,
    @Topology.ask .exact (TwoLinks.fan TwoLinks.undivided TwoLinks.opposite) .default
      TwoLinks.anywhere = .ok a ∧ TwoLinks.anywhere.source = none ∧ a.disposition = .reject ∧
      ∀ e ∈ a.predicates.values, e.isFalse = false := by
  obtain ⟨a, asked, conditions, rejected⟩ := TwoLinks.fan_answered
  refine ⟨a, asked, rfl, by rw [Answer.disposition, rejected]; rfl, ?_⟩
  rw [conditions]
  decide

end RoutePolicy
