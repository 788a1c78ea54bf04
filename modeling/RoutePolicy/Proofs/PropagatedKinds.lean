import RoutePolicy.Proofs.Completeness
import RoutePolicy.Proofs.RunInvariants

/-!
What propagation keeps. A kind of values that symbolic execution keeps for the slots and conditions of
paths is kept for all variants that arrive, and so for the conditions of answers.
-/

set_option autoImplicit false

namespace RoutePolicy

/-- A variant with slots of one kind under a condition of another one. -/
structure Variant.Holds (V : ValueType → Expr → Prop) (A : Expr → Prop) (v : Variant) : Prop where
  condition : A v.condition
  record : v.record.Holds V

/-- A kind of conditions that is kept when conditions are taken apart and joined. -/
structure Joins (A : Expr → Prop) : Prop where
  bool : ∀ value, A (.bool value)
  conjuncts : ∀ c, A c → ∀ x ∈ c.conjuncts, A x
  junction : ∀ op es, (∀ e ∈ es, A e) → A (Expr.junction none op es).simplify

namespace Topology

variable {t : Topology} {P : Policy → Prop}

/-- What holds of all policies of a topology holds of those of a node. -/
theorem policies_all (all : ∀ n ∈ t.nodes, n.policies.All P) (node : String) :
    (t.policies node).All P := by
  unfold policies
  split
  · rename_i n found
    exact all n (mem_of_node? found)
  · exact Table.All.nil

/-- All expressions of policies are of a kind. -/
def Holds (E : ValueType → Expr → Prop) (t : Topology) : Prop :=
  ∀ n ∈ t.nodes, n.policies.All fun p => Statement.EveryAll E p.statements

end Topology

namespace Propagation

variable [Arithmetic] {E V : ValueType → Expr → Prop} {A : Expr → Prop} {t : Topology} {paths : Int}

/-- A chain keeps the kinds of slots and conditions. -/
theorem chain_holds (kinds : Kinds False E V A) (policies : t.Holds E) {e : Endpoint}
    {names : List String} {assumptions : List Expr} {r : Record} {found : List Path}
    (assumed : ∀ c ∈ assumptions, A c) (record : r.Holds V)
    (ran : evaluateChain ⟨assumptions, paths, t.policies e.node⟩ (t.chainOf e names) r = .ok found) :
    ∀ path ∈ found, path.Holds V A := by
  have chain : ∀ p ∈ t.chainOf e names, Statement.EveryAll E p.statements :=
    Topology.forall_chainOf (fun n listed _ _ known => (policies n listed).get? known) e names
  have kept := evaluateChain_gives kinds (fun _ own => own) ⟨assumptions, paths, t.policies e.node⟩
    (Topology.policies_all policies e.node) assumed chain record
  rwa [ran] at kept

/-- What a variant sends arrives as a variant of the same kinds. -/
theorem arrival_holds (kinds : Kinds False E V A) (joins : Joins A) (policies : t.Holds E)
    {v w : Variant} {edge : Edge} {cs : List Crossing} (own : v.Holds V A)
    (crossed : crossings t paths v edge = .ok cs) (arrived : .arrival w ∈ cs) : w.Holds V A := by
  obtain ⟨left, exported, path, leaves, -, entered, imported, last, enters, -, -, -, condition,
    record⟩ := arrival_ok crossed arrived
  have sent := chain_holds kinds policies (joins.conjuncts _ own.condition) own.record exported path
    leaves
  have kept := chain_holds kinds policies sent.condition sent.record imported last enters
  constructor
  · rw [condition]
    exact joins.junction .all _ kept.condition
  · rw [record]
    exact kept.record

/-- The conditions of an answer are of the kind that propagation keeps, if the records that routes
start with are of theirs. -/
theorem ask_holds (kinds : Kinds False E V A) (joins : Joins A) (policies : t.Holds E)
    (starts : ∀ values openSlots r, Record.ofGiven values openSlots = .ok r → r.Holds V)
    {limits : Limits} {q : Query} {a : Answer} (asked : t.ask limits q = .ok a) :
    A a.witness ∧ a.predicates.All A := by
  obtain ⟨origins, s, ran, rfl⟩ := Topology.ask_ok.mp asked
  have begun : ∀ v ∈ origins, v.Holds V A := by
    obtain ⟨-, -, found⟩ := Outcome.bind_ok.mp ran.starts
    obtain ⟨target, -, found⟩ := Outcome.bind_ok.mp found
    obtain ⟨originated, given, found⟩ := Outcome.bind_ok.mp found
    obtain ⟨announced, arbitrary, same⟩ := Outcome.bind_ok.mp found
    cases same
    intro v member
    obtain ⟨n, -, origin⟩ := List.mem_filterMap.mp member
    unfold Query.origin? at origin
    split at origin
    · cases origin
      exact ⟨joins.bool true, starts _ _ _ arbitrary⟩
    · split at origin
      · cases origin
        exact ⟨joins.bool true, starts _ _ _ given⟩
      · cases origin
  have all : ∀ v ∈ s.variants, v.Holds V A := by
    refine forall_settle ?_ (forall_start begun) ran.rests
    exact fun v edge cs own _ _ crossed w => arrival_holds kinds joins policies own crossed
  have each : (predicates t s).All A := by
    refine List.forall_mem_map.mpr fun n _ => joins.junction .any _ ?_
    exact List.forall_mem_map.mpr fun v member => (all v (List.mem_filter.mp member).1).condition
  refine ⟨?_, each⟩
  change A (witness q (predicates t s))
  unfold witness
  split
  · rename_i node _
    cases found : (predicates t s).get? node with
    | none => exact joins.bool false
    | some e => exact each.get? found
  · exact joins.junction .all _ (List.forall_mem_map.mpr each)

end Propagation

end RoutePolicy
