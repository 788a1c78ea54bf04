import RoutePolicy.Proofs.NamedDefinitions
import RoutePolicy.Proofs.References
import RoutePolicy.Proofs.SimplifiedTopologies

/-!
Simplified policies name nothing that they did not name before, so the references of a simplified
topology resolve: simplification of a topology always succeeds.
-/

set_option autoImplicit false

namespace RoutePolicy

/-- What nodes name of their own: literals and operators name nothing, and what other nodes name does
not depend on their parts. -/
structure Expr.Naming {α : Type} (own? : Expr → Option α) : Prop where
  rebuilt : ∀ e es, own? (e.withChildren es) = own? e
  literal : ∀ cls l, own? (.lit cls l) = none
  operator : ∀ e, e.isOperator = true → own? e = none

namespace Expr

theorem naming_call : Naming ownCall? where
  rebuilt e es := by
    unfold withChildren
    split <;> rfl
  literal _ _ := rfl
  operator e operator := by cases e <;> first | rfl | cases operator

theorem naming_reference : Naming ownReference? where
  rebuilt e es := by
    unfold withChildren
    split <;> rfl
  literal _ _ := rfl
  operator e operator := by cases e <;> first | rfl | cases operator

variable {α : Type} {own? : Expr → Option α} {N : α → Prop}

/-- A node that names something of a given kind, if it names anything. -/
def NamesIn (own? : Expr → Option α) (N : α → Prop) (e : Expr) : Prop :=
  ∀ named, own? e = some named → N named

theorem each_namesIn {e : Expr} :
    e.Each (NamesIn own? N) ↔ ∀ named ∈ e.nodes.filterMap own?, N named := by
  constructor
  · intro each named member
    obtain ⟨x, inside, own⟩ := List.mem_filterMap.mp member
    exact each x inside named own
  · intro all x inside named own
    exact all named (List.mem_filterMap.mpr ⟨x, inside, own⟩)

namespace Naming

variable (naming : Naming own?)

include naming

theorem stable : Stable type (fun _ _ => True) False (NamesIn own? N) := by
  have literal : ∀ cls l, NamesIn own? N (.lit cls l) := by
    intro cls l named own
    rw [naming.literal] at own
    cases own
  have operator : ∀ e : Expr, e.isOperator = true → NamesIn own? N e := by
    intro e operator named own
    rw [naming.operator e operator] at own
    cases own
  exact {
    own := fun _ => trivial
    operator := fun _ _ _ => rfl
    constant := fun _ _ => rfl
    part := fun _ _ _ _ _ _ _ => trivial
    room := fun _ _ _ impossible => impossible.elim
    boolean := fun _ => literal none _
    set := fun _ _ => literal none _
    path := fun _ _ => literal none _
    negated := fun _ _ => operator _ rfl
    joined := fun _ _ _ _ => operator _ rfl
    united := fun _ _ _ => operator _ rfl
    matched := fun _ _ _ _ => operator _ rfl
    ranged := fun _ _ _ _ => operator _ rfl
    prepended := fun _ _ _ _ => operator _ rfl }

theorem each_simplify {e : Expr} (each : e.Each (NamesIn own? N)) :
    e.simplify.Each (NamesIn own? N) := by
  refine (naming.stable.eachOf_simplify (P := NamesIn own? N) ?_ each).1
  intro e es own parts
  have below : ∀ c ∈ es, c.Each (NamesIn own? N) :=
    forall_of_forall₂ parts fun _ _ suits => suits.1
  refine ⟨?_, fun _ _ _ _ => trivial, fun _ => ?_, fun _ _ _ never => never.elim⟩
  · rwa [children_withChildren parts.length_eq.symm]
  · unfold NamesIn
    rwa [naming.rebuilt]

end Naming

end Expr

namespace Statement

variable {P : Expr → Prop}

mutual

theorem every_exprs (s : Statement) : s.Every (fun _ e => P e) ↔ ∀ e ∈ s.exprs, P e := by
  cases s with
  | branch cls guard onTrue onFalse comment =>
    rw [Every, exprs, List.forall_mem_cons, List.forall_mem_append, everyAll_exprs onTrue,
      everyAll_exprs onFalse]
  | assign cls target value => rw [Every, exprs, List.forall_mem_singleton]
  | finish cls disposition => simp [Every, exprs]

theorem everyAll_exprs (block : List Statement) :
    EveryAll (fun _ e => P e) block ↔ ∀ e ∈ exprsAll block, P e := by
  cases block with
  | nil => simp [EveryAll, exprsAll]
  | cons s rest =>
    rw [EveryAll, exprsAll, List.forall_mem_append, every_exprs s, everyAll_exprs rest]

end

/-- What the nodes of a block name. -/
def named {α : Type} (own? : Expr → Option α) (block : List Statement) : List α :=
  (exprsAll block).flatMap fun e => e.nodes.filterMap own?

theorem everyAll_namesIn {α : Type} {own? : Expr → Option α} {N : α → Prop}
    {block : List Statement} : EveryAll (fun _ e => e.Each (Expr.NamesIn own? N)) block ↔
      ∀ a ∈ named own? block, N a := by
  simp only [everyAll_exprs, Expr.each_namesIn, named, List.mem_flatMap]
  exact ⟨fun all a ⟨e, inside, own⟩ => all e inside a own,
    fun all e inside a own => all a ⟨e, inside, own⟩⟩

/-- A simplified block names nothing new. -/
theorem named_simplifyAll {α : Type} {own? : Expr → Option α} (naming : Expr.Naming own?)
    (block : List Statement) : named own? (simplifyAll block) ⊆ named own? block := by
  have own := everyAll_namesIn.mpr fun a (member : a ∈ named own? block) => member
  have keeps : ∀ (_ : ValueType) (e : Expr), e.Each (Expr.NamesIn own? (· ∈ named own? block)) →
      e.simplify.Each (Expr.NamesIn own? (· ∈ named own? block)) := fun _ _ => naming.each_simplify
  exact fun a => everyAll_namesIn.mp (everyAll_simplifyAll keeps block own) a

/-- A simplified block calls nothing new. -/
theorem calls_simplifyAll (block : List Statement) : calls (simplifyAll block) ⊆ calls block := by
  intro callee member
  rw [calls, List.mem_eraseDups] at member ⊢
  exact named_simplifyAll Expr.naming_call block member

end Statement

/-- A simplified policy refers to no definition that it did not refer to before. -/
theorem Policy.references_simplify (p : Policy) : p.simplify.references ⊆ p.references :=
  Statement.named_simplifyAll Expr.naming_reference p.statements

theorem Node.Resolved.simplified {n : Node} (resolved : n.Resolved) : n.simplified.Resolved := by
  have has : ∀ {name}, n.policies.has name = true → n.policies.simplified.has name = true := by
    intro name known
    rwa [Table.has, Table.get?_simplified, Option.isSome_map]
  refine ⟨resolved.networks, ?_, ?_⟩
  · exact fun entry member policy named => has (resolved.bound entry member policy named)
  · intro p value callee called
    obtain ⟨⟨name, own⟩, listed, rfl⟩ := List.mem_map.mp value
    obtain ⟨⟨key, q⟩, member, same⟩ := List.mem_map.mp listed
    cases same
    have before : q ∈ n.policies.values := List.mem_map.mpr ⟨_, member, rfl⟩
    exact has (resolved.calls q before callee (Statement.calls_simplifyAll q.statements called))

namespace Topology

/-- The references of a simplified topology resolve. -/
theorem Resolved.simplified {t : Topology} (resolved : t.Resolved) : t.simplified.Resolved := by
  have names : t.simplified.nodes.map Node.name = t.nodes.map Node.name := by
    rw [Topology.simplified, List.map_map]
    rfl
  refine ⟨names ▸ resolved.distinct, ?_, ?_⟩
  · rw [Topology.simplified, List.forall_mem_map]
    exact fun n member => (resolved.nodes n member).simplified
  · have ends : ∀ e, t.HasEnd e → t.simplified.HasEnd e := by
      rintro e ⟨n, found, known⟩
      refine ⟨n.simplified, ?_, known⟩
      rw [node?_simplified, found, Option.map_some]
    exact fun edge member =>
      ⟨ends _ (resolved.ends edge member).1, ends _ (resolved.ends edge member).2⟩

/-- Simplification of a topology succeeds. -/
theorem simplify_eq {t : Topology} (resolved : t.Resolved) : t.simplify = .ok t.simplified :=
  create_iff.mpr ⟨rfl, resolved.simplified⟩

end Topology

end RoutePolicy
