import RoutePolicy.Definitions
import RoutePolicy.Proofs.Nodes

/-!
Names that expressions leave to the definitions of a node: lists of networks and community sets.
-/

set_option autoImplicit false

namespace RoutePolicy

/-- What a name stands for that only the definitions of a node know. -/
inductive Reference where
  | list (name : String)
  | set (name : String)

namespace Reference

/-- What is wrong with a reference that cannot be written out. -/
def undefined : Reference → ReferenceFault
  | list name => .undefinedList name
  | set name => .undefinedSet name

/-- What is wrong with a reference that is evaluated. -/
def unresolved : Reference → EvaluationFault
  | list name => .unresolvedList name
  | set name => .unresolvedSet name

end Reference

/-- Whether there is a definition for a reference. -/
def Definitions.has (defs : Definitions) : Reference → Bool
  | .list name => defs.lists.has name
  | .set name => defs.sets.has name

namespace Expr

def ownReference? : Expr → Option Reference
  | inList _ _ name _ => some (.list name)
  | namedSet _ name => some (.set name)
  | _ => none

/-- The references of an expression, at any depth. -/
def references (e : Expr) : List Reference := e.nodes.filterMap ownReference?

theorem mem_references {e : Expr} {named : Reference} : named ∈ e.references ↔
    e.ownReference? = some named ∨ ∃ c ∈ e.children, named ∈ c.references := by
  unfold references
  rw [nodes_eq, List.filterMap_cons, List.filterMap_flatMap]
  cases own : e.ownReference? with
  | none => simp
  | some other => simp [eq_comm]

theorem mem_references_of_child {e c : Expr} {named : Reference} (member : c ∈ e.children)
    (inside : named ∈ c.references) : named ∈ e.references :=
  mem_references.mpr (.inr ⟨c, member, inside⟩)

end Expr

/-- The references of a policy, in guards and assigned values. -/
def Policy.references (p : Policy) : List Reference :=
  (Statement.exprsAll p.statements).flatMap Expr.references

end RoutePolicy
