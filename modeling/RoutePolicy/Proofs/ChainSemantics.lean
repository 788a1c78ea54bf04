import RoutePolicy.Proofs.ReachabilitySound
import RoutePolicy.Proofs.SymbolicExecution

/-!
What a chain of policies means: the paths of a chain split the routes that satisfy its assumptions,
and the path of a route is what the policies do to the route one after another. Sums of local
preferences have to be exact for that.
-/

set_option autoImplicit false

namespace RoutePolicy

/-- An empty chain accepts a record as it is, any other chain performs its policies, along the path
that holds of the route. -/
theorem performChain_of_path [Arithmetic] (exact : ∀ i : Int, Arithmetic.round i = i)
    {route : Route} {given : Assumed} (assumed : ∀ c ∈ given.assumptions, c.ResidualOf .boolean)
    (table : given.table.Usable) {policies : List Policy} (usable : ∀ p ∈ policies, p.Usable)
    {r c : Record} (record : r.Residual) (comes : r.ComesTo route c) {paths : List Path}
    (run : evaluateChain given policies r = .ok paths) {path : Path} (member : path ∈ paths)
    (holds : path.holdsAt route = true) :
    ∃ d, performChain given.table policies c = .ok (path.disposition, d) ∧
      path.record.ComesTo route d := by
  cases policies with
  | nil =>
      cases run
      cases List.mem_singleton.mp member
      exact ⟨c, rfl, comes⟩
  | cons p rest =>
      exact evaluateChain_performs exact assumed table usable
        (fun p => Execution.performedCalls_agrees exact route table given.limit [p.name]) record
        comes run member holds

namespace Sample

/-- A policy that leaves the decision to the next one. -/
def passing : Policy := ⟨"pass", [.finish none .pass]⟩

theorem passing_valid : passing.Valid :=
  ⟨⟨false, .obj [("name", .str "pass"), ("statements", .arr [
    .obj [("class", .str "StaticStatement"), ("type", .str "FallThrough")]])],
    by with_unfolding_all rfl⟩, by decide⟩

theorem chain_valid : ∀ p ∈ [passing, policy], p.Valid := by
  intro p member
  rcases List.mem_cons.mp member with rfl | member
  · exact passing_valid
  · cases List.mem_singleton.mp member
    exact policy_valid

end Sample

namespace RaisingPeer

/-- All attributes as they came in. -/
def incoming : Record := Record.symbolic Attribute.all

theorem policy_valid : policy.Valid :=
  ⟨⟨false, policyDocument, by with_unfolding_all rfl⟩, by decide⟩

theorem incoming_valid : incoming.Valid := by
  have named : ∀ name, (Expr.ref name).ValidResidual name.type := by
    intro name
    refine ⟨⟨false, ref name.name, ?_⟩, ?_, ?_, rfl⟩ <;> cases name <;>
      first | with_unfolding_all rfl | decide
  intro slot member
  obtain ⟨name, _, rfl⟩ := List.mem_map.mp member
  exact named name

theorem comesTo_record : incoming.ComesTo route route.record :=
  List.forall₂_map_left_iff.mpr (List.forall₂_map_right_iff.mpr
    (List.forall₂_same.mpr fun _ _ => ⟨rfl, none, _, rfl, rfl⟩))

end RaisingPeer

end RoutePolicy
