import RoutePolicy.Proofs.SimplifiedReferences
import RoutePolicy.Proofs.TypeErrors

/-!
Simplification keeps expressions, policies and topologies well typed. The type of an expression stays
what it was, unless a construct outside the vocabulary is all that is left of the expression: a rule
that puts an operand in the place of its operator may bring one up from below.
-/

set_option autoImplicit false

namespace RoutePolicy

namespace Expr

/-- The construct outside the vocabulary that a node is. -/
def raw? : Expr → Option Expr
  | unsupported tag raw => some (unsupported tag raw)
  | _ => none

theorem naming_raw : Naming raw? where
  rebuilt e es := by
    unfold withChildren
    split <;> rfl
  literal _ _ := rfl
  operator e operator := by cases e <;> first | rfl | cases operator

/-- What is outside the vocabulary has an unknown type, and nothing else has. -/
theorem type_eq_unknown {e : Expr} : e.type = .unknown ↔ e.raw? = some e := by
  cases e with
  | lit _ l => cases l <;> simp [type, Literal.type, raw?]
  | attr _ name => cases name <;> simp [type, Attribute.type, raw?]
  | _ => simp [type, raw?]

/-- Constructs outside the vocabulary are those of the expression. -/
theorem raw_of_simplify {e x : Expr} (member : x ∈ e.simplify.nodes) (raw : x.raw? = some x) :
    x ∈ e.nodes := by
  have own : e.Each (NamesIn raw? (· ∈ e.nodes)) := by
    intro y inside named names
    cases y <;> cases names
    exact inside
  exact naming_raw.each_simplify own x member x raw

/-- A simplified expression has the type of the expression, or is a construct outside the vocabulary
that stands somewhere in the expression. -/
theorem type_simplify {e : Expr} (typed : e.wellTyped = true) :
    e.simplify.wellTyped = true ∧
      (e.simplify.type = e.type ∨ e.simplify.type = .unknown ∧ e.simplify ∈ e.nodes) := by
  obtain ⟨fitted, suits⟩ := simplify_fitted (wellTyped_iff.mp typed)
  refine ⟨wellTyped_iff.mpr fitted, ?_⟩
  simp only [Suits, ValueType.fits, Bool.or_eq_true, decide_eq_true_eq] at suits
  refine suits.imp_right fun unknown => ⟨unknown, ?_⟩
  refine raw_of_simplify ?_ (type_eq_unknown.mp unknown)
  rw [nodes_eq]
  exact List.mem_cons_self

end Expr

/-- A simplified policy has no type error if the policy has none. -/
theorem Policy.wellTyped_simplify {p : Policy} (typed : p.wellTyped = true) :
    p.simplify.wellTyped = true := by
  have keeps : ∀ (expected : ValueType) (e : Expr),
      e.wellTyped = true ∧ e.type.fits expected = true →
        e.simplify.wellTyped = true ∧ e.simplify.type.fits expected = true := by
    rintro expected e ⟨typed, fits⟩
    obtain ⟨fitted, suits⟩ := Expr.simplify_fitted (Expr.wellTyped_iff.mp typed)
    exact ⟨Expr.wellTyped_iff.mpr fitted, ValueType.fits_trans suits fits⟩
  rw [wellTyped_iff] at typed ⊢
  exact Statement.everyAll_simplifyAll keeps p.statements typed

/-- A topology that passes the type check passes it after simplification. -/
theorem Topology.checkTypes_simplified {t : Topology} (checked : t.checkTypes = .ok ()) :
    t.simplified.checkTypes = .ok () := by
  rw [checkTypes_ok] at checked ⊢
  rw [simplified, List.forall_mem_map]
  intro n listed p value
  obtain ⟨⟨name, own⟩, member, rfl⟩ := List.mem_map.mp value
  obtain ⟨⟨key, q⟩, before, same⟩ := List.mem_map.mp member
  cases same
  exact Policy.wellTyped_simplify (checked n listed q (List.mem_map.mpr ⟨_, before, rfl⟩))

/-- Simplification keeps expressions and policies well typed, and a topology that passes the type check
can be simplified and passes it again. -/
theorem simplification_keeps_types :
    (∀ e : Expr, e.wellTyped = true → e.simplify.wellTyped = true ∧
      (e.simplify.type = e.type ∨ e.simplify.type = .unknown ∧ e.simplify ∈ e.nodes)) ∧
    (∀ p : Policy, p.wellTyped = true → p.simplify.wellTyped = true) ∧
    ∀ nodes edges t, Topology.create nodes edges = .ok t → t.checkTypes = .ok () →
      ∃ u, t.simplify = .ok u ∧ u.checkTypes = .ok () := by
  refine ⟨fun _ => Expr.type_simplify, fun _ => Policy.wellTyped_simplify, ?_⟩
  intro nodes edges t created checked
  obtain ⟨-, resolved⟩ := Topology.create_iff.mp created
  exact ⟨t.simplified, Topology.simplify_eq resolved, Topology.checkTypes_simplified checked⟩

namespace Surfacing

/-! A construct outside the vocabulary stands alone in a conjunction, which is the guard of a policy. -/

def probe : Expr := .unsupported "Probe" (.obj [("class", .str "example.Probe")])

def guard : Expr := .junction none .all [.not none (.not none probe), .lit none (.bool true)]

def policy : Policy :=
  ⟨"P", [.branch none guard [.assign none .asPath (.prepend none [] (.ref .asPath))]
    [.finish none .reject] .absent]⟩

def nodes : List Node :=
  [⟨"r1", none, ["10.0.0.0/8"], [("eth0", ⟨[], ["P"]⟩)], [("P", policy)], false⟩]

theorem guard_keeps_types :
    (guard.wellTyped = true ∧ guard.simplify.type = .unknown ∧ guard.simplify.wellTyped = true ∧
      (guard.simplify.type = guard.type ∨
        guard.simplify.type = .unknown ∧ guard.simplify ∈ guard.nodes)) ∧
    (policy.wellTyped = true ∧ policy.simplify.wellTyped = true) ∧
    ∃ t, Topology.create nodes [] = .ok t ∧ t.checkTypes = .ok () ∧
      ∃ u, t.simplify = .ok u ∧ u.checkTypes = .ok () := by
  have typed : guard.wellTyped = true := by decide
  have policyTyped : policy.wellTyped = true := by decide
  have created : Topology.create nodes [] = .ok ⟨nodes, []⟩ := by rfl
  have checked : (⟨nodes, []⟩ : Topology).checkTypes = .ok () := by rfl
  exact ⟨⟨typed, by rfl, simplification_keeps_types.1 guard typed⟩,
    ⟨policyTyped, simplification_keeps_types.2.1 policy policyTyped⟩, _, created, checked,
    simplification_keeps_types.2.2 nodes [] ⟨nodes, []⟩ created checked⟩

end Surfacing

end RoutePolicy
