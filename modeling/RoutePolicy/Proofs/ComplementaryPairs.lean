import RoutePolicy.Proofs.Complements

/-!
An expression beside its negation. Whatever stands around the two, the pair decides a junction if
the expression simplifies neither to a junction of this kind nor to the negation of one. Any other
expression is taken apart, itself or under its negation, before complements are looked for, and the
pair alone leaves the junction open.
-/

set_option autoImplicit false

namespace RoutePolicy.Expr

variable {op : Junction}

/-! ### Junctions that become constants -/

theorem simplifyJunction_of_bool? {operands : List Expr} {value : Bool}
    (constant : (simplifyJunction op operands).bool? = some value) :
    simplifyJunction op operands = bool value := by
  rcases simplifyJunction_form op operands with ⟨other, equal⟩ | ⟨kept, parts, form⟩
  · rw [equal] at constant ⊢
    cases constant
    rfl
  · rcases form with single | ⟨-, equal⟩
    · have open' := (parts _ (single ▸ List.mem_singleton_self _)).2
      rw [open'] at constant
      cases constant
    · rw [equal] at constant
      cases constant

/-- A junction becomes the plain constant that decides it exactly if its simplified parts do. -/
theorem simplify_eq_deciding {cls : Spelling} {operands : List Expr} :
    (junction cls op operands).simplify = bool (!Junction.neutral op) ↔
      Decisive op (simpleParts op operands) := by
  rw [← @simplify_decided op cls operands]
  constructor
  · intro equal
    rw [equal]
    rfl
  · intro constant
    have rewritten : (simplifyJunction op (simplifyAll operands)).bool? =
        some (!Junction.neutral op) := by
      rwa [simplify, ← bool?_content, settle_content, bool?_content, simplifyNode] at constant
    have plain := simplifyJunction_of_bool? rewritten
    rw [simplify, settle, simplifyNode, plain]
    rfl

/-! ### Junctions beside their negation -/

theorem sizeOf_content_lt {operands : List Expr} {e : Expr} (member : e ∈ operands) :
    sizeOf e.content < sizeOf (junction none op operands).content := by
  have smaller : sizeOf e.content < sizeOf (operands.map content) :=
    List.sizeOf_lt_of_mem (List.mem_map_of_mem member)
  rw [content, contentAll_eq, junction.sizeOf_spec]
  omega

/-- The operands of a junction to which no rule applies do not decide it together with the negation
of the whole junction: the negation is not the complement of a single operand. -/
theorem NormalJunction.undecided_beside_negation {operands parts : List Expr} {negation : Expr}
    (normal : NormalJunction op operands)
    (negates : negation.content = not none (junction none op operands).content)
    (among : ∀ p ∈ parts, p ∈ operands ∨ p = negation) : ¬Decisive op parts := by
  rintro (⟨p, member, constant⟩ | ⟨p, member, q, other, -, complement⟩)
  · rcases among p member with operand | rfl
    · rw [normal.undecided p operand] at constant
      cases constant
    · rw [← bool?_content, negates] at constant
      cases constant
  · rcases among p member with operand | rfl
    · rcases among q other with operand' | rfl
      · obtain ⟨cls, inner, rfl, equal⟩ := eq_not_of_content complement
        exact same_eq_false.mp (normal.consistent cls inner operand q operand') equal.symm
      · -- an operand that negates the whole negation would be larger than the junction
        have smaller := @sizeOf_content_lt op operands p operand
        rw [complement, negates, not.sizeOf_spec, not.sizeOf_spec] at smaller
        omega
    · rcases among q other with operand | rfl
      · rw [negates, not.injEq] at complement
        have flat := normal.flat q operand
        rw [← joins_content, ← complement.2] at flat
        exact absurd flat (by simp [joins, content])
      · have sizes := congrArg sizeOf complement
        rw [not.sizeOf_spec] at sizes
        omega

/-- What simplifies to a junction of a kind, and its negation, are parts that leave it open. -/
theorem undecided_of_joins {x y : Expr} {parts : List Expr} (joined : x.simplify.joins op = true)
    (opposite : y.simplify.content = x.simplify.negate.content)
    (among : ∀ p ∈ parts, p ∈ junctionParts op x.simplify ∨ p ∈ junctionParts op y.simplify) :
    ¬Decisive op parts := by
  obtain ⟨cls, operands, equal⟩ := eq_junction_of_joins joined
  have normal : NormalJunction op operands := by
    have root := (each_normal_simplify x).root
    rwa [equal] at root
  have negates : y.simplify.content = not none (junction none op operands).content := by
    rw [opposite, equal]
    rfl
  have flat : y.simplify.joins op = false := by
    rw [← joins_content, negates]
    rfl
  rw [equal, junctionParts_junction, junctionParts_of_flat flat] at among
  refine normal.undecided_beside_negation negates fun p member => ?_
  exact (among p member).imp_right List.mem_singleton.mp

/-- A pair of an expression and its opposite decides a junction by itself only if the expression is
recognised beside its negation. -/
theorem whole_of_decisive {x y : Expr}
    (opposite : y.simplify.content = x.simplify.negate.content)
    (decisive : Decisive op (simpleParts op [x, y])) : x.Whole op := by
  have among : ∀ p ∈ simpleParts op [x, y],
      p ∈ junctionParts op x.simplify ∨ p ∈ junctionParts op y.simplify := by
    simp [simpleParts]
  constructor
  · by_contra joined
    exact undecided_of_joins (Bool.eq_true_of_not_eq_false joined) opposite among decisive
  · by_contra joined
    have reversed : y.simplify.joins op = true := by
      rw [← joins_content, opposite, joins_content, Bool.eq_true_of_not_eq_false joined]
    exact undecided_of_joins reversed (opposite_symm opposite)
      (fun p member => (among p member).symm) decisive

/-! ### Complementary pairs -/

/-- The expressions whose complementary pairs decide a junction, in either order and whatever stands
before, between and after the two, are those that simplify neither to a junction of the kind nor to
the negation of one. -/
theorem complementary_pairs_decide_iff (op : Junction) (x : Expr) :
    (∀ (cls cls' : Spelling) (before between after : List Expr),
      (junction cls op (before ++ x :: between ++ not cls' x :: after)).simplify =
          bool (!Junction.neutral op) ∧
        (junction cls op (before ++ not cls' x :: between ++ x :: after)).simplify =
          bool (!Junction.neutral op)) ↔
      x.Whole op := by
  simp only [simplify_eq_deciding]
  constructor
  · intro decides
    exact whole_of_decisive (simplify_not none x) (decides none none [] [] []).1
  · intro whole cls cls' before between after
    have opposite := simplify_not cls' x
    constructor
    · exact decisive_of_complement (by simp) (by simp) whole opposite
    · exact decisive_of_complement (by simp) (by simp) whole opposite

namespace NestedPair

def tagged (community : String) : Expr := hasCommunity none (ref .communities) community

def both (op : Junction) : Expr := junction none op [tagged "65000:1", tagged "65000:2"]

end NestedPair

open NestedPair in
/-- A conjunction beside its negation is not decided within a conjunction, nor a disjunction beside
its negation within a disjunction: the operands of the first take its place. -/
theorem nested_pairs_left_open :
    (all [both .all, not none (both .all)]).simplify =
        all [tagged "65000:1", tagged "65000:2", not none (both .all)] ∧
      (all [both .all, not none (both .all)]).simplify ≠ bool false ∧
      (any [not none (both .any), both .any]).simplify =
        any [not none (both .any), tagged "65000:1", tagged "65000:2"] ∧
      (any [not none (both .any), both .any]).simplify ≠ bool true := by
  have conjunction : (all [both .all, not none (both .all)]).simplify =
      all [tagged "65000:1", tagged "65000:2", not none (both .all)] := by
    with_unfolding_all rfl
  have disjunction : (any [not none (both .any), both .any]).simplify =
      any [not none (both .any), tagged "65000:1", tagged "65000:2"] := by
    with_unfolding_all rfl
  refine ⟨conjunction, ?_, disjunction, ?_⟩
  · rw [conjunction, all, bool]
    exact Expr.noConfusion
  · rw [disjunction, any, bool]
    exact Expr.noConfusion

end RoutePolicy.Expr
