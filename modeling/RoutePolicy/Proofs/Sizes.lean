import RoutePolicy.Proofs.Shrinking
import RoutePolicy.Proofs.SimplifiedPolicies

/-!
Simplification adds no nodes, whatever the operands are: no rule needs well-typed or present ones.
-/

set_option autoImplicit false

namespace RoutePolicy

namespace Expr

/-- The number of nodes below the root. -/
def inner (e : Expr) : Nat := sizeAll e.children

theorem size_eq (e : Expr) : e.size = e.inner + 1 := by
  cases e <;> simp only [size, inner, children, sizeAll] <;> omega

theorem sizeAll_eq (es : List Expr) : sizeAll es = total inner es := by
  induction es with
  | nil => rfl
  | cons e rest ih => rw [sizeAll, total_cons, size_eq, ih]

theorem inner_eq (e : Expr) : e.inner = total inner e.children := sizeAll_eq e.children

theorem size_constant_le (value : Bool) (e : Expr) : (bool value).size ≤ e.size := by
  rw [size_eq e]
  exact Nat.le_add_left 1 _

/-- A lone part is no larger than what it is a part of. -/
theorem size_le_of_lone {e x : Expr} (lone : total inner [e] ≤ x.inner) : e.size ≤ x.size := by
  rw [total_cons, total_nil] at lone
  rw [size_eq, size_eq]
  omega

theorem size_simplifyJunction_le (cls : Spelling) (op : Junction) (operands : List Expr) :
    (simplifyJunction op operands).size ≤ (junction cls op operands).size := by
  have parts : total inner (operands.flatMap (junctionParts op)) ≤ total inner operands := by
    apply total_flatMap_le
    intro e _
    unfold junctionParts
    split
    · split
      · rw [inner_eq]
        exact Nat.le_succ _
      · exact Nat.le_refl _
    · exact Nat.le_refl _
  have kept : total inner (keptParts op operands) ≤ (junction cls op operands).inner := by
    rw [inner_eq]
    exact (total_sublist_le ((distinct_sublist _ _).trans List.filter_sublist)).trans parts
  rw [simplifyJunction_eq]
  split
  · exact size_constant_le _ _
  split
  · exact size_constant_le _ _
  split
  · exact size_constant_le _ _
  · rename_i e single
    rw [single] at kept
    exact size_le_of_lone kept
  · rw [size_eq, size_eq, inner_eq]
    exact Nat.succ_le_succ kept

theorem inner_mergedParts_le (operands : List Expr) :
    total inner (mergedParts operands) ≤ total inner operands := by
  have parts : total inner (operands.flatMap unionParts) ≤ total inner operands := by
    apply total_flatMap_le
    intro e _
    cases e with
    | union cls es =>
        rw [inner_eq]
        exact Nat.le_succ _
    | _ => exact Nat.le_refl _
  have split := total_filter (f := inner) (·.communities?.isNone) (operands.flatMap unionParts)
  have others : total inner (otherParts operands) ≤ _ :=
    total_sublist_le (distinct_sublist same _)
  have sets : total (fun _ => 0) (setParts operands) ≤ _ :=
    total_sets_le (f := inner) (fun _ _ => Nat.le_refl 0) (operands.flatMap unionParts)
  rw [total_mergedParts]
  cases found : setParts operands with
  | nil =>
      rw [List.isEmpty_nil, if_pos rfl]
      omega
  | cons first more =>
      rw [found, total_cons] at sets
      rw [List.isEmpty_cons, if_neg Bool.false_ne_true, inner]
      simp only [children, sizeAll]
      omega

theorem size_simplifyUnion_le (cls : Spelling) (operands : List Expr) :
    (simplifyUnion operands).size ≤ (union cls operands).size := by
  have merged : total inner (mergedParts operands) ≤ (union cls operands).inner := by
    rw [inner_eq]
    exact inner_mergedParts_le operands
  rcases simplifyUnion_form operands with single | ⟨-, equal⟩
  · rw [single] at merged
    exact size_le_of_lone merged
  · rw [equal, size_eq, size_eq, inner_eq]
    exact Nat.succ_le_succ merged

theorem size_simplifyHasCommunity_le (cls : Spelling) (subject : Expr) (community : String) :
    (simplifyHasCommunity subject community).size ≤ (hasCommunity cls subject community).size := by
  unfold simplifyHasCommunity
  split
  · exact size_constant_le _ _
  · rename_i cls' operands
    split
    · exact Nat.le_refl _
    · split
      · exact size_constant_le _ _
      · have erased : total inner (operands.eraseP (·.communities?.isSome)) ≤
            (union cls' operands).inner := by
          rw [inner_eq]
          exact total_sublist_le List.eraseP_sublist
        split
        · rename_i e single
          rw [single] at erased
          exact Nat.add_le_add_left (size_le_of_lone erased) 1
        · exact Nat.add_le_add_left (Nat.add_le_add_left (by rwa [sizeAll_eq]) 1) 1
  · exact Nat.le_refl _

/-- No rule adds nodes. -/
theorem size_simplifyNode_le (e : Expr) : e.simplifyNode.size ≤ e.size := by
  cases e with
  | junction cls op operands => exact size_simplifyJunction_le cls op operands
  | union cls operands => exact size_simplifyUnion_le cls operands
  | hasCommunity cls subject community => exact size_simplifyHasCommunity_le cls subject community
  | not cls operand =>
      rw [simplifyNode]
      unfold negate
      split
      · exact size_constant_le _ _
      · simp only [size]
        omega
      · exact Nat.le_refl _
  | compare cls comparator left right =>
      rw [simplifyNode.eq_def]
      dsimp only
      split
      · exact size_constant_le _ _
      · exact Nat.le_refl _
  | inRanges cls subject ranges setCls =>
      rw [simplifyNode]
      unfold simplifyInRanges
      split
      · split
        · exact size_constant_le _ _
        · exact Nat.le_refl _
      · exact Nat.le_refl _
  | prepend cls list operand =>
      rw [simplifyNode]
      unfold simplifyPrepend
      split
      · simp only [size]
        omega
      · split <;> simp only [size] <;> omega
  | inList _ _ _ _ | lit _ _ | attr _ _ | call _ _ | adjust _ _ _ | namedSet _ _
  | unsupported _ _ => exact Nat.le_refl _

/-- Simplification adds no nodes. -/
theorem size_simplify_le (e : Expr) : e.simplify.size ≤ e.size := by
  induction e using childrenInduction with
  | step e ih =>
      have fits : (e.children.map simplify).length = e.children.length := List.length_map _
      have parts : total inner (e.children.map simplify) ≤ total inner e.children := by
        apply total_map_le
        intro c member
        have own := ih c member
        rw [size_eq, size_eq] at own
        exact Nat.le_of_succ_le_succ own
      have rebuilt : (e.withChildren (e.children.map simplify)).size ≤ e.size := by
        rw [size_eq, size_eq, inner_eq, inner_eq, children_withChildren fits]
        exact Nat.succ_le_succ parts
      rw [simplify_eq]
      unfold settle
      dsimp only
      split
      · exact rebuilt
      · exact (size_simplifyNode_le _).trans rebuilt

end Expr

/-! ### Statements -/

namespace Statement

theorem sizeAll_append (first second : List Statement) :
    sizeAll (first ++ second) = sizeAll first + sizeAll second := by
  induction first with
  | nil => exact (Nat.zero_add _).symm
  | cons s rest ih => rw [List.cons_append, sizeAll, sizeAll, ih, Nat.add_assoc]

theorem sizeAll_sublist_le {kept block : List Statement} (dropped : kept.Sublist block) :
    sizeAll kept ≤ sizeAll block := by
  induction dropped with
  | slnil => exact Nat.le_refl _
  | cons s _ ih =>
      rw [sizeAll]
      omega
  | cons_cons s _ ih =>
      rw [sizeAll, sizeAll]
      omega

mutual

/-- A branching gives way to one of its branches or keeps both; no other statement is replaced. -/
theorem sizeAll_simplify_le (s : Statement) : sizeAll s.simplify ≤ s.size := by
  cases s with
  | branch cls guard onTrue onFalse comment =>
      have own := Expr.size_simplify_le guard
      have yes := sizeAll_simplifyAll_le onTrue
      have no := sizeAll_simplifyAll_le onFalse
      rw [simplify]
      split
      · split
        · rw [size]
          omega
        · rw [size]
          omega
      · split
        · rw [size]
          omega
        · simp only [sizeAll, size]
          omega
  | assign cls target value =>
      have own := Expr.size_simplify_le value
      simp only [simplify, sizeAll, size]
      omega
  | finish cls disposition => exact Nat.le_refl _

/-- Simplification makes no block larger. -/
theorem sizeAll_simplifyAll_le (block : List Statement) :
    sizeAll (simplifyAll block) ≤ sizeAll block := by
  cases block with
  | nil => exact Nat.le_refl _
  | cons s rest =>
      have first := sizeAll_simplify_le s
      have later := sizeAll_simplifyAll_le rest
      have kept := sizeAll_sublist_le (cutAfterEnd_sublist (s.simplify ++ simplifyAll rest))
      rw [sizeAll_append] at kept
      rw [simplifyAll, sizeAll]
      omega

end

end Statement

end RoutePolicy
