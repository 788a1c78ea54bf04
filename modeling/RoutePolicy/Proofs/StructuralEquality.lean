import RoutePolicy.Proofs.SameExpressions

/-!
Equality of expressions and statements. It is equality of what is left without class names, with the
payloads of unsupported constructs as texts, and whatever is computed from an expression respects
it: its simplified form, its type and its issues, and its value over a record.
-/

set_option autoImplicit false

namespace RoutePolicy

/-! ### Statements -/

namespace Statement

mutual

/-- What `same` compares of a statement. -/
def content : Statement → Statement
  | branch _ guard onTrue onFalse comment =>
    branch none guard.content (contentAll onTrue) (contentAll onFalse) comment
  | assign _ target value => assign none target value.content
  | finish _ disposition => finish none disposition

def contentAll : List Statement → List Statement
  | [] => []
  | s :: rest => s.content :: contentAll rest

end

mutual

theorem same_iff {s t : Statement} : s.same t = true ↔ s.content = t.content := by
  cases s <;> cases t <;>
    simp [same, content, Expr.same_iff, sameAll_iff, and_assoc, and_comm, and_left_comm]

theorem sameAll_iff {ss ts : List Statement} :
    sameAll ss ts = true ↔ contentAll ss = contentAll ts := by
  cases ss <;> cases ts <;> simp [sameAll, contentAll, same_iff, sameAll_iff]

end

end Statement

namespace Expr

/-! ### Shapes -/

@[simp] theorem type_content (e : Expr) : e.content.type = e.type := by
  cases e <;> rfl

@[simp] theorem kind_content (e : Expr) : e.content.kind = e.kind := by
  cases e with
  | lit _ value => cases value <;> rfl
  | junction _ op _ => cases op <;> rfl
  | _ => rfl

theorem operandType?_content (e : Expr) : e.content.operandType? = e.operandType? := by
  cases e <;> rfl

theorem isOperator_content (e : Expr) : e.content.isOperator = e.isOperator := by
  cases e <;> rfl

theorem children_content (e : Expr) : e.content.children = e.children.map content := by
  cases e with
  | junction _ _ operands | union _ operands => exact contentAll_eq operands
  | _ => rfl

end Expr

/-! ### Types -/

/-- The issue about what `same` compares of its expression. -/
def Issue.content (issue : Issue) : Issue := ⟨issue.complaint, issue.node.content⟩

theorem Issue.ofOperand_content (role : Role) (expected : ValueType) (operand : Expr) :
    ofOperand role expected operand.content = (ofOperand role expected operand).map content := by
  unfold ofOperand
  rw [Expr.type_content]
  split <;> rfl

namespace Expr

mutual

theorem issues_content (e : Expr) : e.content.issues = e.issues.map Issue.content := by
  cases e with
  | junction _ op operands =>
    cases op <;> exact issuesAll_content _ .boolean operands
  | union _ operands => exact issuesAll_content _ .communities operands
  | compare _ _ left right =>
    simp only [content, issues, List.map_append, issues_content left, issues_content right,
      Issue.ofOperand_content]
  | not _ operand | prepend _ _ operand | hasCommunity _ operand _ | inRanges _ operand _ _
  | inList _ operand _ _ =>
    simp only [content, issues, List.map_append, issues_content operand, Issue.ofOperand_content]
  | lit _ _ | attr _ _ | call _ _ | adjust _ _ _ | namedSet _ _ | unsupported _ _ => rfl

theorem issuesAll_content (role : Role) (expected : ValueType) (es : List Expr) :
    issuesAll role expected (contentAll es) =
      (issuesAll role expected es).map Issue.content := by
  cases es with
  | nil => rfl
  | cons e rest =>
    simp only [contentAll, issuesAll, List.map_append, issues_content e, Issue.ofOperand_content,
      issuesAll_content role expected rest]

end

theorem wellTyped_content (e : Expr) : e.content.wellTyped = e.wellTyped := by
  rw [wellTyped, wellTyped, issues_content, List.all_map]
  rfl

end Expr

/-! ### Values -/

/-- Two steps come to the same up to a map if the first ones do, and the second ones wherever the
first ones come to the same. -/
theorem Outcome.map_bind_congr {α β γ δ : Type} {first other : Outcome α}
    {next further : α → Outcome β} {f : α → γ} {g : β → δ} (same : first.map f = other.map f)
    (each : ∀ a b, first = .ok a → other = .ok b → f a = f b →
      (next a).map g = (further b).map g) :
    (first >>= next).map g = (other >>= further).map g := by
  cases first with
  | error failure =>
    cases other with
    | error _ =>
      cases same
      rfl
    | ok b => cases same
  | ok a =>
    cases other with
    | error _ => cases same
    | ok b => exact each a b rfl rfl (Except.ok.inj same)

namespace Expr

theorem combine_content (e : Expr) : e.content.combine = e.combine.map content := by
  unfold combine
  rw [operandType?_content]
  split
  · exact congrArg Except.ok (simplifyNode_content e)
  · simp only [children_content, List.find?_map, Function.comp_def, type_content, kind_content]
    cases e.children.find? _ with
    | none => exact congrArg Except.ok (simplifyNode_content e)
    | some operand => simp [Except.map]

variable [Arithmetic] (calls : Calls) (r : Record)

theorem evaluateAll_content {es xs : List Expr} (related : List.Forall₂
      (fun e x => (e.evaluate calls r).map content = (x.evaluate calls r).map content) es xs) :
    (evaluateAll calls r es).map (List.map content) =
      (evaluateAll calls r xs).map (List.map content) := by
  induction related with
  | nil => rfl
  | cons first _ ih =>
    refine Outcome.map_bind_congr first fun value other _ _ same => ?_
    refine Outcome.map_bind_congr ih fun values others _ _ later => ?_
    show Except.ok (content value :: values.map content) =
      Except.ok (content other :: others.map content)
    rw [same, later]

/-- What an expression that is no operator comes to is told by its content. -/
theorem evaluate_leaf_content {e : Expr} (leaf : e.isOperator = false) :
    (e.content.evaluate calls r).map content = (e.evaluate calls r).map content := by
  cases e with
  | lit _ _ | attr _ _ | call _ _ | adjust _ _ _ | inList _ _ _ _ | namedSet _ _
  | unsupported _ _ => rfl
  | _ => cases leaf

/-- Equal expressions have equal values over a record, or fail alike. -/
theorem evaluate_content {a b : Expr} (equal : a.content = b.content) :
    (a.evaluate calls r).map content = (b.evaluate calls r).map content := by
  induction a using childrenInduction generalizing b with
  | step a ih =>
    have operators : a.isOperator = b.isOperator := by
      rw [← isOperator_content a, ← isOperator_content b, equal]
    cases operator : a.isOperator with
    | false =>
      have left := evaluate_leaf_content calls r operator
      have right := evaluate_leaf_content calls r (operators.symm.trans operator)
      rw [← left, equal, right]
    | true =>
      have parts : a.children.map content = b.children.map content := by
        rw [← children_content, ← children_content, equal]
      have related := forall₂_of_mem (map_eq_iff_forall₂.mp parts)
        fun x member _ _ same => ih x member same
      rw [evaluate_isOperator operator, evaluate_isOperator (operators.symm.trans operator)]
      refine Outcome.map_bind_congr (evaluateAll_content calls r related)
        fun xs ys left right same => ?_
      have whole : (a.withChildren xs).content = (b.withChildren ys).content := by
        rw [withChildren_content (evaluateAll_ok.mp left).length_eq.symm,
          withChildren_content (evaluateAll_ok.mp right).length_eq.symm, equal, same]
      rw [← combine_content, ← combine_content, whole]

end Expr

/-! ### Congruence -/

/-- Evaluations that come to equal expressions, or fail alike. -/
inductive Expr.Agree : Outcome Expr → Outcome Expr → Prop
  | value {x y : Expr} (equal : x.same y = true) : Agree (.ok x) (.ok y)
  | failure {f : Failure} : Agree (.error f) (.error f)

theorem Expr.Agree.of_map {x y : Outcome Expr} (equal : x.map content = y.map content) :
    Agree x y := by
  cases x with
  | error f =>
    cases y with
    | error g =>
      cases equal
      exact .failure
    | ok b => cases equal
  | ok a =>
    cases y with
    | error g => cases equal
    | ok b => exact .value (same_iff.mpr (Except.ok.inj equal))

/-- A relation that compares images is an equivalence. -/
theorem equivalence_of_iff {α β : Type} {f : α → β} {R : α → α → Bool}
    (compares : ∀ a b, R a b = true ↔ f a = f b) : Equivalence fun a b => R a b = true where
  refl a := (compares a a).mpr rfl
  symm {a b} equal := (compares b a).mpr ((compares a b).mp equal).symm
  trans {a b c} left right :=
    (compares a c).mpr (((compares a b).mp left).trans ((compares b c).mp right))

/-- Equality of expressions is equality of their contents, so it is an equivalence, and so is
equality of blocks of statements. Equal expressions are simplified to equal ones, have the same
type, are well typed or not together, and have equal values or fail alike over every record, however
calls are answered. -/
theorem structural_equality_respected [Arithmetic] :
    (∀ a b : Expr, a.same b = true ↔ a.content = b.content) ∧
    (Equivalence fun a b : Expr => a.same b = true) ∧
    (Equivalence fun ss ts : List Statement => Statement.sameAll ss ts = true) ∧
    ∀ a b : Expr, a.same b = true →
      a.simplify.same b.simplify = true ∧ a.type = b.type ∧ a.wellTyped = b.wellTyped ∧
        ∀ (calls : Calls) (r : Record), Expr.Agree (a.evaluate calls r) (b.evaluate calls r) := by
  refine ⟨fun _ _ => Expr.same_iff, equivalence_of_iff fun _ _ => Expr.same_iff,
    equivalence_of_iff fun _ _ => Statement.sameAll_iff, fun a b equal => ?_⟩
  have contents : a.content = b.content := Expr.same_iff.mp equal
  refine ⟨Expr.same_simplify equal, ?_, ?_, fun calls r => ?_⟩
  · rw [← Expr.type_content a, contents, Expr.type_content]
  · rw [← Expr.wellTyped_content a, contents, Expr.wellTyped_content]
  · exact .of_map (Expr.evaluate_content calls r contents)

end RoutePolicy
