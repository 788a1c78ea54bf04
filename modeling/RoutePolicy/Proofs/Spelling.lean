import RoutePolicy.Proofs.Erasure

/-!
Spellings of class names. Typing, simplification and evaluation do not read them: they commute with
erasing all of them.
-/

set_option autoImplicit false

namespace RoutePolicy

namespace Expr

mutual

/-- The expression with every class name short. -/
def bare : Expr → Expr
  | lit _ value => lit none value
  | attr _ name => attr none name
  | junction _ op operands => junction none op (bareAll operands)
  | not _ operand => not none operand.bare
  | compare _ comparator left right => compare none comparator left.bare right.bare
  | hasCommunity _ subject community => hasCommunity none subject.bare community
  | inRanges _ subject ranges _ => inRanges none subject.bare ranges none
  | inList _ subject name _ => inList none subject.bare name none
  | union _ operands => union none (bareAll operands)
  | prepend _ asns operand => prepend none asns operand.bare
  | call _ policy => call none policy
  | adjust _ shift amount => adjust none shift amount
  | namedSet _ name => namedSet none name
  | unsupported tag raw => unsupported tag raw

def bareAll : List Expr → List Expr
  | [] => []
  | e :: rest => e.bare :: bareAll rest

end

theorem bareAll_eq (es : List Expr) : bareAll es = es.map bare := by
  induction es with
  | nil => rfl
  | cons e rest ih => rw [bareAll, ih, List.map_cons]

/-! ### Shapes -/

@[simp] theorem type_bare (e : Expr) : e.bare.type = e.type := by
  cases e <;> rfl

@[simp] theorem kind_bare (e : Expr) : e.bare.kind = e.kind := by
  cases e with
  | lit _ value => cases value <;> rfl
  | junction _ op _ => cases op <;> rfl
  | _ => rfl

@[simp] theorem isLiteral_bare (e : Expr) : e.bare.isLiteral = e.isLiteral := by
  cases e <;> rfl

@[simp] theorem bool?_bare (e : Expr) : e.bare.bool? = e.bool? := by
  cases e with
  | lit _ value => cases value <;> rfl
  | _ => rfl

@[simp] theorem communities?_bare (e : Expr) : e.bare.communities? = e.communities? := by
  cases e with
  | lit _ value => cases value <;> rfl
  | _ => rfl

@[simp] theorem operandType?_bare (e : Expr) : e.bare.operandType? = e.operandType? := by
  cases e <;> rfl

@[simp] theorem children_bare (e : Expr) : e.bare.children = e.children.map bare := by
  cases e with
  | junction _ _ operands | union _ operands => exact bareAll_eq operands
  | _ => rfl

theorem bare_withChildren {e : Expr} {es : List Expr} (fits : es.length = e.children.length) :
    (e.withChildren es).bare = e.bare.withChildren (es.map bare) := by
  cases e with
  | junction cls op operands => simp only [withChildren, bare, bareAll_eq]
  | union cls operands => simp only [withChildren, bare, bareAll_eq]
  | compare _ _ _ _ =>
      obtain ⟨left, right, rfl⟩ := List.length_eq_two.mp fits
      rfl
  | not _ _ | prepend _ _ _ | hasCommunity _ _ _ | inRanges _ _ _ _ | inList _ _ _ _ =>
      obtain ⟨operand, rfl⟩ := List.length_eq_one_iff.mp fits
      rfl
  | lit _ _ | attr _ _ | call _ _ | adjust _ _ _ | namedSet _ _ | unsupported _ _ => rfl

mutual

theorem bare_eq_erase (e : Expr) : e.bare = e.erase id := by
  cases e <;> simp only [bare, erase, bare_eq_erase, bareAll_eq_eraseAll, id]

theorem bareAll_eq_eraseAll (es : List Expr) : bareAll es = eraseAll id es := by
  cases es <;> simp only [bareAll, eraseAll, bare_eq_erase, bareAll_eq_eraseAll]

end

/-! ### Simplification -/

theorem negate_bare (e : Expr) : e.bare.negate = e.negate.bare := by
  rw [bare_eq_erase, bare_eq_erase, negate_erase]

theorem simplifyNode_bare (e : Expr) : e.bare.simplifyNode = e.simplifyNode.bare := by
  rw [bare_eq_erase, bare_eq_erase, simplifyNode_erase Json.faithful_id]

theorem simplify_bare (e : Expr) : e.bare.simplify = e.simplify.bare := by
  rw [bare_eq_erase, bare_eq_erase, simplify_erase Json.faithful_id]

end Expr

/-! ### Records -/

namespace Record

def bare (r : Record) : Record := ⟨r.slots.map fun slot => (slot.1, slot.2.bare)⟩

variable (r : Record) (name : Attribute)

theorem get?_bare : r.bare.get? name = (r.get? name).map Expr.bare := by
  simp [get?, bare, List.find?_map, Function.comp_def]

theorem lookup_bare : r.bare.lookup name = (r.lookup name).map Expr.bare := by
  unfold lookup
  rw [get?_bare]
  cases r.get? name <;> rfl

theorem assign_bare (value : Expr) :
    r.bare.assign name value.bare = (r.assign name value).map bare := by
  unfold assign has
  rw [get?_bare, Option.isSome_map]
  split
  · simp only [bare, Except.map, List.map_map, Except.ok.injEq, mk.injEq]
    apply List.map_congr_left
    intro slot _
    simp only [Function.comp_apply]
    split <;> rfl
  · rfl

end Record

/-! ### Evaluation -/

/-- A map passes through two steps when it passes through the second one. -/
theorem Outcome.map_bind {α α' β β' : Type} {first : Outcome α} {f : α → α'} {next : α → Outcome β}
    {other : α' → Outcome β'} {g : β → β'}
    (same : ∀ a, first = .ok a → other (f a) = (next a).map g) :
    (first.map f >>= other) = (first >>= next).map g := by
  cases first with
  | ok a => exact same a rfl
  | error f => rfl

/-- Calls that give the same answers up to spelling. -/
def Calls.Mirrors (calls others : Calls) : Prop :=
  ∀ policy r, others policy r.bare = (calls policy r).map Expr.bare

namespace Expr

theorem isOperator_bare (e : Expr) : e.bare.isOperator = e.isOperator := by
  cases e <;> rfl

theorem combine_bare (e : Expr) : e.bare.combine = e.combine.map bare := by
  unfold combine
  rw [operandType?_bare]
  split
  · exact congrArg Except.ok (simplifyNode_bare e)
  · simp only [children_bare, List.find?_map, Function.comp_def, type_bare, kind_bare]
    cases e.children.find? _ with
    | none => exact congrArg Except.ok (simplifyNode_bare e)
    | some operand => simp [Except.map]

theorem offset_bare (delta : Int) : (offset delta).bare = offset delta := by
  unfold offset
  repeat' split
  all_goals rfl

variable [Arithmetic] {calls others : Calls} (r : Record)

theorem moved_bare (current : Expr) (delta : Int) :
    current.bare.moved delta = (current.moved delta).map bare := by
  cases current with
  | lit _ value => cases value <;> rfl
  | adjust _ shift amount => exact congrArg Except.ok (offset_bare _).symm
  | attr _ name =>
      cases name <;> first | rfl | exact congrArg Except.ok (offset_bare _).symm
  | junction _ op _ => cases op <;> rfl
  | _ => rfl

theorem evaluateAll_bare {es : List Expr}
    (each : ∀ e ∈ es, e.bare.evaluate others r.bare = (e.evaluate calls r).map bare) :
    evaluateAll others r.bare (es.map bare) = (evaluateAll calls r es).map (List.map bare) := by
  induction es with
  | nil => rfl
  | cons e rest ih =>
      obtain ⟨here, later⟩ := List.forall_mem_cons.mp each
      rw [List.map_cons, evaluateAll, evaluateAll, here, ih later]
      refine Outcome.map_bind fun x _ => ?_
      exact Outcome.map_bind fun xs _ => rfl

/-- Evaluation does not read spellings. -/
theorem evaluate_bare (mirrors : calls.Mirrors others) (e : Expr) :
    e.bare.evaluate others r.bare = (e.evaluate calls r).map bare := by
  induction e using childrenInduction with
  | step e ih =>
    cases operator : e.isOperator with
    | true =>
        rw [evaluate_isOperator ((isOperator_bare e).trans operator), evaluate_isOperator operator,
          children_bare, evaluateAll_bare r ih]
        refine Outcome.map_bind fun xs values => ?_
        have lengths := (evaluateAll_ok.mp values).length_eq
        rw [← bare_withChildren lengths.symm, combine_bare]
    | false =>
        cases e with
        | attr cls name => exact Record.lookup_bare r name
        | call cls policy => exact mirrors policy r
        | adjust cls shift amount =>
            simp only [bare, evaluate, Record.lookup_bare]
            exact Outcome.map_bind fun current _ => moved_bare current _
        | lit _ _ | inList _ _ _ _ | namedSet _ _ | unsupported _ _ => rfl
        | _ => cases operator

end Expr

end RoutePolicy
