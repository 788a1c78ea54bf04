import RoutePolicy.Proofs.Evaluation
import RoutePolicy.Proofs.JsonText

/-!
Erasing what equality of expressions does not read. Simplification does not read it either: it
commutes with writing all class names short, and with a change of the payloads of constructs outside
the vocabulary that keeps different texts different.
-/

set_option autoImplicit false

namespace RoutePolicy

section

variable {α β : Type}

/-- Items that are related as their images are stay distinct under the map. -/
theorem distinct_map {related : α → α → Bool} {others : β → β → Bool} {f : β → α}
    (same : ∀ x y, related (f x) (f y) = others x y) (xs : List β) :
    distinct related (xs.map f) = (distinct others xs).map f := by
  induction xs with
  | nil => rfl
  | cons x rest ih =>
      rw [List.map_cons, distinct, ih, distinct, List.map_cons, List.filter_map]
      congr 3
      funext y
      exact congrArg Bool.not (same x y)

end

/-- A change of payloads after which texts are equal exactly if they were equal before. -/
def Json.Faithful (f : Json → Json) : Prop := ∀ j k, (f j).chars = (f k).chars ↔ j.chars = k.chars

theorem Json.faithful_id : Faithful id := fun _ _ => Iff.rfl

/-- The text of a payload may stand for the payload. -/
theorem Json.faithful_compact : Faithful fun raw => .str raw.compact := by
  intro j k
  constructor
  · intro texts
    have quotes : quoted j.compact ++ [] = quoted k.compact ++ [] := congrArg (· ++ []) texts
    exact String.ofList_inj.mp (quoted_append_inj quotes).1
  · intro texts
    simp only [compact, texts]

namespace Expr

mutual

/-- The expression with every class name short and every payload changed. -/
def erase (f : Json → Json) : Expr → Expr
  | lit _ value => lit none value
  | attr _ name => attr none name
  | junction _ op operands => junction none op (eraseAll f operands)
  | not _ operand => not none (operand.erase f)
  | compare _ comparator left right => compare none comparator (left.erase f) (right.erase f)
  | hasCommunity _ subject community => hasCommunity none (subject.erase f) community
  | inRanges _ subject ranges _ => inRanges none (subject.erase f) ranges none
  | inList _ subject name _ => inList none (subject.erase f) name none
  | union _ operands => union none (eraseAll f operands)
  | prepend _ asns operand => prepend none asns (operand.erase f)
  | call _ policy => call none policy
  | adjust _ shift amount => adjust none shift amount
  | namedSet _ name => namedSet none name
  | unsupported tag raw => unsupported tag (f raw)

def eraseAll (f : Json → Json) : List Expr → List Expr
  | [] => []
  | e :: rest => e.erase f :: eraseAll f rest

end

variable {f : Json → Json}

theorem eraseAll_eq (es : List Expr) : eraseAll f es = es.map (erase f) := by
  induction es with
  | nil => rfl
  | cons e rest ih => rw [eraseAll, ih, List.map_cons]

/-! ### Shapes -/

@[simp] theorem bool?_erase (e : Expr) : (e.erase f).bool? = e.bool? := by
  cases e with
  | lit _ value => cases value <;> rfl
  | _ => rfl

@[simp] theorem communities?_erase (e : Expr) : (e.erase f).communities? = e.communities? := by
  cases e with
  | lit _ value => cases value <;> rfl
  | _ => rfl

theorem children_erase (e : Expr) : (e.erase f).children = e.children.map (erase f) := by
  cases e with
  | junction _ _ operands | union _ operands => exact eraseAll_eq operands
  | _ => rfl

theorem erase_withChildren {e : Expr} {es : List Expr} (fits : es.length = e.children.length) :
    (e.withChildren es).erase f = (e.erase f).withChildren (es.map (erase f)) := by
  cases e with
  | junction cls op operands => simp only [withChildren, erase, eraseAll_eq]
  | union cls operands => simp only [withChildren, erase, eraseAll_eq]
  | compare _ _ _ _ =>
      obtain ⟨left, right, rfl⟩ := List.length_eq_two.mp fits
      rfl
  | not _ _ | prepend _ _ _ | hasCommunity _ _ _ | inRanges _ _ _ _ | inList _ _ _ _ =>
      obtain ⟨operand, rfl⟩ := List.length_eq_one_iff.mp fits
      rfl
  | lit _ _ | attr _ _ | call _ _ | adjust _ _ _ | namedSet _ _ | unsupported _ _ => rfl

mutual

theorem same_erase (faithful : Json.Faithful f) (a b : Expr) :
    (a.erase f).same (b.erase f) = a.same b := by
  cases a <;> cases b <;> simp only [erase, same, same_erase faithful, sameAll_erase faithful,
    faithful _ _]

theorem sameAll_erase (faithful : Json.Faithful f) (as bs : List Expr) :
    sameAll (eraseAll f as) (eraseAll f bs) = sameAll as bs := by
  cases as <;> cases bs <;> simp only [eraseAll, sameAll, same_erase faithful,
    sameAll_erase faithful]

end

/-! ### Simplification -/

theorem negate_erase (e : Expr) : (e.erase f).negate = e.negate.erase f := by
  cases e with
  | lit _ value => cases value <;> rfl
  | _ => rfl

theorem distinct_erase (faithful : Json.Faithful f) (es : List Expr) :
    distinct same (es.map (erase f)) = (distinct same es).map (erase f) :=
  distinct_map (same_erase faithful) es

theorem junctionParts_erase (op : Junction) (e : Expr) :
    junctionParts op (e.erase f) = (junctionParts op e).map (erase f) := by
  cases e with
  | junction _ op' operands =>
      simp only [erase, junctionParts, eraseAll_eq]
      split
      · rfl
      · simp only [List.map_cons, List.map_nil, erase, eraseAll_eq]
  | _ => rfl

theorem hasComplement_erase (faithful : Json.Faithful f) (es : List Expr) (e : Expr) :
    hasComplement (es.map (erase f)) (e.erase f) = hasComplement es e := by
  cases e with
  | not _ operand =>
      simp only [erase, hasComplement, List.any_map]
      congr 1
      funext x
      exact same_erase faithful x operand
  | _ => rfl

theorem simplifyJunction_erase (faithful : Json.Faithful f) (op : Junction) (es : List Expr) :
    simplifyJunction op (es.map (erase f)) = (simplifyJunction op es).erase f := by
  have parts : (es.map (erase f)).flatMap (junctionParts op) =
      (es.flatMap (junctionParts op)).map (erase f) := by
    simp only [List.flatMap_map, List.map_flatMap, junctionParts_erase]
  have decided : ∀ (xs : List Expr) (value : Bool),
      (xs.map (erase f)).any (·.bool? = some value) = xs.any (·.bool? = some value) := by
    intro xs value
    simp [List.any_map, Function.comp_def]
  have open' : ∀ xs : List Expr,
      (xs.map (erase f)).filter (·.bool?.isNone) = (xs.filter (·.bool?.isNone)).map (erase f) := by
    intro xs
    simp [List.filter_map, Function.comp_def]
  have complements : ∀ xs : List Expr,
      (xs.map (erase f)).any (hasComplement (xs.map (erase f))) = xs.any (hasComplement xs) := by
    intro xs
    simp [List.any_map, Function.comp_def, hasComplement_erase faithful]
  unfold simplifyJunction
  simp only [parts, decided, open', distinct_erase faithful, complements]
  split
  · rfl
  · split
    · rfl
    · generalize distinct same (List.filter _ _) = kept
      rcases kept with _ | ⟨e, _ | ⟨other, rest⟩⟩
      · rfl
      · rfl
      · simp only [List.map_cons, erase, eraseAll_eq]

theorem unionParts_erase (e : Expr) : unionParts (e.erase f) = (unionParts e).map (erase f) := by
  cases e with
  | union _ operands => simp only [erase, unionParts, eraseAll_eq]
  | _ => rfl

theorem mergedParts_erase (faithful : Json.Faithful f) (es : List Expr) :
    mergedParts (es.map (erase f)) = (mergedParts es).map (erase f) := by
  have parts : (es.map (erase f)).flatMap unionParts = (es.flatMap unionParts).map (erase f) := by
    simp only [List.flatMap_map, List.map_flatMap, unionParts_erase]
  have literals : ∀ xs : List Expr,
      (xs.map (erase f)).filterMap communities? = xs.filterMap communities? := by
    intro xs
    simp [List.filterMap_map]
  have others : ∀ xs : List Expr, (xs.map (erase f)).filter (·.communities?.isNone) =
      (xs.filter (·.communities?.isNone)).map (erase f) := by
    intro xs
    simp [List.filter_map, Function.comp_def]
  have before : ∀ xs : List Expr, (xs.map (erase f)).takeWhile (·.communities?.isNone) =
      (xs.takeWhile (·.communities?.isNone)).map (erase f) := by
    intro xs
    simp [List.takeWhile_map, Function.comp_def]
  unfold mergedParts
  simp only [parts, literals, others, before, distinct_erase faithful, List.length_map]
  split
  · rfl
  · simp only [List.map_append, List.map_take, List.map_cons, List.map_drop, erase]

theorem simplifyUnion_erase (faithful : Json.Faithful f) (es : List Expr) :
    simplifyUnion (es.map (erase f)) = (simplifyUnion es).erase f := by
  rw [simplifyUnion_eq, simplifyUnion_eq, mergedParts_erase faithful]
  rcases mergedParts es with _ | ⟨e, _ | ⟨other, rest⟩⟩
  · rfl
  · rfl
  · simp only [List.map_cons, erase, eraseAll_eq]

theorem simplifyHasCommunity_erase (subject : Expr) (community : String) :
    simplifyHasCommunity (subject.erase f) community =
      (simplifyHasCommunity subject community).erase f := by
  cases subject with
  | lit _ value => cases value <;> rfl
  | union _ operands =>
      have sets : (operands.map (erase f)).findSome? communities? =
          operands.findSome? communities? := by
        simp [List.findSome?_map, Function.comp_def]
      have rest : (operands.map (erase f)).eraseP (·.communities?.isSome) =
          (operands.eraseP (·.communities?.isSome)).map (erase f) := by
        simp [List.eraseP_map, Function.comp_def]
      simp only [erase, eraseAll_eq, simplifyHasCommunity, sets, rest]
      split
      · simp only [erase, eraseAll_eq]
      · split
        · rfl
        · generalize List.eraseP _ operands = kept
          rcases kept with _ | ⟨e, _ | ⟨other, others⟩⟩
          · rfl
          · rfl
          · simp only [List.map_cons, erase, eraseAll_eq]
  | _ => rfl

theorem simplifyInRanges_erase (subject : Expr) (ranges : List String) :
    simplifyInRanges (subject.erase f) ranges = (simplifyInRanges subject ranges).erase f := by
  cases subject with
  | lit _ value =>
      cases value with
      | network text =>
          simp only [erase, simplifyInRanges]
          split <;> rfl
      | _ => rfl
  | _ => rfl

theorem simplifyPrepend_erase (asns : List Int) (operand : Expr) :
    simplifyPrepend asns (operand.erase f) = (simplifyPrepend asns operand).erase f := by
  unfold simplifyPrepend
  split
  · rfl
  · cases operand with
    | lit _ value => cases value <;> rfl
    | _ => rfl

theorem simplifyNode_erase (faithful : Json.Faithful f) (e : Expr) :
    (e.erase f).simplifyNode = e.simplifyNode.erase f := by
  cases e with
  | junction cls op operands =>
      rw [erase, eraseAll_eq]
      exact simplifyJunction_erase faithful op operands
  | union cls operands =>
      rw [erase, eraseAll_eq]
      exact simplifyUnion_erase faithful operands
  | not cls operand => exact negate_erase operand
  | hasCommunity cls subject community => exact simplifyHasCommunity_erase subject community
  | inRanges cls subject ranges setCls => exact simplifyInRanges_erase subject ranges
  | prepend cls asns operand => exact simplifyPrepend_erase asns operand
  | compare cls comparator left right =>
      cases left with
      | lit _ value =>
          cases value <;> first | rfl | (cases right with
            | lit _ value => cases value <;> rfl
            | _ => rfl)
      | _ => rfl
  | _ => rfl

theorem settle_erase (faithful : Json.Faithful f) (e : Expr) :
    settle (e.erase f) = (settle e).erase f := by
  unfold settle
  simp only [simplifyNode_erase faithful, same_erase faithful]
  split <;> rfl

theorem simplify_erase (faithful : Json.Faithful f) (e : Expr) :
    (e.erase f).simplify = e.simplify.erase f := by
  induction e using childrenInduction with
  | step e ih =>
    have parts : (e.erase f).children.map simplify = (e.children.map simplify).map (erase f) := by
      rw [children_erase, List.map_map, List.map_map]
      exact List.map_congr_left ih
    rw [simplify_eq, parts, ← erase_withChildren (List.length_map _), settle_erase faithful,
      ← simplify_eq]

end Expr

end RoutePolicy
