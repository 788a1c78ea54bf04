import RoutePolicy.Proofs.RunInvariants

/-!
Type soundness. A policy that was checked does not stop at an operand of the wrong type or at a
guard that is no condition, and the paths it has keep the types of the attributes.
-/

set_option autoImplicit false

namespace RoutePolicy

/-! ### Types of results -/

namespace Expr

/-- An operator that simplification may replace by one of its operands. -/
def yields : Expr → Bool
  | junction _ _ _ | not _ _ | union _ _ => true
  | _ => false

/-- An expression of a type, as are all operands that may take its place. -/
inductive Firm (expected : ValueType) : Expr → Prop
  | node {e : Expr} (typed : e.type = expected)
      (operands : e.yields = true → ∀ c ∈ e.children, Firm expected c) : Firm expected e

variable {e : Expr} {expected : ValueType}

theorem Firm.type (firm : e.Firm expected) : e.type = expected := by
  cases firm with
  | node typed _ => exact typed

theorem Firm.operand (firm : e.Firm expected) (yields : e.yields = true) {c : Expr}
    (member : c ∈ e.children) : c.Firm expected := by
  cases firm with
  | node _ operands => exact operands yields c member

/-- An operator that stays is of its own type, whatever its operands are. -/
theorem firm_of_stays (stays : e.yields = false) (typed : e.type = expected) : e.Firm expected := by
  refine .node typed fun yields => ?_
  rw [stays] at yields
  cases yields

theorem Firm.negate (firm : e.Firm .boolean) : e.negate.Firm .boolean := by
  unfold Expr.negate
  split
  · exact firm_of_stays rfl rfl
  · exact firm.operand rfl (List.mem_singleton_self _)
  · exact .node rfl fun _ => List.forall_mem_singleton.mpr firm

theorem Firm.junctionParts {op : Junction} {part : Expr} (firm : e.Firm .boolean)
    (member : part ∈ Expr.junctionParts op e) : part.Firm .boolean := by
  unfold Expr.junctionParts at member
  split at member
  · split at member
    · exact firm.operand rfl member
    · rwa [List.mem_singleton.mp member]
  · rwa [List.mem_singleton.mp member]

theorem firm_simplifyJunction {op : Junction} {operands : List Expr}
    (all : ∀ e ∈ operands, e.Firm .boolean) : (simplifyJunction op operands).Firm .boolean := by
  have parts : ∀ e ∈ operands.flatMap (junctionParts op), e.Firm .boolean := by
    intro e member
    obtain ⟨operand, inside, isPart⟩ := List.mem_flatMap.mp member
    exact (all operand inside).junctionParts isPart
  rcases simplifyJunction_form op operands with ⟨value, same⟩ | ⟨kept, own, single | ⟨-, same⟩⟩
  · rw [same]
    exact firm_of_stays rfl rfl
  · exact parts _ (own _ (single ▸ List.mem_singleton_self _)).1
  · rw [same]
    exact .node rfl fun _ e member => parts e (own e member).1

theorem Firm.unionParts {part : Expr} (firm : e.Firm .communities)
    (member : part ∈ Expr.unionParts e) : part.Firm .communities := by
  unfold Expr.unionParts at member
  split at member
  · exact firm.operand rfl member
  · rwa [List.mem_singleton.mp member]

theorem firm_simplifyUnion {operands : List Expr} (all : ∀ e ∈ operands, e.Firm .communities) :
    (simplifyUnion operands).Firm .communities := by
  have merged : ∀ e ∈ mergedParts operands, e.Firm .communities := by
    intro e member
    rcases mem_mergedParts member with ⟨part, -⟩ | rfl
    · obtain ⟨operand, inside, isPart⟩ := List.mem_flatMap.mp part
      exact (all operand inside).unionParts isPart
    · exact firm_of_stays rfl rfl
  rcases simplifyUnion_form operands with single | ⟨-, same⟩
  · exact merged _ (single ▸ List.mem_singleton_self _)
  · rw [same]
    exact .node rfl fun _ => merged

theorem firm_simplifyHasCommunity (subject : Expr) (community : String) :
    (simplifyHasCommunity subject community).Firm .boolean := by
  unfold simplifyHasCommunity
  repeat' split
  all_goals exact firm_of_stays rfl rfl

theorem firm_simplifyInRanges (subject : Expr) (ranges : List String) :
    (simplifyInRanges subject ranges).Firm .boolean := by
  unfold simplifyInRanges
  repeat' split
  all_goals exact firm_of_stays rfl rfl

theorem Firm.simplifyPrepend {operand : Expr} (firm : operand.Firm .asPath) (asns : List Int) :
    (simplifyPrepend asns operand).Firm .asPath := by
  unfold Expr.simplifyPrepend
  split
  · exact firm
  · split <;> exact firm_of_stays rfl rfl

/-- Rewriting a node keeps its type, if the operands that may take its place have this type. -/
theorem firm_simplifyNode
    (operands : e.operandType? = some e.type → ∀ c ∈ e.children, c.Firm e.type) :
    e.simplifyNode.Firm e.type := by
  cases e with
  | junction cls op es => exact firm_simplifyJunction (operands rfl)
  | union cls es => exact firm_simplifyUnion (operands rfl)
  | not cls operand => exact (operands rfl operand (List.mem_singleton_self _)).negate
  | prepend cls asns operand =>
      exact (operands rfl operand (List.mem_singleton_self _)).simplifyPrepend asns
  | compare cls comparator left right =>
      rw [simplifyNode.eq_def]
      dsimp only
      split <;> exact firm_of_stays rfl rfl
  | hasCommunity cls subject community => exact firm_simplifyHasCommunity subject community
  | inRanges cls subject ranges setCls => exact firm_simplifyInRanges subject ranges
  | lit _ _ | attr _ _ | call _ _ | adjust _ _ _ | namedSet _ _ | unsupported _ _
  | inList _ _ _ _ => exact firm_of_stays rfl rfl

theorem firm_settle (own : e.Firm e.type)
    (operands : e.operandType? = some e.type → ∀ c ∈ e.children, c.Firm e.type) :
    (settle e).Firm e.type := by
  unfold settle
  dsimp only
  split
  · exact own
  · exact firm_simplifyNode operands

theorem yields_withChildren (e : Expr) (es : List Expr) :
    (e.withChildren es).yields = e.yields := by
  unfold withChildren
  split <;> rfl

theorem yields_of_conditions (operator : e.operandType? = some .boolean) : e.yields = true := by
  cases e <;> first | rfl | cases operator

/-- Simplification of a condition gives a condition. -/
theorem Firm.simplify (firm : e.Firm .boolean) : e.simplify.Firm .boolean := by
  induction e using childrenInduction with
  | step e ih =>
    rw [simplify_eq]
    have rebuilt : (e.withChildren (e.children.map Expr.simplify)).type = .boolean := by
      rw [type_withChildren, firm.type]
    have simplified : e.yields = true →
        ∀ c ∈ (e.withChildren (e.children.map Expr.simplify)).children, c.Firm .boolean := by
      intro yields
      rw [children_withChildren (List.length_map _), List.forall_mem_map]
      intro c member
      exact ih c member (firm.operand yields member)
    rw [← rebuilt]
    apply firm_settle
    · rw [rebuilt]
      refine .node rebuilt fun yields => simplified ?_
      rwa [yields_withChildren] at yields
    · rw [rebuilt, operandType?_withChildren]
      exact fun operator => simplified (yields_of_conditions operator)

end Expr

/-! ### Evaluation -/

/-- Slots hold values of the types of their attributes, also below the unions that stand in them. -/
def Record.Firm (r : Record) : Prop := r.Holds Expr.Firm

/-- A result with a property, or a failure that is not about types. -/
def Outcome.TypeSafe {α : Type} (P : α → Prop) (r : Outcome α) : Prop := r.Gives True P

namespace Expr

/-- The operands of an operator fit, so its value is that of the rewritten node. -/
theorem combine_typeSafe {e : Expr} (operands : ∀ expected, e.operandType? = some expected →
    ∀ c ∈ e.children, c.Firm expected) : e.combine.Gives True (Firm e.type) := by
  have fits : e.fitted = true := by
    unfold fitted
    split
    · rfl
    · rename_i expected operator
      rw [List.all_eq_true]
      intro c member
      simp [ValueType.fits, (operands expected operator c member).type]
  have combined := combine_ok.mpr ⟨fits, rfl⟩
  rw [combined]
  exact firm_simplifyNode (operands e.type)

theorem firm_offset (delta : Int) : (offset delta).Firm .integer := by
  unfold offset
  repeat' split
  all_goals exact firm_of_stays rfl rfl

/-- A value of the type of a supported expression. -/
def IsValue (e x : Expr) : Prop := e.isSupported = true ∧ x.Firm e.type

/-- Operands of supported types that fit are of the type needed. -/
theorem firm_operands {es xs : List Expr} {expected : ValueType}
    (fits : ∀ e ∈ es, e.type.fits expected = true) (values : List.Forall₂ IsValue es xs) :
    ∀ x ∈ xs, x.Firm expected := by
  refine forall₂_right values fits ?_
  rintro e x fits ⟨supported, firm⟩
  exact (fits_iff supported).mp fits ▸ firm

variable [Arithmetic] {calls : Calls} {r : Record}

theorem moved_typeSafe (current : Expr) (delta : Int) :
    (current.moved delta).Gives True (Firm .integer) := by
  unfold Expr.moved
  split
  · exact firm_of_stays rfl rfl
  · exact firm_offset _
  · exact firm_offset _
  · exact fun _ => rfl

/-- The value of a well-typed expression is of its type. -/
theorem evaluate_typeSafe (answers : calls.Give True Firm (Firm .boolean))
    (record : r.Holds Firm) {e : Expr} (typed : e.wellTyped = true) :
    (e.evaluate calls r).Gives True e.IsValue := by
  induction e using childrenInduction with
  | step e ih =>
    rw [wellTyped_step, Bool.and_eq_true, List.all_eq_true] at typed
    obtain ⟨fits, parts⟩ := typed
    cases operator : e.isOperator with
    | true =>
        rw [evaluate_isOperator operator]
        apply (evaluateAll_gives fun c member => ih c member (parts c member)).bind
        intro xs values
        have operands : ∀ expected, (e.withChildren xs).operandType? = some expected →
            ∀ x ∈ (e.withChildren xs).children, x.Firm expected := by
          intro expected needed
          rw [operandType?_withChildren] at needed
          rw [children_withChildren values.length_eq.symm]
          simp only [fitted, needed, List.all_eq_true] at fits
          exact firm_operands fits values
        apply (combine_typeSafe operands).mono
        intro x firm
        rw [type_withChildren] at firm
        exact ⟨isSupported_of_isResolved (isResolved_of_isOperator operator), firm⟩
    | false =>
        cases e with
        | lit cls value => exact ⟨rfl, firm_of_stays rfl rfl⟩
        | attr cls name => exact (record.lookup name).mono fun _ firm => ⟨rfl, firm⟩
        | call cls policy => exact (answers policy r record).mono fun _ firm => ⟨rfl, firm⟩
        | adjust cls shift amount =>
            apply (record.lookup .localPreference).bind
            intro current _
            exact (moved_typeSafe current _).mono fun _ firm => ⟨rfl, firm⟩
        | inList _ _ _ _ | namedSet _ _ | unsupported _ _ => exact fun _ => rfl
        | _ => cases operator

/-- A well-typed expression where a type is needed. -/
def Fits (expected : ValueType) (e : Expr) : Prop :=
  e.wellTyped = true ∧ e.type.fits expected = true

/-- Well-typed expressions have values of their types, and the conditions among these stay
conditions when they are joined and simplified. -/
theorem firm_kinds : Kinds True Fits Firm (Firm .boolean) where
  value answers record fits := by
    apply (evaluate_typeSafe answers record fits.1).mono
    rintro x ⟨supported, firm⟩
    exact (fits_iff supported).mp fits.2 ▸ firm
  constant x firm literal _ := by
    obtain ⟨value, found⟩ := (LiteralOf.of_type literal firm.type).bool?
    rw [found, Option.isSome_some]
  condition _ firm _ := ⟨firm, firm.negate⟩
  answer paths d conditions := by
    unfold residual
    split
    · exact firm_of_stays rfl rfl
    · apply Firm.simplify
      refine .node rfl fun _ => List.forall_mem_map.mpr fun path member => ?_
      have own := conditions path (List.mem_filter.mp member).1
      exact .node rfl fun _ => own

end Expr

/-! ### Runs -/

/-- Paths over values of the types of their attributes, under conditions of boolean type. -/
def Path.AllTyped (paths : List Path) : Prop :=
  ∀ path ∈ paths, path.Holds Expr.Firm (·.type = .boolean)

/-- Type soundness. Over slots of the types of their attributes and under assumptions of boolean
type, checked policies run into no operand of a wrong type and into no guard that is no condition.
Their paths are under conditions of boolean type and over slots of the types of their attributes. -/
theorem evaluation_type_sound [Arithmetic] {given : Assumed}
    (table : given.table.All (·.wellTyped = true))
    (assumed : ∀ c ∈ given.assumptions, c.type = .boolean) {r : Record} (record : r.Firm) :
    (∀ p : Policy, p.wellTyped = true → (evaluatePolicy given p r).TypeSafe Path.AllTyped) ∧
      ∀ policies : List Policy, (∀ p ∈ policies, p.wellTyped = true) →
        (evaluateChain given policies r).TypeSafe Path.AllTyped := by
  have fits : given.table.All fun p => Statement.EveryAll Expr.Fits p.statements :=
    fun entry member => Policy.every_of_wellTyped (table entry member)
  have admits : ∀ c : Expr, c.Firm .boolean → c.type = .boolean := fun _ firm => firm.type
  constructor
  · intro p checked
    have own := Policy.every_of_wellTyped checked
    exact evaluatePolicy_gives Expr.firm_kinds admits given fits assumed own record
  · intro policies checked
    have each : ∀ p ∈ policies, Statement.EveryAll Expr.Fits p.statements :=
      fun p member => Policy.every_of_wellTyped (checked p member)
    exact evaluateChain_gives Expr.firm_kinds admits given fits assumed each record

namespace Unions

/-- A policy that adds nothing to the communities and then asks for one of them. -/
def asking : Policy :=
  ⟨"P", [.assign none .communities (.union none [.ref .communities]),
    .branch none (.hasCommunity none (.ref .communities) "65000:1") [.finish none .accept] []
      .absent]⟩

/-- The union of one operand where the communities are. -/
def holding (e : Expr) : Record := ⟨[(.communities, .union none [e])]⟩

def given : Assumed := ⟨[.hasCommunity none (.ref .communities) "65000:2"], 1024, [("P", asking)]⟩

theorem firm_holding : (holding (.ref .communities)).Firm := by
  refine List.forall_mem_singleton.mpr (.node rfl fun _ => List.forall_mem_singleton.mpr ?_)
  exact Expr.firm_of_stays rfl rfl

end Unions

open Unions in
theorem holding_communities_type_sound :
    given.table.All (·.wellTyped = true) ∧ (∀ c ∈ given.assumptions, c.type = .boolean) ∧
      asking.wellTyped = true ∧ (holding (.ref .communities)).Firm ∧
      (@evaluatePolicy .binary64 given asking (holding (.ref .communities))).map List.length =
        .ok 2 ∧
      (@evaluatePolicy .binary64 given asking (holding (.ref .communities))).TypeSafe
        Path.AllTyped ∧
      (@evaluateChain .binary64 given [asking, asking] (holding (.ref .communities))).TypeSafe
        Path.AllTyped := by
  have table : given.table.All (·.wellTyped = true) := Table.All.single (by decide)
  have assumed : ∀ c ∈ given.assumptions, c.type = .boolean := List.forall_mem_singleton.mpr rfl
  have checked : asking.wellTyped = true := by decide
  obtain ⟨alone, chained⟩ := @evaluation_type_sound .binary64 given table assumed _ firm_holding
  refine ⟨table, assumed, checked, firm_holding, ?_, alone asking checked, ?_⟩
  · with_unfolding_all rfl
  · exact chained [asking, asking] (by simp [checked])

open Unions in
/-- The type of a slot does not do. A union has the type of communities whatever its operands are,
and the union of a number becomes the number, which cannot be asked for a community. -/
theorem holding_number_not_type_sound :
    given.table.All (·.wellTyped = true) ∧ (∀ c ∈ given.assumptions, c.type = .boolean) ∧
      asking.wellTyped = true ∧ (∀ slot ∈ (holding (.int 5)).slots, slot.2.type = slot.1.type) ∧
      @evaluatePolicy .binary64 given asking (holding (.int 5)) =
        .error ⟨.evaluation (.typeMismatch "matchCommunity" .communities .integer),
          Context.policyStatement "P" "1"⟩ :=
  ⟨Table.All.single (by decide), List.forall_mem_singleton.mpr rfl, by decide,
    List.forall_mem_singleton.mpr rfl, by with_unfolding_all rfl⟩

end RoutePolicy
