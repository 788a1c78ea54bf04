import RoutePolicy.Proofs.Rules

/-!
Properties of nodes that simplification keeps. A rule makes few kinds of nodes, always over operands
that it was given or over parts of them.
-/

set_option autoImplicit false

namespace RoutePolicy

/-- No item is dropped without one that stays. -/
theorem distinct_ne_nil {α : Type} {related : α → α → Bool} {xs : List α} (filled : xs ≠ []) :
    distinct related xs ≠ [] := by
  cases xs with
  | nil => exact absurd rfl filled
  | cons x rest => simp [distinct]

theorem two_le_length {α : Type} {xs : List α} (filled : xs ≠ [])
    (notSingle : ∀ x, xs = [x] → False) : 2 ≤ xs.length := by
  match xs with
  | [] => exact absurd rfl filled
  | [x] => exact (notSingle x rfl).elim
  | _ :: _ :: _ => simp

namespace Expr

/-- The AS numbers that a node lists. -/
def pathAsns : Expr → List Int
  | lit _ (.asPath list) | prepend _ list _ => list
  | _ => []

/-- A property `Q` that no rule breaks: new nodes have it when their operands suit them and their
values stem from nodes that have it. What suits an operator is `T`; unions have at least two
operands if they are `crowded`. The types are those of a `typing`, which is free to give any to
expressions that are neither operators nor literals. -/
structure Stable (typing : Expr → ValueType) (T : ValueType → Expr → Prop) (crowded : Prop)
    (Q : Expr → Prop) : Prop where
  own : ∀ e, T (typing e) e
  operator : ∀ e expected, e.operandType? = some expected → typing e = e.type
  constant : ∀ cls l, typing (.lit cls l) = l.type
  part : ∀ e c expected, Q e → Q c → e.operandType? = some expected → c ∈ e.children → T expected c
  room : ∀ cls es, Q (.union cls es) → crowded → 2 ≤ es.length
  boolean : ∀ value, Q (.bool value)
  set : ∀ members, (∀ text ∈ members, ∃ cls own, Q (.lit cls (.communities own)) ∧ text ∈ own) →
    Q (.lit none (.communities members))
  path : ∀ list, (∀ asn ∈ list, ∃ e, Q e ∧ asn ∈ e.pathAsns) → Q (.lit none (.asPath list))
  negated : ∀ e, T .boolean e → Q (.not none e)
  joined : ∀ op es, es ≠ [] → (∀ e ∈ es, T .boolean e) → Q (.junction none op es)
  united : ∀ es, (crowded → 2 ≤ es.length) → (∀ e ∈ es, T .communities e) → Q (.union none es)
  matched : ∀ e community, (∃ cls own, Q (.hasCommunity cls own community)) → T .communities e →
    Q (.hasCommunity none e community)
  ranged : ∀ e ranges, (∃ cls own setCls, Q (.inRanges cls own ranges setCls)) → T .network e →
    Q (.inRanges none e ranges none)
  prepended : ∀ list e, (∀ asn ∈ list, ∃ x, Q x ∧ asn ∈ x.pathAsns) → T .asPath e →
    Q (.prepend none list e)

/-- An expression that suits a type and all nodes of which have a property. -/
def EachOf (T : ValueType → Expr → Prop) (Q : Expr → Prop) (type : ValueType) (e : Expr) : Prop :=
  e.Each Q ∧ T type e

variable {typing : Expr → ValueType} {T : ValueType → Expr → Prop} {crowded : Prop}
  {Q : Expr → Prop}

theorem each_leaf {e : Expr} (holds : Q e) (leaf : e.children = []) : e.Each Q := by
  rw [each_iff, leaf]
  simp [holds]

theorem each_unary {e operand : Expr} (holds : Q e) (below : operand.Each Q)
    (unary : e.children = [operand]) : e.Each Q := by
  rw [each_iff, unary, List.forall_mem_singleton]
  exact ⟨holds, below⟩

theorem type_withChildren (e : Expr) (es : List Expr) : (e.withChildren es).type = e.type := by
  unfold withChildren
  split <;> rfl

theorem isSupported_withChildren (e : Expr) (es : List Expr) :
    (e.withChildren es).isSupported = e.isSupported := by
  unfold withChildren
  split <;> rfl

/-- Nodes that are no operators have no parts to replace. -/
theorem withChildren_of_leaf {e : Expr} (leaf : e.operandType? = none) (es : List Expr) :
    e.withChildren es = e := by
  cases e <;> first | rfl | cases leaf

theorem operandType?_withChildren (e : Expr) (es : List Expr) :
    (e.withChildren es).operandType? = e.operandType? := by
  unfold withChildren
  split <;> rfl

namespace Stable

theorem own_operator (stable : Stable typing T crowded Q) (e : Expr) {expected : ValueType}
    (operator : e.operandType? = some expected) : T e.type e :=
  stable.operator e expected operator ▸ stable.own e

theorem own_lit (stable : Stable typing T crowded Q) (cls : Spelling) (l : Literal) :
    T l.type (.lit cls l) :=
  stable.constant cls l ▸ stable.own (.lit cls l)

theorem eachOf_bool (stable : Stable typing T crowded Q) (value : Bool) :
    (Expr.bool value).EachOf T Q .boolean :=
  ⟨each_leaf (stable.boolean value) rfl, stable.own_lit none (.bool value)⟩

theorem eachOf_child (stable : Stable typing T crowded Q) {e c : Expr} (each : e.Each Q)
    {expected : ValueType} (operator : e.operandType? = some expected) (member : c ∈ e.children) :
    c.EachOf T Q expected := by
  have below := each.child member
  have suits := stable.part e c expected each.root below.root operator member
  exact ⟨below, suits⟩

/-! ### Junctions -/

theorem eachOf_junctionParts (stable : Stable typing T crowded Q) {op : Junction} {e part : Expr}
    (operand : e.EachOf T Q .boolean) (member : part ∈ junctionParts op e) :
    part.EachOf T Q .boolean := by
  unfold junctionParts at member
  split at member
  · split at member
    · exact stable.eachOf_child operand.1 rfl member
    · rwa [List.mem_singleton.mp member]
  · rwa [List.mem_singleton.mp member]

theorem eachOf_junction (stable : Stable typing T crowded Q) {op : Junction} {operands : List Expr}
    (filled : operands ≠ []) (all : ∀ e ∈ operands, e.EachOf T Q .boolean) :
    (Expr.junction none op operands).EachOf T Q .boolean := by
  refine ⟨?_, stable.own_operator (Expr.junction none op operands) rfl⟩
  rw [each_iff]
  constructor
  · apply stable.joined _ _ filled
    intro e member
    exact (all e member).2
  · intro e member
    exact (all e member).1

theorem eachOf_simplifyJunction (stable : Stable typing T crowded Q) {op : Junction}
    {operands : List Expr} (all : ∀ e ∈ operands, e.EachOf T Q .boolean) :
    (simplifyJunction op operands).EachOf T Q .boolean := by
  have parts : ∀ part ∈ operands.flatMap (junctionParts op), part.EachOf T Q .boolean := by
    intro part member
    obtain ⟨e, inside, isPart⟩ := List.mem_flatMap.mp member
    exact stable.eachOf_junctionParts (all e inside) isPart
  rcases simplifyJunction_form op operands with ⟨value, same⟩ | ⟨kept, own, single | ⟨filled, same⟩⟩
  · rw [same]
    exact stable.eachOf_bool value
  · exact parts _ (own _ (single ▸ List.mem_singleton_self _)).1
  · rw [same]
    exact stable.eachOf_junction filled fun e member => parts e (own e member).1

/-! ### Unions -/

theorem eachOf_unionParts (stable : Stable typing T crowded Q) {e part : Expr}
    (operand : e.EachOf T Q .communities) (member : part ∈ unionParts e) :
    part.EachOf T Q .communities := by
  unfold unionParts at member
  split at member
  · exact stable.eachOf_child operand.1 rfl member
  · rwa [List.mem_singleton.mp member]

theorem eachOf_union (stable : Stable typing T crowded Q) {operands : List Expr}
    (enough : crowded → 2 ≤ operands.length) (all : ∀ e ∈ operands, e.EachOf T Q .communities) :
    (Expr.union none operands).EachOf T Q .communities := by
  refine ⟨?_, stable.own_operator (Expr.union none operands) rfl⟩
  rw [each_iff]
  constructor
  · apply stable.united _ enough
    intro e member
    exact (all e member).2
  · intro e member
    exact (all e member).1

theorem eachOf_mergedParts (stable : Stable typing T crowded Q) {operands : List Expr}
    (all : ∀ e ∈ operands, e.EachOf T Q .communities) :
    ∀ e ∈ mergedParts operands, e.EachOf T Q .communities := by
  have parts : ∀ part ∈ operands.flatMap unionParts, part.EachOf T Q .communities := by
    intro part member
    obtain ⟨e, inside, isPart⟩ := List.mem_flatMap.mp member
    exact stable.eachOf_unionParts (all e inside) isPart
  have held : ∀ text ∈ distinct (· == ·) ((operands.flatMap unionParts).filterMap
      communities?).flatten, ∃ cls own, Q (.lit cls (.communities own)) ∧ text ∈ own := by
    intro text member
    obtain ⟨own, literal, inside⟩ := List.mem_flatten.mp (mem_of_mem_distinct member)
    obtain ⟨part, listed, constant⟩ := List.mem_filterMap.mp literal
    obtain ⟨cls, rfl⟩ := communities?_eq_some constant
    exact ⟨cls, own, (parts _ listed).1.root, inside⟩
  intro e member
  rcases mem_mergedParts member with ⟨part, -⟩ | rfl
  · exact parts e part
  · exact ⟨each_leaf (stable.set _ held) rfl, stable.own_lit none (.communities _)⟩

/-- A union of crowded unions does not become empty. -/
theorem mergedParts_ne_nil (stable : Stable typing T crowded Q) (many : crowded)
    {operands : List Expr} (filled : operands ≠ []) (all : ∀ e ∈ operands, e.Each Q) : mergedParts operands ≠ [] := by
  have parts : operands.flatMap unionParts ≠ [] := by
    obtain ⟨e, member⟩ := List.exists_mem_of_ne_nil _ filled
    have own : unionParts e ≠ [] := by
      unfold unionParts
      split
      · rename_i cls es
        have enough := stable.room cls es (all _ member).root many
        rintro rfl
        simp at enough
      · simp
    obtain ⟨part, inside⟩ := List.exists_mem_of_ne_nil _ own
    exact List.ne_nil_of_mem (List.mem_flatMap.mpr ⟨e, member, inside⟩)
  unfold mergedParts
  dsimp only
  split
  · rename_i noLiterals
    obtain ⟨part, member⟩ := List.exists_mem_of_ne_nil _ parts
    have undecided : part.communities? = none :=
      List.filterMap_eq_nil_iff.mp (List.isEmpty_iff.mp noLiterals) part member
    have kept : part ∈ (operands.flatMap unionParts).filter (·.communities?.isNone) := by
      rw [List.mem_filter, undecided]
      exact ⟨member, rfl⟩
    exact distinct_ne_nil (List.ne_nil_of_mem kept)
  · simp

theorem eachOf_simplifyUnion (stable : Stable typing T crowded Q) {operands : List Expr}
    (filled : crowded → operands ≠ []) (all : ∀ e ∈ operands, e.EachOf T Q .communities) :
    (simplifyUnion operands).EachOf T Q .communities := by
  have merged := stable.eachOf_mergedParts all
  rcases simplifyUnion_form operands with single | ⟨notSingle, same⟩
  · exact merged _ (single ▸ List.mem_singleton_self _)
  · rw [same]
    refine stable.eachOf_union (fun many => ?_) merged
    have nonempty := stable.mergedParts_ne_nil many (filled many) fun e member => (all e member).1
    exact two_le_length nonempty notSingle

/-! ### Matches, prepending and negation -/

theorem eachOf_hasCommunity (stable : Stable typing T crowded Q) {e : Expr} {community : String}
    (held : ∃ cls own, Q (.hasCommunity cls own community)) (subject : e.EachOf T Q .communities) :
    (Expr.hasCommunity none e community).EachOf T Q .boolean :=
  ⟨each_unary (stable.matched e community held subject.2) subject.1 rfl,
    stable.own_operator (Expr.hasCommunity none e community) rfl⟩

theorem eachOf_simplifyHasCommunity (stable : Stable typing T crowded Q) {subject : Expr}
    {community : String} (held : ∃ cls own, Q (.hasCommunity cls own community))
    (operand : subject.EachOf T Q .communities) :
    (simplifyHasCommunity subject community).EachOf T Q .boolean := by
  unfold simplifyHasCommunity
  split
  · exact stable.eachOf_bool _
  · rename_i cls operands
    split
    · exact stable.eachOf_hasCommunity held operand
    · split
      · exact stable.eachOf_bool true
      · have remaining : ∀ e ∈ operands.eraseP (·.communities?.isSome),
            e.EachOf T Q .communities := by
          intro e member
          exact stable.eachOf_child operand.1 rfl (List.mem_of_mem_eraseP member)
        split
        · rename_i e single
          exact stable.eachOf_hasCommunity held (remaining e (by simp [single]))
        · rename_i notSingle
          refine stable.eachOf_hasCommunity held (stable.eachOf_union (fun many => ?_) remaining)
          have before := stable.room cls operands operand.1.root many
          have after : operands.length - 1 ≤ (operands.eraseP (·.communities?.isSome)).length := by
            rw [List.length_eraseP]
            split <;> omega
          have nonempty : operands.eraseP (·.communities?.isSome) ≠ [] := by
            intro empty
            rw [empty, List.length_nil] at after
            omega
          exact two_le_length nonempty notSingle
  · exact stable.eachOf_hasCommunity held operand

theorem eachOf_simplifyInRanges (stable : Stable typing T crowded Q) {subject : Expr}
    {ranges : List String} (held : ∃ cls own setCls, Q (.inRanges cls own ranges setCls))
    (operand : subject.EachOf T Q .network) :
    (simplifyInRanges subject ranges).EachOf T Q .boolean := by
  have ranged : (Expr.inRanges none subject ranges none).EachOf T Q .boolean :=
    ⟨each_unary (stable.ranged subject ranges held operand.2) operand.1 rfl,
      stable.own_operator (Expr.inRanges none subject ranges none) rfl⟩
  unfold simplifyInRanges
  split
  · split
    · exact stable.eachOf_bool _
    · exact ranged
  · exact ranged

theorem eachOf_simplifyPrepend (stable : Stable typing T crowded Q) {list : List Int}
    {operand : Expr} (held : ∀ asn ∈ list, ∃ e, Q e ∧ asn ∈ e.pathAsns) (target : operand.EachOf T Q .asPath) :
    (simplifyPrepend list operand).EachOf T Q .asPath := by
  have prepended : ∀ {list : List Int} {e : Expr}, (∀ asn ∈ list, ∃ e, Q e ∧ asn ∈ e.pathAsns) →
      e.EachOf T Q .asPath → (Expr.prepend none list e).EachOf T Q .asPath := by
    intro list e held holds
    exact ⟨each_unary (stable.prepended list e held holds.2) holds.1 rfl,
      stable.own_operator (Expr.prepend none list e) rfl⟩
  have joined : ∀ asn ∈ list ++ operand.pathAsns, ∃ e, Q e ∧ asn ∈ e.pathAsns := by
    intro asn member
    rcases List.mem_append.mp member with own | inner
    · exact held asn own
    · exact ⟨operand, target.1.root, inner⟩
  unfold simplifyPrepend
  split
  · exact target
  · split
    · exact ⟨each_leaf (stable.path _ joined) rfl, stable.own_lit none (.asPath _)⟩
    · exact prepended joined (stable.eachOf_child target.1 rfl (List.mem_singleton_self _))
    · exact prepended held target

theorem eachOf_negate (stable : Stable typing T crowded Q) {operand : Expr}
    (condition : operand.EachOf T Q .boolean) : operand.negate.EachOf T Q .boolean := by
  unfold negate
  split
  · exact stable.eachOf_bool _
  · exact stable.eachOf_child condition.1 rfl (List.mem_singleton_self _)
  · exact ⟨each_unary (stable.negated operand condition.2) condition.1 rfl,
      stable.own_operator (Expr.not none operand) rfl⟩

/-! ### Nodes and expressions -/

/-- The operands of a node have a property and suit the node. So does the node, unless it is a union
that has to be crowded. -/
structure Ready (T : ValueType → Expr → Prop) (crowded : Prop) (Q : Expr → Prop) (e : Expr) :
    Prop where
  parts : ∀ c ∈ e.children, c.Each Q
  suits : ∀ expected, e.operandType? = some expected → ∀ c ∈ e.children, T expected c
  root : (∀ cls es, e = .union cls es → crowded → 2 ≤ es.length) → Q e
  filled : ∀ cls es, e = .union cls es → crowded → es ≠ []

theorem ready (stable : Stable typing T crowded Q) {e : Expr} (each : e.Each Q) :
    Ready T crowded Q e where
  parts _ member := each.child member
  suits _ operator _ member := (stable.eachOf_child each operator member).2
  root _ := each.root
  filled cls es union many := by
    subst union
    have enough := stable.room cls es each.root many
    rintro rfl
    simp at enough

theorem Ready.operand {e c : Expr} (ready : Ready T crowded Q e) {expected : ValueType}
    (operator : e.operandType? = some expected) (member : c ∈ e.children) :
    c.EachOf T Q expected := by
  constructor
  · exact ready.parts c member
  · exact ready.suits expected operator c member

theorem Ready.unchanged (stable : Stable typing T crowded Q) {e : Expr}
    (ready : Ready T crowded Q e)
    (enough : ∀ cls es, e = .union cls es → crowded → 2 ≤ es.length) :
    e.EachOf T Q (typing e) := by
  have root := ready.root enough
  refine ⟨?_, stable.own e⟩
  rw [each_iff]
  exact ⟨root, ready.parts⟩

/-- Rewriting a node keeps its type and the properties of all nodes. -/
theorem eachOf_simplifyNode (stable : Stable typing T crowded Q) {e : Expr}
    (ready : Ready T crowded Q e) : e.simplifyNode.EachOf T Q (typing e) := by
  cases operator : e.operandType? with
  | none =>
    have unchanged := ready.unchanged stable (by rintro cls es rfl; cases operator)
    cases e <;> first | exact unchanged | cases operator
  | some expected =>
    rw [stable.operator e expected operator]
    cases e with
    | junction cls op operands =>
        exact stable.eachOf_simplifyJunction fun c member => ready.operand rfl member
    | union cls operands =>
        exact stable.eachOf_simplifyUnion (ready.filled cls operands rfl)
          fun c member => ready.operand rfl member
    | not cls operand =>
        exact stable.eachOf_negate (ready.operand rfl (List.mem_singleton_self _))
    | hasCommunity cls subject community =>
        exact stable.eachOf_simplifyHasCommunity ⟨cls, subject, ready.root (by simp)⟩
          (ready.operand rfl (List.mem_singleton_self _))
    | inRanges cls subject ranges setCls =>
        exact stable.eachOf_simplifyInRanges ⟨cls, subject, setCls, ready.root (by simp)⟩
          (ready.operand rfl (List.mem_singleton_self _))
    | prepend cls list operand =>
        exact stable.eachOf_simplifyPrepend (fun _ member => ⟨_, ready.root (by simp), member⟩)
          (ready.operand rfl (List.mem_singleton_self _))
    | compare _ _ _ _ =>
        have unchanged := ready.unchanged stable (by simp)
        rw [stable.operator _ _ operator] at unchanged
        rw [simplifyNode.eq_def]
        dsimp only
        split
        · exact stable.eachOf_bool _
        · exact unchanged
    | inList _ _ _ _ =>
        have unchanged := ready.unchanged stable (by simp)
        rwa [stable.operator _ _ operator] at unchanged
    | lit _ _ | attr _ _ | call _ _ | adjust _ _ _ | namedSet _ _ | unsupported _ _ =>
        cases operator

theorem length_eq_of_sameAll {as bs : List Expr} (equal : sameAll as bs = true) :
    as.length = bs.length := by
  have units := sameAll_map (f := fun _ => ()) equal fun _ _ _ _ => rfl
  simpa using congrArg List.length units

theorem eachOf_settle (stable : Stable typing T crowded Q) {e : Expr}
    (ready : Ready T crowded Q e) :
    (settle e).EachOf T Q (typing e) := by
  have simplified := stable.eachOf_simplifyNode ready
  unfold settle
  dsimp only
  split
  · rename_i equal
    -- a union that stays as it was has as many operands as the simplified one that it equals
    apply ready.unchanged stable
    rintro cls es union many
    subst union
    cases result : simplifyNode (.union cls es) <;> rw [result] at equal simplified <;>
      simp only [same, Bool.false_eq_true] at equal
    rename_i cls' merged
    rw [← length_eq_of_sameAll equal]
    exact stable.room cls' merged simplified.1.root many
  · exact simplified

theorem typing_withChildren (stable : Stable typing T crowded Q) (e : Expr) (es : List Expr) :
    typing (e.withChildren es) = typing e := by
  cases operator : e.operandType? with
  | none => rw [withChildren_of_leaf operator]
  | some expected =>
      have same := (operandType?_withChildren e es).trans operator
      rw [stable.operator _ expected same, type_withChildren, stable.operator e expected operator]

/-- Simplification leads from one property of nodes to another, if nodes of the first over operands
of the second are ready for the rules. -/
theorem eachOf_simplify (stable : Stable typing T crowded Q) {P : Expr → Prop}
    (rebuilt : ∀ e es, P e → List.Forall₂ (fun c d => d.EachOf T Q (typing c)) e.children es →
      Ready T crowded Q (e.withChildren es))
    {e : Expr} (each : e.Each P) : e.simplify.EachOf T Q (typing e) := by
  induction e using childrenInduction with
  | step e ih =>
    have parts : List.Forall₂ (fun c d => d.EachOf T Q (typing c)) e.children
        (e.children.map simplify) := by
      rw [List.forall₂_map_right_iff, List.forall₂_same]
      intro c member
      exact ih c member (each.child member)
    have settled := stable.eachOf_settle (rebuilt e _ each.root parts)
    rwa [stable.typing_withChildren, ← simplify_eq] at settled

end Stable

end Expr

end RoutePolicy
