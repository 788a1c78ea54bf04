import RoutePolicy.Proofs.Stability

/-!
Simplification keeps the value and the type of every well-typed expression.
-/

set_option autoImplicit false

namespace RoutePolicy.Expr

variable {names : Names} {route : Route}

def HasType (type : ValueType) (e : Expr) : Prop := e.type = type

/-- A construct of the vocabulary over operands of the right types. -/
structure Proper (e : Expr) : Prop where
  supported : e.isSupported = true
  fits : e.fitted = true

theorem fitted_of_hasType {e : Expr} {expected : ValueType}
    (operator : e.operandType? = some expected) (typed : ∀ c ∈ e.children, HasType expected c) :
    e.fitted = true := by
  simp only [fitted, operator, List.all_eq_true]
  intro c member
  have same : c.type = expected := typed c member
  simp [ValueType.fits, same]

theorem Proper.hasType {e c : Expr} {expected : ValueType} (proper : Proper e) (part : Proper c)
    (operator : e.operandType? = some expected) (member : c ∈ e.children) :
    HasType expected c := by
  have fits := proper.fits
  simp only [fitted, operator, List.all_eq_true] at fits
  exact (fits_iff part.supported).mp (fits c member)

/-- New nodes are proper when their operands have the right types. -/
theorem proper_stable : Stable type HasType False Proper where
  own _ := rfl
  operator _ _ _ := rfl
  constant _ _ := rfl
  part _ _ _ proper part operator member := proper.hasType part operator member
  room _ _ _ impossible := impossible.elim
  boolean _ := ⟨rfl, rfl⟩
  set _ _ := ⟨rfl, rfl⟩
  path _ _ := ⟨rfl, rfl⟩
  negated _ typed := ⟨rfl, fitted_of_hasType rfl (by simpa [children] using typed)⟩
  joined _ _ _ typed := ⟨rfl, fitted_of_hasType rfl typed⟩
  united _ _ typed := ⟨rfl, fitted_of_hasType rfl typed⟩
  matched _ _ _ typed := ⟨rfl, fitted_of_hasType rfl (by simpa [children] using typed)⟩
  ranged _ _ _ typed := ⟨rfl, fitted_of_hasType rfl (by simpa [children] using typed)⟩
  prepended _ _ _ typed := ⟨rfl, fitted_of_hasType rfl (by simpa [children] using typed)⟩

theorem each_proper_iff {e : Expr} :
    e.Each Proper ↔ e.wellTyped = true ∧ ∀ x ∈ e.nodes, x.isSupported = true := by
  rw [wellTyped_iff]
  constructor
  · intro each
    exact ⟨each.mono fun _ => Proper.fits, each.mono fun _ => Proper.supported⟩
  · rintro ⟨fits, supported⟩ x member
    exact ⟨supported x member, fits x member⟩

/-! ### Nodes over other parts -/

/-- Whether operands fit depends on their types only. -/
theorem fitted_congr {a b : Expr} (operator : a.operandType? = b.operandType?)
    (types : a.children.map type = b.children.map type) : a.fitted = b.fitted := by
  unfold fitted
  rw [operator]
  split
  · rfl
  · rename_i expected _
    have typed : ∀ list : List Expr,
        list.all (·.type.fits expected) = (list.map type).all (·.fits expected) := by
      intro list
      rw [List.all_map]
      rfl
    rw [typed, types, ← typed]

theorem fitted_withChildren {e : Expr} {es : List Expr}
    (types : es.map type = e.children.map type) : (e.withChildren es).fitted = e.fitted := by
  have lengths : es.length = e.children.length := by simpa using congrArg List.length types
  exact fitted_congr (operandType?_withChildren e es) (by rw [children_withChildren lengths, types])

/-- Parts of the same types keep a node proper. -/
theorem Proper.withChildren {e : Expr} (proper : Proper e) {es : List Expr}
    (types : es.map type = e.children.map type) : Proper (e.withChildren es) :=
  ⟨(isSupported_withChildren e es).trans proper.supported,
    (fitted_withChildren types).trans proper.fits⟩

/-- A property of well-typed nodes that no rule breaks and that a node keeps over other parts of the
same types. -/
structure Typed (Q : Expr → Prop) : Prop extends Stable type HasType False Q where
  rebuilt : ∀ e es, Q e → es.map type = e.children.map type → Q (e.withChildren es)

theorem proper_typed : Typed Proper := ⟨proper_stable, fun _ _ proper => proper.withChildren⟩

theorem Typed.each_withChildren {Q : Expr → Prop} (keeps : Typed Q) {e : Expr} (root : Q e)
    {es : List Expr} (types : es.map type = e.children.map type) (parts : ∀ c ∈ es, c.Each Q) :
    (e.withChildren es).Each Q := by
  have lengths : es.length = e.children.length := by simpa using congrArg List.length types
  refine each_iff.mpr ⟨keeps.rebuilt e es root types, ?_⟩
  rwa [children_withChildren lengths]

theorem types_eq_of_forall₂ {Q : Expr → Prop} {cs ds : List Expr}
    (related : List.Forall₂ (fun c d => d.EachOf HasType Q c.type) cs ds) :
    ds.map type = cs.map type ∧ ∀ d ∈ ds, d.Each Q := by
  induction related with
  | nil => simp
  | @cons c d _ _ first _ ih =>
      have same : d.type = c.type := first.2
      constructor
      · rw [List.map_cons, List.map_cons, same, ih.1]
      · rw [List.forall_mem_cons]
        exact ⟨first.1, ih.2⟩

/-- Simplification keeps the type and the properties of all nodes. -/
theorem Typed.eachOf_simplify {Q : Expr → Prop} (keeps : Typed Q) {e : Expr} (each : e.Each Q) :
    e.simplify.EachOf HasType Q e.type := by
  refine keeps.toStable.eachOf_simplify (fun e es root related => ?_) each
  obtain ⟨types, parts⟩ := types_eq_of_forall₂ related
  exact keeps.toStable.ready (keeps.each_withChildren root types parts)

/-- The value of a node depends on its parts only by their values. -/
theorem value_withChildren {e : Expr} {es : List Expr}
    (equal : es.map (value names route) = e.children.map (value names route)) :
    (e.withChildren es).value names route = e.value names route :=
  (compositional_value names route).withChildren equal

/-! ### Soundness -/

/-- A construct of the vocabulary over operands of the right types, but for what is looked up among
networks. That may be of any type: a value that is no network lies in no range. -/
structure Lenient (e : Expr) : Prop where
  supported : e.isSupported = true
  fits : e.operandType? = some .network ∨ e.fitted = true

theorem Proper.lenient {e : Expr} (proper : Proper e) : Lenient e :=
  ⟨proper.supported, .inr proper.fits⟩

/-- Where networks are looked up anything may stand. -/
def Allowed (expected : ValueType) (e : Expr) : Prop := expected = .network ∨ e.type = expected

theorem Lenient.allowed {e c : Expr} {expected : ValueType} (lenient : Lenient e)
    (operator : e.operandType? = some expected) (member : c ∈ e.children) :
    expected = .network ∨ c.type.fits expected = true := by
  rcases lenient.fits with network | fits
  · exact .inl (Option.some.inj (operator.symm.trans network))
  · simp only [fitted, operator, List.all_eq_true] at fits
    exact .inr (fits c member)

theorem lenient_of_allowed {e : Expr} {expected : ValueType} (supported : e.isSupported = true)
    (operator : e.operandType? = some expected) (allowed : ∀ c ∈ e.children, Allowed expected c) :
    Lenient e := by
  by_cases network : expected = .network
  · exact ⟨supported, .inl (network ▸ operator)⟩
  · refine ⟨supported, .inr (fitted_of_hasType operator fun c member => ?_)⟩
    exact (allowed c member).resolve_left network

theorem lenient_stable : Stable type Allowed False Lenient where
  own _ := .inr rfl
  operator _ _ _ := rfl
  constant _ _ := rfl
  part _ _ _ lenient part operator member :=
    (lenient.allowed operator member).imp_right (fits_iff part.supported).mp
  room _ _ _ impossible := impossible.elim
  boolean _ := ⟨rfl, .inr rfl⟩
  set _ _ := ⟨rfl, .inr rfl⟩
  path _ _ := ⟨rfl, .inr rfl⟩
  negated _ allowed := lenient_of_allowed rfl rfl (List.forall_mem_singleton.mpr allowed)
  joined _ _ _ allowed := lenient_of_allowed rfl rfl allowed
  united _ _ allowed := lenient_of_allowed rfl rfl allowed
  matched _ _ _ allowed := lenient_of_allowed rfl rfl (List.forall_mem_singleton.mpr allowed)
  ranged _ _ _ allowed := lenient_of_allowed rfl rfl (List.forall_mem_singleton.mpr allowed)
  prepended _ _ _ allowed := lenient_of_allowed rfl rfl (List.forall_mem_singleton.mpr allowed)

/-- A lenient node stays one over operands that come of its own ones. -/
theorem Lenient.ready {e : Expr} (lenient : Lenient e) {es : List Expr}
    (related : List.Forall₂ (fun c d => d.EachOf Allowed Lenient c.type) e.children es) :
    Stable.Ready Allowed False Lenient (e.withChildren es) := by
  have children := children_withChildren related.length_eq.symm
  have allowed : ∀ expected, e.operandType? = some expected → ∀ d ∈ es, Allowed expected d := by
    intro expected operator d member
    obtain ⟨c, inside, each, same⟩ := exists_of_forall₂ related.flip member
    by_cases network : expected = .network
    · exact .inl network
    · have fits := (lenient.allowed operator inside).resolve_left network
      have kept : c.type.fits expected = true → c.type = expected ∨ c.type = .unknown := by
        simp [ValueType.fits]
      rcases kept fits with typed | unknown
      · rwa [typed] at same
      · -- what comes of an expression outside the vocabulary would be outside it, too
        rw [unknown] at same
        exact absurd (same.resolve_left (by decide)) (type_ne_unknown each.root.supported)
  refine ⟨?_, ?_, fun _ => ?_, fun _ _ _ never => never.elim⟩
  · rw [children]
    intro d member
    obtain ⟨c, inside, each, -⟩ := exists_of_forall₂ related.flip member
    exact each
  · intro expected operator
    rw [children]
    exact allowed expected ((operandType?_withChildren e es).symm.trans operator)
  · have supported := (isSupported_withChildren e es).trans lenient.supported
    cases operator : e.operandType? with
    | none => rwa [withChildren_of_leaf operator]
    | some expected =>
        refine lenient_of_allowed supported ((operandType?_withChildren e es).trans operator) ?_
        rw [children]
        exact allowed expected operator

/-- Rewriting a node keeps its value. -/
theorem value_simplifyNode_of_ready {e : Expr} (ready : Stable.Ready Allowed False Lenient e)
    (supported : e.isSupported = true) :
    e.simplifyNode.value names route = e.value names route := by
  obtain ⟨each, allowed⟩ := lenient_stable.eachOf_simplifyNode ready
  cases operator : e.operandType? with
  | none => cases e <;> first | rfl | cases operator
  | some expected =>
      have typed : e.simplifyNode.type = e.type := by
        refine allowed.resolve_left fun network => ?_
        cases e <;> first | cases network | cases operator
      refine (compositional_value names route).simplifyNode ?_
      rw [value_type each.root.supported, value_type supported]
      exact typed

theorem value_simplifyNode {e : Expr} (each : e.Each Proper) :
    e.simplifyNode.value names route = e.value names route :=
  value_simplifyNode_of_ready (lenient_stable.ready (each.mono fun _ => Proper.lenient))
    each.root.supported

/-- Simplification keeps the value, whatever the names in an expression mean and whatever is looked
up among networks. -/
theorem value_simplify_of_lenient {e : Expr} (each : e.Each Lenient) :
    e.simplify.value names route = e.value names route := by
  induction e using childrenInduction with
  | step e ih =>
    have simplified : List.Forall₂ (fun c d => d.EachOf Allowed Lenient c.type) e.children
        (e.children.map simplify) := by
      rw [List.forall₂_map_right_iff, List.forall₂_same]
      intro c member
      exact lenient_stable.eachOf_simplify (fun _ _ lenient related => lenient.ready related)
        (each.child member)
    have values : (e.children.map simplify).map (value names route) =
        e.children.map (value names route) := by
      rw [List.map_map]
      apply List.map_congr_left
      intro c member
      exact ih c member (each.child member)
    have supported := (isSupported_withChildren e (e.children.map simplify)).trans
      each.root.supported
    rw [simplify_eq, ← value_withChildren values, settle]
    split
    · rfl
    · exact value_simplifyNode_of_ready (each.root.ready simplified) supported

/-- Simplification keeps the value of well-typed expressions. -/
theorem value_simplify {e : Expr} (each : e.Each Proper) :
    e.simplify.value names route = e.value names route :=
  value_simplify_of_lenient (each.mono fun _ => Proper.lenient)

/-- What a well-typed expression of the vocabulary means is what it means after simplification: at
every route, for all meanings of the policies, sets and lists it names. -/
theorem simplify_sound (names : Names) (route : Route) {e : Expr} (typed : e.wellTyped = true)
    (supported : ∀ x ∈ e.nodes, x.isSupported = true) :
    e.simplify.value names route = e.value names route :=
  value_simplify (each_proper_iff.mpr ⟨typed, supported⟩)

/-- A match in a union with literal sets that lack the community. -/
def unionMatch : Expr :=
  .not none (.hasCommunity none (.union none
    [.lit none (.communities ["65000:1"]), .ref .communities, .lit none (.communities ["65000:2"])])
    "65000:3")

def communityRoute : Route :=
  ⟨"10.0.0.0/8", "192.0.2.1", ["65000:3"], 100, 0, 0, 0, [], by decide⟩

theorem unionMatch_simplify_sound :
    unionMatch.simplify = .not none (.hasCommunity none (.ref .communities) "65000:3") ∧
      unionMatch.simplify.value Names.none communityRoute =
        unionMatch.value Names.none communityRoute :=
  ⟨by rfl, simplify_sound Names.none communityRoute (by decide) (by decide)⟩

end RoutePolicy.Expr
