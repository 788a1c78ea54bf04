import RoutePolicy.Proofs.SameExpressions

/-!
Junctions that their operands decide. A junction becomes the constant that decides it if one of its
parts is this constant, or if a part stands beside its negation. The parts of an operand that is
itself a junction of the kind stand for it, so such an operand is not recognised beside its
negation.
-/

set_option autoImplicit false

namespace RoutePolicy.Expr

/-! ### Deciding parts -/

/-- Parts that decide a junction: one of them is the deciding constant, or the negation of another
one. -/
def Decisive (op : Junction) (parts : List Expr) : Prop :=
  (∃ p ∈ parts, p.bool? = some !Junction.neutral op) ∨
    ∃ p ∈ parts, ∃ q ∈ parts, q.bool? = none ∧ p.content = not none q.content

variable {op : Junction}

/-- Whether parts decide a junction depends on their contents only. -/
theorem Decisive.of_contents {parts others : List Expr} (decisive : Decisive op parts)
    (contents : ∀ p ∈ parts, ∃ q ∈ others, q.content = p.content) : Decisive op others := by
  rcases decisive with ⟨p, member, constant⟩ | ⟨p, member, q, among, undecided, negation⟩
  · obtain ⟨p', inside, equal⟩ := contents p member
    refine .inl ⟨p', inside, ?_⟩
    rw [← bool?_content, equal, bool?_content, constant]
  · obtain ⟨p', inside, equal⟩ := contents p member
    obtain ⟨q', there, same⟩ := contents q among
    refine .inr ⟨p', inside, q', there, ?_, ?_⟩
    · rw [← bool?_content, same, bool?_content, undecided]
    · rw [equal, same, negation]

/-- Nothing that parts contain is lost with constants that do not decide and with repetitions. -/
theorem exists_kept {parts : List Expr} {p : Expr} (member : p ∈ parts)
    (undecided : p.bool? = none) :
    ∃ kept ∈ distinct same (parts.filter (·.bool?.isNone)), kept.content = p.content := by
  refine (exists_mem_distinct fun x y equal holds => ?_).mpr ⟨p, ?_, rfl⟩
  · exact (same_iff.mp equal).trans holds
  · exact List.mem_filter.mpr ⟨member, by simp [undecided]⟩

theorem hasComplement_iff {kept : List Expr} {e : Expr} :
    hasComplement kept e = true ↔ ∃ q ∈ kept, e.content = not none q.content := by
  unfold hasComplement
  split
  · simp only [List.any_eq_true, same_iff, content, not.injEq, true_and]
    exact exists_congr fun q => and_congr_right fun _ => eq_comm
  · rename_i other
    refine iff_of_false Bool.false_ne_true ?_
    rintro ⟨q, -, negation⟩
    obtain ⟨cls, inner, rfl, -⟩ := eq_not_of_content negation
    exact other cls inner rfl

/-- A junction becomes the constant that decides it exactly if its parts do. -/
theorem simplifyJunction_decided (operands : List Expr) :
    (simplifyJunction op operands).bool? = some (!Junction.neutral op) ↔
      Decisive op (operands.flatMap (junctionParts op)) := by
  rw [simplifyJunction_eq]
  split
  · -- a constant that decides
    rename_i constant
    obtain ⟨p, member, deciding⟩ := List.any_eq_true.mp constant
    exact iff_of_true rfl (.inl ⟨p, member, of_decide_eq_true deciding⟩)
  · rename_i undecided
    have open' : ¬∃ p ∈ operands.flatMap (junctionParts op),
        p.bool? = some !Junction.neutral op := by
      rintro ⟨p, member, constant⟩
      exact undecided (List.any_eq_true.mpr ⟨p, member, decide_eq_true constant⟩)
    split
    · -- a part beside its negation
      rename_i complement
      obtain ⟨p, member, found⟩ := List.any_eq_true.mp complement
      obtain ⟨q, among, negation⟩ := hasComplement_iff.mp found
      obtain ⟨part, undecided⟩ := mem_keptParts among
      exact iff_of_true rfl (.inr ⟨p, (mem_keptParts member).1, q, part, undecided, negation⟩)
    · rename_i apart
      refine iff_of_false ?_ ?_
      · split
        · simp [bool, bool?]
        · rename_i e single
          have lone : e ∈ keptParts op operands := single ▸ List.mem_singleton_self e
          simp [(mem_keptParts lone).2]
        · simp [bool?]
      · rintro (constant | ⟨p, member, q, among, plain, negation⟩)
        · exact open' constant
        · obtain ⟨cls, inner, rfl, -⟩ := eq_not_of_content negation
          obtain ⟨p', inside, equal⟩ := exists_kept member rfl
          obtain ⟨q', there, same⟩ := exists_kept among plain
          refine apart (List.any_eq_true.mpr ⟨p', inside, hasComplement_iff.mpr ⟨q', there, ?_⟩⟩)
          rw [equal, negation, same]

/-! ### Simplified junctions -/

theorem settle_content (e : Expr) : (settle e).content = e.simplifyNode.content := by
  unfold settle
  dsimp only
  split
  · rename_i equal
    exact (same_iff.mp equal).symm
  · rfl

theorem eq_junction_of_joins {e : Expr} (joined : e.joins op = true) :
    ∃ cls operands, e = junction cls op operands := by
  cases e with
  | junction cls op' operands =>
      obtain rfl : op' = op := by simpa [joins] using joined
      exact ⟨cls, operands, rfl⟩
  | _ => cases joined

theorem junctionParts_junction {cls : Spelling} {operands : List Expr} :
    junctionParts op (junction cls op operands) = operands := by
  simp [junctionParts]

/-- The parts of a junction of conditions, once the conditions are simplified. -/
def simpleParts (op : Junction) (operands : List Expr) : List Expr :=
  (operands.map simplify).flatMap (junctionParts op)

/-- A junction simplifies to the constant that decides it exactly if its simplified parts do. -/
theorem simplify_decided {cls : Spelling} (operands : List Expr) :
    (junction cls op operands).simplify.bool? = some (!Junction.neutral op) ↔
      Decisive op (simpleParts op operands) := by
  rw [simplify, simplifyAll_eq, ← bool?_content, settle_content, bool?_content]
  exact simplifyJunction_decided (operands.map simplify)

theorem mem_simpleParts {operands : List Expr} {x : Expr} (member : x ∈ operands)
    (flat : x.simplify.joins op = false) : x.simplify ∈ simpleParts op operands := by
  refine List.mem_flatMap.mpr ⟨x.simplify, List.mem_map_of_mem member, ?_⟩
  rw [junctionParts_of_flat flat]
  exact List.mem_singleton_self _

/-- Operands whose simplified forms other operands have, too, add nothing to the parts. -/
theorem simpleParts_contents {operands others : List Expr}
    (each : ∀ x ∈ operands, ∃ y ∈ others, y.simplify.content = x.simplify.content) :
    ∀ p ∈ simpleParts op operands, ∃ q ∈ simpleParts op others, q.content = p.content := by
  intro p member
  obtain ⟨_, simple, part⟩ := List.mem_flatMap.mp member
  obtain ⟨x, inside, rfl⟩ := List.mem_map.mp simple
  obtain ⟨y, there, equal⟩ := each x inside
  have parts : (junctionParts op y.simplify).map content =
      (junctionParts op x.simplify).map content := by
    rw [← junctionParts_content, ← junctionParts_content, equal]
  have listed : p.content ∈ (junctionParts op y.simplify).map content :=
    parts ▸ List.mem_map_of_mem part
  obtain ⟨q, among, same⟩ := List.mem_map.mp listed
  exact ⟨q, List.mem_flatMap.mpr ⟨y.simplify, List.mem_map_of_mem there, among⟩, same⟩

/-! ### Negations -/

/-- Negating what is simple twice changes nothing. -/
theorem negate_negate {e : Expr} (normal : Normal e) : e.negate.negate.content = e.content := by
  cases e with
  | lit cls value =>
      cases value with
      | bool value => simp [negate, bool, content]
      | _ => rfl
  | not cls operand =>
      obtain ⟨undecided, affirmed⟩ := normal
      rw [negate, negate_of_normal undecided affirmed]
      rfl
  | _ => rfl

theorem simplify_not (cls : Spelling) (e : Expr) :
    (not cls e).simplify.content = e.simplify.negate.content := by
  rw [simplify, settle_content, simplifyNode]

/-- The negation of an expression simplifies to the negation of what the expression simplifies
to. -/
theorem simplify_negate (e : Expr) : e.negate.simplify.content = e.simplify.negate.content := by
  cases e with
  | lit cls value =>
      cases value with
      | bool value => rfl
      | _ => exact simplify_not none _
  | not cls operand =>
      have twice := negate_negate (each_normal_simplify operand).root
      rw [negate, ← negate_content, simplify_not, negate_content, twice]
  | _ => exact simplify_not none _

/-- What comes to the opposite of an expression has the expression for its opposite. -/
theorem opposite_symm {x y : Expr} (opposite : y.simplify.content = x.simplify.negate.content) :
    x.simplify.content = y.simplify.negate.content := by
  rw [← negate_content, opposite, negate_content, negate_negate (each_normal_simplify x).root]

/-- No expression is its own negation. -/
theorem content_negate_ne (e : Expr) : e.negate.content ≠ e.content := by
  intro equal
  cases e with
  | lit cls value =>
      cases value with
      | bool value => simp [negate, bool, content] at equal
      | _ => cases equal
  | not cls operand =>
      have sizes := congrArg sizeOf equal
      simp only [negate, content, not.sizeOf_spec] at sizes
      omega
  | _ => cases equal

/-- An expression that simplifies neither to a junction of a kind nor to the negation of one, so
that it is recognised beside its negation. -/
def Whole (op : Junction) (e : Expr) : Prop :=
  e.simplify.joins op = false ∧ e.simplify.negate.joins op = false

instance (op : Junction) (e : Expr) : Decidable (e.Whole op) :=
  inferInstanceAs (Decidable (_ ∧ _))

theorem Whole.of_content {x y : Expr} (whole : x.Whole op)
    (equal : y.simplify.content = x.simplify.content) : y.Whole op := by
  refine ⟨?_, ?_⟩
  · rw [← joins_content, equal, joins_content, whole.1]
  · rw [← joins_content, ← negate_content, equal, negate_content, joins_content, whole.2]

theorem Whole.of_opposite {x y : Expr} (whole : x.Whole op)
    (opposite : y.simplify.content = x.simplify.negate.content) : y.Whole op := by
  refine ⟨?_, ?_⟩
  · rw [← joins_content, opposite, joins_content, whole.2]
  · rw [← joins_content, ← opposite_symm opposite, joins_content, whole.1]

/-- What is recognised beside its negation decides a junction. -/
theorem decisive_of_complement {operands : List Expr} {x y : Expr} (member : x ∈ operands)
    (among : y ∈ operands) (whole : x.Whole op)
    (opposite : y.simplify.content = x.simplify.negate.content) :
    Decisive op (simpleParts op operands) := by
  have first := mem_simpleParts member whole.1
  have second := mem_simpleParts among (whole.of_opposite opposite).1
  have normal := (each_normal_simplify x).root
  have negation : ∀ inner : Expr, x.simplify.negate = inner →
      y.simplify.content = inner.content := fun inner same => same ▸ opposite
  generalize x.simplify = s at first normal negation
  cases constant : s.bool? with
  | some value =>
      obtain ⟨cls, rfl⟩ := bool?_eq_some constant
      have other : y.simplify.bool? = some !value := by
        rw [← bool?_content, negation _ rfl]
        rfl
      by_cases deciding : value = !Junction.neutral op
      · exact .inl ⟨_, first, by rw [constant, deciding]⟩
      · refine .inl ⟨_, second, ?_⟩
        rw [other, Bool.eq_not_of_ne deciding, Bool.not_not]
  | none =>
      cases isNot : s.isNot with
      | false =>
          have opposed := negation _ (negate_of_normal constant isNot)
          exact .inr ⟨_, second, _, first, constant, opposed⟩
      | true =>
          cases s with
          | not cls inner =>
              have opposed := negation inner rfl
              refine .inr ⟨_, first, _, second, ?_, ?_⟩
              · rw [← bool?_content, opposed, bool?_content]
                exact normal.1
              · rw [content, opposed]
          | _ => cases isNot

end RoutePolicy.Expr
