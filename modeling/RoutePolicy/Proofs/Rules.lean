import RoutePolicy.Proofs.Meaning

/-!
What the rules of simplification do to the value of an expression, rule by rule.
-/

set_option autoImplicit false

namespace RoutePolicy

theorem mem_of_mem_distinct {α : Type} {related : α → α → Bool} {x : α} {xs : List α}
    (member : x ∈ distinct related xs) : x ∈ xs := by
  induction xs with
  | nil => cases member
  | cons first rest ih =>
      rcases List.mem_cons.mp member with rfl | later
      · simp
      · exact List.mem_cons_of_mem first (ih (List.mem_filter.mp later).1)

/-- What related items have in common is not lost with the repetitions. -/
theorem exists_mem_distinct {α : Type} {related : α → α → Bool} {P : α → Prop}
    (respected : ∀ x y, related x y = true → P y → P x) {xs : List α} :
    (∃ x ∈ distinct related xs, P x) ↔ ∃ x ∈ xs, P x := by
  induction xs with
  | nil => simp [distinct]
  | cons first rest ih =>
      simp only [distinct, List.exists_mem_cons_iff, List.mem_filter, Bool.not_eq_eq_eq_not,
        Bool.not_true]
      constructor
      · rintro (here | ⟨x, ⟨member, _⟩, holds⟩)
        · exact Or.inl here
        · exact Or.inr (ih.mp ⟨x, member, holds⟩)
      · rintro (here | later)
        · exact Or.inl here
        · obtain ⟨x, member, holds⟩ := ih.mpr later
          cases repeated : related first x with
          | true => exact Or.inl (respected first x repeated holds)
          | false => exact Or.inr ⟨x, ⟨member, repeated⟩, holds⟩

namespace Expr

theorem bool?_eq_some {e : Expr} {value : Bool} (constant : e.bool? = some value) :
    ∃ cls, e = lit cls (.bool value) := by
  unfold bool? at constant
  split at constant
  · cases constant
    exact ⟨_, rfl⟩
  · cases constant

theorem communities?_eq_some {e : Expr} {members : List String}
    (constant : e.communities? = some members) : ∃ cls, e = lit cls (.communities members) := by
  unfold communities? at constant
  split at constant
  · cases constant
    exact ⟨_, rfl⟩
  · cases constant

/-! ### What the rules leave -/

/-- What is left of the parts of a junction: no constants and no repetitions. -/
def keptParts (op : Junction) (operands : List Expr) : List Expr :=
  distinct same ((operands.flatMap (junctionParts op)).filter (·.bool?.isNone))

theorem mem_keptParts {op : Junction} {operands : List Expr} {e : Expr}
    (member : e ∈ keptParts op operands) :
    e ∈ operands.flatMap (junctionParts op) ∧ e.bool? = none := by
  obtain ⟨part, undecided⟩ := List.mem_filter.mp (mem_of_mem_distinct member)
  exact ⟨part, Option.isNone_iff_eq_none.mp undecided⟩

theorem simplifyJunction_eq (op : Junction) (operands : List Expr) :
    simplifyJunction op operands =
      if (operands.flatMap (junctionParts op)).any (·.bool? = some !Junction.neutral op) then
        bool !Junction.neutral op
      else if (keptParts op operands).any (hasComplement (keptParts op operands)) then
        bool !Junction.neutral op
      else match keptParts op operands with
        | [] => bool (Junction.neutral op)
        | [e] => e
        | es => junction none op es := rfl

/-- A junction becomes a constant, or it keeps parts that are no constants; a lone one replaces the
junction. -/
theorem simplifyJunction_form (op : Junction) (operands : List Expr) :
    (∃ value, simplifyJunction op operands = bool value) ∨
      ∃ kept, (∀ e ∈ kept, e ∈ operands.flatMap (junctionParts op) ∧ e.bool? = none) ∧
        (kept = [simplifyJunction op operands] ∨
          (kept ≠ [] ∧ simplifyJunction op operands = junction none op kept)) := by
  rw [simplifyJunction_eq]
  split
  · exact .inl ⟨_, rfl⟩
  · split
    · exact .inl ⟨_, rfl⟩
    · split
      · exact .inl ⟨_, rfl⟩
      · rename_i e single
        exact .inr ⟨[e], fun x member => mem_keptParts (single ▸ member), .inl rfl⟩
      · rename_i filled _
        exact .inr ⟨_, fun x member => mem_keptParts member, .inr ⟨filled, rfl⟩⟩

theorem mem_distinct_eq {texts : List String} {text : String} :
    text ∈ distinct (· == ·) texts ↔ text ∈ texts := by
  have repeats : (∃ x ∈ distinct (· == ·) texts, x = text) ↔ ∃ x ∈ texts, x = text :=
    exists_mem_distinct fun x y (equal : (x == y) = true) holds =>
      (beq_iff_eq.mp equal).trans holds
  simpa only [exists_eq_right] using repeats

/-- The merged operands of a union, before a lone one replaces the union. -/
def mergedParts (operands : List Expr) : List Expr :=
  let parts := operands.flatMap unionParts
  let literals := parts.filterMap communities?
  let rest := distinct same (parts.filter (·.communities?.isNone))
  if literals.isEmpty then rest
  else
    let place := (distinct same (parts.takeWhile (·.communities?.isNone))).length
    let members := distinct (· == ·) literals.flatten
    rest.take place ++ lit none (.communities members) :: rest.drop place

/-- The parts of a union that are no literal sets, without repetitions. -/
def otherParts (operands : List Expr) : List Expr :=
  distinct same ((operands.flatMap unionParts).filter (·.communities?.isNone))

/-- The literal sets among the parts of a union. -/
def setParts (operands : List Expr) : List (List String) :=
  (operands.flatMap unionParts).filterMap communities?

/-- How many of the other parts stand before the first literal set. -/
def setPlace (operands : List Expr) : Nat :=
  (distinct same ((operands.flatMap unionParts).takeWhile (·.communities?.isNone))).length

theorem mem_otherParts {operands : List Expr} {e : Expr} (member : e ∈ otherParts operands) :
    e ∈ operands.flatMap unionParts ∧ e.communities? = none := by
  obtain ⟨part, undecided⟩ := List.mem_filter.mp (mem_of_mem_distinct member)
  exact ⟨part, Option.isNone_iff_eq_none.mp undecided⟩

theorem mergedParts_eq (operands : List Expr) :
    mergedParts operands =
      if (setParts operands).isEmpty then otherParts operands
      else (otherParts operands).take (setPlace operands) ++
        lit none (.communities (distinct (· == ·) (setParts operands).flatten)) ::
          (otherParts operands).drop (setPlace operands) := rfl

theorem simplifyUnion_eq (operands : List Expr) :
    simplifyUnion operands =
      match mergedParts operands with
      | [e] => e
      | es => union none es := rfl

/-- What is left of the operands of a union: parts that are no literal sets, and one literal set. -/
theorem mem_mergedParts {operands : List Expr} {e : Expr} (member : e ∈ mergedParts operands) :
    (e ∈ operands.flatMap unionParts ∧ e.communities? = none) ∨
      e = lit none (.communities (distinct (· == ·)
        ((operands.flatMap unionParts).filterMap communities?).flatten)) := by
  rw [mergedParts_eq] at member
  split at member
  · exact .inl (mem_otherParts member)
  · rcases List.mem_append.mp member with before | after
    · exact .inl (mem_otherParts (List.mem_of_mem_take before))
    · rcases List.mem_cons.mp after with rfl | after
      · exact .inr rfl
      · exact .inl (mem_otherParts (List.mem_of_mem_drop after))

/-- A lone operand replaces the union. -/
theorem simplifyUnion_form (operands : List Expr) :
    mergedParts operands = [simplifyUnion operands] ∨
      ((∀ e, mergedParts operands ≠ [e]) ∧
        simplifyUnion operands = union none (mergedParts operands)) := by
  rw [simplifyUnion_eq]
  split
  · rename_i e single
    exact .inl single
  · rename_i many
    exact .inr ⟨many, rfl⟩

/-! ### Values -/

/-- Two truth values are the same when they agree on one of the constants. -/
theorem eq_of_eq_iff {a b neutral : Bool} (agree : a = neutral ↔ b = neutral) : a = b := by
  cases a <;> cases b <;> cases neutral <;> simp_all

theorem join_eq_neutral {op : Junction} {values : List Bool} :
    op.join values = Junction.neutral op ↔ ∀ v ∈ values, v = Junction.neutral op := by
  cases op with
  | all => simp [Junction.join, Junction.neutral]
  | any => simp [Junction.join, Junction.neutral]

variable {v : Expr → Value}

namespace Compositional

variable (compositional : Compositional v)

include compositional

theorem truth_bool (value : Bool) : (v (bool value)).truth = value := by
  rw [bool, compositional.lit]
  rfl

theorem truth_not (cls : Spelling) (e : Expr) : (v (.not cls e)).truth = !(v e).truth := by
  rw [compositional.not]
  rfl

theorem truth_eq_join (cls : Spelling) (op : Junction) (operands : List Expr) :
    (v (.junction cls op operands)).truth = op.join (operands.map fun e => (v e).truth) := by
  rw [compositional.junction]
  rfl

theorem truth_eq_of_same {a b : Expr} (equal : Expr.same a b = true) :
    (v a).truth = (v b).truth :=
  congrArg Value.truth (compositional.same equal)

theorem members_lit (cls : Spelling) (members : List String) :
    (v (.lit cls (.communities members))).members = members.toFinset := by
  rw [compositional.lit]
  rfl

theorem members_eq_of_same {a b : Expr} (equal : Expr.same a b = true) :
    (v a).members = (v b).members :=
  congrArg Value.members (compositional.same equal)

theorem truth_of_bool? {e : Expr} {value : Bool} (constant : e.bool? = some value) :
    (v e).truth = value := by
  obtain ⟨cls, rfl⟩ := bool?_eq_some constant
  rw [compositional.lit]
  rfl

theorem truth_negate (e : Expr) : (v e.negate).truth = !(v e).truth := by
  unfold negate
  split
  · rw [compositional.truth_bool, compositional.lit]
    rfl
  · rw [compositional.truth_not, Bool.not_not]
  · exact compositional.truth_not _ _

/-! ### Junctions -/

theorem truth_junction {cls : Spelling} {op : Junction} {operands : List Expr} :
    (v (.junction cls op operands)).truth = Junction.neutral op ↔
      ∀ e ∈ operands, (v e).truth = Junction.neutral op := by
  rw [compositional.truth_eq_join, join_eq_neutral, List.forall_mem_map]

theorem truth_junctionParts {op : Junction} {e : Expr} :
    (∀ part ∈ junctionParts op e, (v part).truth = Junction.neutral op) ↔
      (v e).truth = Junction.neutral op := by
  unfold junctionParts
  split
  · split
    · rename_i op' operands same
      subst same
      exact compositional.truth_junction.symm
    · rw [List.forall_mem_singleton]
  · rw [List.forall_mem_singleton]

/-- Ignored constants and repetitions do not change whether all parts are neutral. -/
theorem truth_kept {op : Junction} {parts : List Expr}
    (undecided : parts.any (·.bool? = some !Junction.neutral op) = false) :
    (∀ e ∈ distinct Expr.same (parts.filter (·.bool?.isNone)),
      (v e).truth = Junction.neutral op) ↔
      ∀ e ∈ parts, (v e).truth = Junction.neutral op := by
  have repeats : (∃ e ∈ distinct Expr.same (parts.filter (·.bool?.isNone)),
        (v e).truth ≠ Junction.neutral op) ↔
      ∃ e ∈ parts.filter (·.bool?.isNone), (v e).truth ≠ Junction.neutral op :=
    exists_mem_distinct fun x y equal differs => by rwa [compositional.truth_eq_of_same equal]
  constructor
  · intro kept e member
    cases constant : e.bool? with
    | some value =>
        have neutral : value ≠ !Junction.neutral op := by
          rintro rfl
          have decided := List.any_eq_false.mp undecided e member
          simp [constant] at decided
        rw [compositional.truth_of_bool? constant, Bool.eq_not_of_ne neutral, Bool.not_not]
    | none =>
        by_contra differs
        have among : e ∈ parts.filter (·.bool?.isNone) := by
          rw [List.mem_filter, constant]
          exact ⟨member, rfl⟩
        obtain ⟨x, inside, wrong⟩ := repeats.mpr ⟨e, among, differs⟩
        exact wrong (kept x inside)
  · intro all e member
    exact all e (List.mem_filter.mp (mem_of_mem_distinct member)).1

/-- An operand beside its negation decides a junction. -/
theorem exists_of_hasComplement {op : Junction} {operands : List Expr}
    (found : operands.any (hasComplement operands) = true) :
    ¬∀ e ∈ operands, (v e).truth = Junction.neutral op := by
  intro all
  obtain ⟨e, member, complement⟩ := List.any_eq_true.mp found
  unfold hasComplement at complement
  split at complement
  · rename_i operand
    obtain ⟨other, inside, equal⟩ := List.any_eq_true.mp complement
    have negated := all _ member
    have plain := all other inside
    rw [compositional.truth_not, ← compositional.truth_eq_of_same equal, plain] at negated
    exact absurd negated (Bool.not_ne_self _)
  · cases complement

/-- The rule for junctions, as far as the truth of the result goes. -/
theorem truth_simplifyJunction (op : Junction) (operands : List Expr) :
    (v (simplifyJunction op operands)).truth = Junction.neutral op ↔
      ∀ e ∈ operands, (v e).truth = Junction.neutral op := by
  have flat : (∀ part ∈ operands.flatMap (junctionParts op),
      (v part).truth = Junction.neutral op) ↔
      ∀ e ∈ operands, (v e).truth = Junction.neutral op := by
    rw [List.forall_mem_flatMap]
    exact forall₂_congr fun e _ => compositional.truth_junctionParts
  have decided : (v (bool (!Junction.neutral op))).truth ≠ Junction.neutral op := by
    rw [compositional.truth_bool]
    exact Bool.not_ne_self _
  rw [← flat]
  unfold simplifyJunction
  dsimp only
  split
  · -- a constant that decides
    rename_i constant
    obtain ⟨part, member, deciding⟩ := List.any_eq_true.mp constant
    have wrong : (v part).truth = !Junction.neutral op :=
      compositional.truth_of_bool? (of_decide_eq_true deciding)
    apply iff_of_false decided
    intro all
    rw [all part member] at wrong
    cases op <;> cases wrong
  · rename_i undecided
    rw [← compositional.truth_kept (Bool.eq_false_iff.mpr undecided)]
    split
    · rename_i complement
      exact iff_of_false decided (compositional.exists_of_hasComplement complement)
    · split
      · rename_i nothing
        rw [nothing, compositional.truth_bool]
        simp
      · rename_i e single
        rw [single, List.forall_mem_singleton]
      · exact compositional.truth_junction

/-! ### Unions -/

theorem mem_members_union {cls : Spelling} {operands : List Expr} {community : String} :
    community ∈ (v (.union cls operands)).members ↔
      ∃ e ∈ operands, community ∈ (v e).members := by
  rw [compositional.union, Value.members, mem_union]
  simp only [List.mem_map, exists_exists_and_eq_and]

theorem members_of_communities? {e : Expr} {members : List String}
    (constant : e.communities? = some members) : (v e).members = members.toFinset := by
  obtain ⟨cls, rfl⟩ := communities?_eq_some constant
  exact compositional.members_lit cls members

theorem members_unionParts {e : Expr} {community : String} :
    (∃ part ∈ unionParts e, community ∈ (v part).members) ↔
      community ∈ (v e).members := by
  unfold unionParts
  split
  · exact compositional.mem_members_union.symm
  · simp only [List.mem_singleton, exists_eq_left]

/-- The literal sets of a list and the other parts hold the communities of the list. -/
theorem members_parts {parts : List Expr} {community : String} :
    (community ∈ (parts.filterMap communities?).flatten ∨
      ∃ e ∈ distinct Expr.same (parts.filter (·.communities?.isNone)),
        community ∈ (v e).members) ↔
      ∃ e ∈ parts, community ∈ (v e).members := by
  rw [exists_mem_distinct (fun x y equal holds => by rwa [compositional.members_eq_of_same equal])]
  constructor
  · rintro (literal | ⟨e, member, holds⟩)
    · obtain ⟨members, constant, inside⟩ := List.mem_flatten.mp literal
      obtain ⟨e, member, isSet⟩ := List.mem_filterMap.mp constant
      refine ⟨e, member, ?_⟩
      rw [compositional.members_of_communities? isSet, List.mem_toFinset]
      exact inside
    · exact ⟨e, (List.mem_filter.mp member).1, holds⟩
  · rintro ⟨e, member, holds⟩
    cases constant : e.communities? with
    | some members =>
        rw [compositional.members_of_communities? constant, List.mem_toFinset] at holds
        apply Or.inl
        have isSet : members ∈ parts.filterMap communities? :=
          List.mem_filterMap.mpr ⟨e, member, constant⟩
        exact List.mem_flatten.mpr ⟨members, isSet, holds⟩
    | none =>
        have kept : e ∈ parts.filter (·.communities?.isNone) := by
          rw [List.mem_filter, constant]
          exact ⟨member, rfl⟩
        exact Or.inr ⟨e, kept, holds⟩

theorem members_mergedParts (operands : List Expr) (community : String) :
    (∃ e ∈ mergedParts operands, community ∈ (v e).members) ↔
      ∃ e ∈ operands, community ∈ (v e).members := by
  have flat : (∃ part ∈ operands.flatMap unionParts, community ∈ (v part).members) ↔
      ∃ e ∈ operands, community ∈ (v e).members := by
    constructor
    · rintro ⟨part, member, holds⟩
      obtain ⟨e, inside, isPart⟩ := List.mem_flatMap.mp member
      exact ⟨e, inside, compositional.members_unionParts.mp ⟨part, isPart, holds⟩⟩
    · rintro ⟨e, inside, holds⟩
      obtain ⟨part, isPart, holds⟩ := compositional.members_unionParts.mpr holds
      exact ⟨part, List.mem_flatMap.mpr ⟨e, inside, isPart⟩, holds⟩
  refine Iff.trans ?_ (compositional.members_parts.trans flat)
  unfold mergedParts
  dsimp only
  split
  · rename_i empty
    rw [List.isEmpty_iff.mp empty]
    simp
  · rename_i full
    generalize distinct Expr.same (List.filter _ _) = rest
    generalize List.length _ = place
    have parted : ∀ e, e ∈ rest ↔ e ∈ rest.take place ∨ e ∈ rest.drop place := by
      intro e
      rw [← List.mem_append, List.take_append_drop]
    simp only [List.mem_append, List.mem_cons, parted]
    have inside : community ∈ (v (.lit none (.communities (distinct (· == ·)
          ((operands.flatMap unionParts).filterMap communities?).flatten)))).members ↔
        community ∈ ((operands.flatMap unionParts).filterMap communities?).flatten := by
      rw [compositional.members_lit, List.mem_toFinset, mem_distinct_eq]
    rw [← inside]
    constructor
    · rintro ⟨e, before | rfl | after, holds⟩
      · exact Or.inr ⟨e, Or.inl before, holds⟩
      · exact Or.inl holds
      · exact Or.inr ⟨e, Or.inr after, holds⟩
    · rintro (holds | ⟨e, before | after, holds⟩)
      · exact ⟨_, Or.inr (Or.inl rfl), holds⟩
      · exact ⟨e, Or.inl before, holds⟩
      · exact ⟨e, Or.inr (Or.inr after), holds⟩

/-- The rule for unions, as far as the communities of the result go. -/
theorem members_simplifyUnion (operands : List Expr) (community : String) :
    community ∈ (v (simplifyUnion operands)).members ↔
      ∃ e ∈ operands, community ∈ (v e).members := by
  rw [simplifyUnion_eq, ← compositional.members_mergedParts]
  split
  · rename_i e single
    rw [single]
    simp only [List.mem_singleton, exists_eq_left]
  · exact compositional.mem_members_union

/-! ### Matches and prepending -/

theorem truth_hasCommunity {cls : Spelling} {subject : Expr} {community : String} :
    (v (.hasCommunity cls subject community)).truth = true ↔
      community ∈ (v subject).members := by
  rw [compositional.hasCommunity, Value.truth, decide_eq_true_eq]

/-- The rule for community matches. -/
theorem truth_simplifyHasCommunity (subject : Expr) (community : String) :
    (v (simplifyHasCommunity subject community)).truth = true ↔
      community ∈ (v subject).members := by
  unfold simplifyHasCommunity
  split
  · rename_i members
    rw [compositional.truth_bool, compositional.members_lit, List.mem_toFinset]
    exact List.contains_iff_mem
  · rename_i cls operands
    split
    · exact compositional.truth_hasCommunity
    · rename_i members found
      obtain ⟨before, set, after, rfl, constant, earlier⟩ := List.findSome?_eq_some_iff.mp found
      have isSet : (v set).members = members.toFinset :=
        compositional.members_of_communities? constant
      split
      · rename_i contained
        apply iff_of_true (compositional.truth_bool true)
        rw [compositional.mem_members_union]
        refine ⟨set, by simp, ?_⟩
        rw [isSet, List.mem_toFinset]
        exact List.contains_iff_mem.mp contained
      · -- the literal set that is dropped lacks the community
        rename_i missing
        have dropped :
            (before ++ set :: after).eraseP (·.communities?.isSome) = before ++ after := by
          rw [List.eraseP_append_right _ (by simpa using earlier),
            List.eraseP_cons_of_pos (by rw [constant]; rfl)]
        have others : (∃ e ∈ before ++ after, community ∈ (v e).members) ↔
            ∃ e ∈ before ++ set :: after, community ∈ (v e).members := by
          constructor
          · rintro ⟨e, member, holds⟩
            have kept : e ∈ before ++ set :: after := by
              simp only [List.mem_append, List.mem_cons] at member ⊢
              tauto
            exact ⟨e, kept, holds⟩
          · rintro ⟨e, member, holds⟩
            rcases List.mem_append.mp member with early | late
            · exact ⟨e, List.mem_append_left _ early, holds⟩
            · rcases List.mem_cons.mp late with rfl | late
              · rw [isSet, List.mem_toFinset] at holds
                exact absurd (List.contains_iff_mem.mpr holds) missing
              · exact ⟨e, List.mem_append_right _ late, holds⟩
        rw [dropped, compositional.mem_members_union, ← others]
        split
        · rename_i e single
          rw [compositional.truth_hasCommunity, single]
          simp only [List.mem_singleton, exists_eq_left]
        · rw [compositional.truth_hasCommunity, compositional.mem_members_union]
  · exact compositional.truth_hasCommunity

/-- The rule for network matches. -/
theorem truth_simplifyInRanges (subject : Expr) (ranges : List String) :
    (v (simplifyInRanges subject ranges)).truth = (v subject).inRanges ranges := by
  unfold simplifyInRanges
  split
  · rename_i text
    split
    · rename_i n parsed
      rw [compositional.truth_bool, compositional.lit, Literal.value, Value.inRanges, parsed]
      rfl
    · rw [compositional.inRanges, Value.truth]
  · rw [compositional.inRanges, Value.truth]

theorem asns_prepend (cls : Spelling) (asns : List Int) (operand : Expr) :
    (v (.prepend cls asns operand)).asns = asns ++ (v operand).asns := by
  rw [compositional.prepend, Value.asns]

/-- The rule for prepending. -/
theorem asns_simplifyPrepend (asns : List Int) (operand : Expr) :
    (v (simplifyPrepend asns operand)).asns = asns ++ (v operand).asns := by
  unfold simplifyPrepend
  split
  · rename_i empty
    rw [List.isEmpty_iff.mp empty, List.nil_append]
  · split
    · rw [compositional.lit, compositional.lit]
      rfl
    · rw [compositional.asns_prepend, compositional.asns_prepend, List.append_assoc]
    · rw [compositional.asns_prepend]

/-! ### Nodes -/

/-- The value of a node depends on its parts only by their values. -/
theorem withChildren {e : Expr} {es : List Expr} (equal : es.map v = e.children.map v) :
    v (e.withChildren es) = v e := by
  have lengths : es.length = e.children.length := by simpa using congrArg List.length equal
  cases e with
  | junction cls op operands =>
      have truths : es.map (fun e => (v e).truth) = operands.map fun e => (v e).truth := by
        have mapped := congrArg (List.map Value.truth) equal
        rwa [List.map_map, List.map_map] at mapped
      change v (.junction cls op es) = _
      rw [compositional.junction, compositional.junction, truths]
  | union cls operands =>
      change v (.union cls es) = _
      rw [compositional.union, compositional.union, equal]
      rfl
  | compare cls comparator left right =>
      obtain ⟨left', right', rfl⟩ := List.length_eq_two.mp lengths
      simp only [children, List.map_cons, List.map_nil, List.cons.injEq, and_true] at equal
      simp only [Expr.withChildren, compositional.compare, equal]
  | not _ _ | prepend _ _ _ | hasCommunity _ _ _ | inRanges _ _ _ _ =>
      obtain ⟨operand', rfl⟩ := List.length_eq_one_iff.mp lengths
      simp only [children, List.map_cons, List.map_nil, List.cons.injEq, and_true] at equal
      simp only [Expr.withChildren, compositional.not, compositional.prepend,
        compositional.hasCommunity, compositional.inRanges, equal]
  | inList _ _ _ _ =>
      obtain ⟨operand', rfl⟩ := List.length_eq_one_iff.mp lengths
      simp only [children, List.map_cons, List.map_nil, List.cons.injEq, and_true] at equal
      exact compositional.inList _ _ _ _ _ _ _ equal
  | lit _ _ | attr _ _ | call _ _ | adjust _ _ _ | namedSet _ _ | unsupported _ _ => rfl

/-- Rewriting a node keeps its value if it keeps the type of that. -/
theorem simplifyNode {e : Expr} (kept : (v e.simplifyNode).type = (v e).type) :
    v e.simplifyNode = v e := by
  cases e with
  | junction cls op operands =>
      rw [compositional.junction] at kept
      rw [Value.eq_bool kept, compositional.junction, Value.bool.injEq]
      have before : (v (.junction cls op operands)).truth = Junction.neutral op ↔
          ∀ e ∈ operands, (v e).truth = Junction.neutral op := compositional.truth_junction
      rw [compositional.truth_eq_join] at before
      exact eq_of_eq_iff ((compositional.truth_simplifyJunction op operands).trans before.symm)
  | union cls operands =>
      have own := compositional.union cls operands
      rw [own] at kept
      rw [Value.eq_communities kept, own, Value.communities.injEq]
      ext community
      have before : community ∈ (v (.union cls operands)).members ↔
          ∃ e ∈ operands, community ∈ (v e).members := compositional.mem_members_union
      rw [own] at before
      exact (compositional.members_simplifyUnion operands community).trans before.symm
  | not cls operand =>
      rw [compositional.not] at kept
      rw [Value.eq_bool kept, compositional.not, Value.bool.injEq]
      exact compositional.truth_negate operand
  | hasCommunity cls subject community =>
      rw [compositional.hasCommunity] at kept
      rw [Value.eq_bool kept, compositional.hasCommunity, Value.bool.injEq]
      exact eq_of_eq_iff ((compositional.truth_simplifyHasCommunity subject community).trans
        decide_eq_true_iff.symm)
  | inRanges cls subject ranges setCls =>
      rw [compositional.inRanges] at kept
      rw [Value.eq_bool kept, compositional.inRanges, Value.bool.injEq]
      exact compositional.truth_simplifyInRanges subject ranges
  | prepend cls asns operand =>
      rw [compositional.prepend] at kept
      rw [Value.eq_asPath kept, compositional.prepend, Value.asPath.injEq]
      exact compositional.asns_simplifyPrepend asns operand
  | compare cls comparator left right =>
      rw [Expr.simplifyNode.eq_def]
      dsimp only
      split
      · rw [bool, compositional.lit, compositional.compare, compositional.lit, compositional.lit]
        rfl
      · rfl
  | inList _ _ _ _ | lit _ _ | attr _ _ | call _ _ | adjust _ _ _ | namedSet _ _
  | unsupported _ _ => rfl

end Compositional

end Expr

end RoutePolicy
