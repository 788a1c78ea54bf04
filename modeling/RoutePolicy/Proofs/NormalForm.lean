import RoutePolicy.Proofs.Reading

/-!
Normal forms. A node is rewritten after its parts, and what a rule makes of parts to which no rule
applies is an expression to which no rule applies. So one pass is enough: simplified expressions are
normal, and normal expressions are the ones that simplification leaves alone.
-/

set_option autoImplicit false

namespace RoutePolicy

section

variable {α : Type} {related : α → α → Bool}

theorem pairwise_distinct (xs : List α) :
    (distinct related xs).Pairwise fun x y => related x y = false := by
  induction xs with
  | nil => exact .nil
  | cons x rest ih =>
      refine List.pairwise_cons.mpr ⟨?_, ih.filter _⟩
      intro y member
      simpa using (List.mem_filter.mp member).2

theorem distinct_of_pairwise {xs : List α} (apart : xs.Pairwise fun x y => related x y = false) :
    distinct related xs = xs := by
  induction apart with
  | nil => rfl
  | cons first _ ih =>
      rw [distinct, ih, List.filter_eq_self.mpr]
      intro y member
      rw [first y member, Bool.not_false]

/-- Without repetitions are the lists of which `distinct` drops nothing. -/
theorem pairwise_bne_iff {xs : List String} :
    (xs.Pairwise fun x y => (x == y) = false) ↔ xs.Nodup := by
  simp only [beq_eq_false_iff_ne]
  rfl

end

namespace Expr

/-! ### Normal nodes -/

/-- Whether an expression is a junction of a kind. -/
def joins (op : Junction) : Expr → Bool
  | junction _ op' _ => op' = op
  | _ => false

def isNot : Expr → Bool
  | not _ _ => true
  | _ => false

def isPrepend : Expr → Bool
  | prepend _ _ _ => true
  | _ => false

def int? : Expr → Option Int
  | lit _ (.int value) => some value
  | _ => none

def path? : Expr → Option (List Int)
  | lit _ (.asPath asns) => some asns
  | _ => none

def network? : Expr → Option String
  | lit _ (.network text) => some text
  | _ => none

theorem int?_eq_some {e : Expr} {value : Int} (constant : e.int? = some value) :
    ∃ cls, e = lit cls (.int value) := by
  unfold int? at constant
  split at constant
  · cases constant
    exact ⟨_, rfl⟩
  · cases constant

/-- Operands of a junction to which no rule applies. -/
structure NormalJunction (op : Junction) (operands : List Expr) : Prop where
  several : 2 ≤ operands.length
  undecided : ∀ e ∈ operands, e.bool? = none
  flat : ∀ e ∈ operands, e.joins op = false
  apart : operands.Pairwise fun a b => a.same b = false
  consistent : ∀ cls e, not cls e ∈ operands → ∀ other ∈ operands, other.same e = false

/-- Operands of a union, before a lone one replaces the union, to which no rule applies. -/
structure NormalUnion (operands : List Expr) : Prop where
  flat : ∀ e ∈ operands, e.isUnion = false
  oneSet : (operands.filterMap communities?).length ≤ 1
  apart : (operands.filter (·.communities?.isNone)).Pairwise fun a b => a.same b = false
  members : ∀ e ∈ operands, ∀ members, e.communities? = some members → members.Nodup

/-- A node of its kind to which no rule applies. -/
def Normal : Expr → Prop
  | junction _ op operands => NormalJunction op operands
  | union _ operands => NormalUnion operands ∧ operands.length ≠ 1
  | not _ operand => operand.bool? = none ∧ operand.isNot = false
  | compare _ _ left right => left.int? = none ∨ right.int? = none
  | hasCommunity _ subject _ => ∀ part ∈ unionParts subject, part.communities? = none
  | inRanges _ subject _ _ => ∀ text, subject.network? = some text → Network.parse? text = none
  | prepend _ asns operand => asns ≠ [] ∧ operand.path? = none ∧ operand.isPrepend = false
  | _ => True

/-! ### Nodes that are equal up to spelling -/

mutual

/-- What `same` compares of an expression. -/
def content : Expr → Expr
  | lit _ value => lit none value
  | attr _ name => attr none name
  | junction _ op operands => junction none op (contentAll operands)
  | not _ operand => not none operand.content
  | compare _ comparator left right => compare none comparator left.content right.content
  | hasCommunity _ subject community => hasCommunity none subject.content community
  | inRanges _ subject ranges _ => inRanges none subject.content ranges none
  | inList _ subject name _ => inList none subject.content name none
  | union _ operands => union none (contentAll operands)
  | prepend _ asns operand => prepend none asns operand.content
  | call _ policy => call none policy
  | adjust _ shift amount => adjust none shift amount
  | namedSet _ name => namedSet none name
  | unsupported tag raw => unsupported tag (.str raw.compact)

def contentAll : List Expr → List Expr
  | [] => []
  | e :: rest => e.content :: contentAll rest

end

theorem contentAll_eq (es : List Expr) : contentAll es = es.map content := by
  induction es with
  | nil => rfl
  | cons e rest ih => rw [contentAll, ih, List.map_cons]

theorem compact_inj {j k : Json} : j.compact = k.compact ↔ j.chars = k.chars :=
  String.ofList_inj

mutual

theorem same_iff {a b : Expr} : a.same b = true ↔ a.content = b.content := by
  cases a <;> cases b <;>
    simp [same, content, same_iff, sameAll_iff, compact_inj, and_comm, and_assoc]

theorem sameAll_iff {as bs : List Expr} : sameAll as bs = true ↔ contentAll as = contentAll bs := by
  cases as <;> cases bs <;> simp [sameAll, contentAll, same_iff, sameAll_iff]

end

theorem same_eq_false {a b : Expr} : a.same b = false ↔ a.content ≠ b.content := by
  rw [← Bool.not_eq_true, same_iff]

section

variable {e x : Expr}

@[simp] theorem bool?_content : e.content.bool? = e.bool? := by
  cases e with
  | lit _ value => cases value <;> rfl
  | _ => rfl

@[simp] theorem communities?_content : e.content.communities? = e.communities? := by
  cases e with
  | lit _ value => cases value <;> rfl
  | _ => rfl

@[simp] theorem int?_content : e.content.int? = e.int? := by
  cases e with
  | lit _ value => cases value <;> rfl
  | _ => rfl

@[simp] theorem path?_content : e.content.path? = e.path? := by
  cases e with
  | lit _ value => cases value <;> rfl
  | _ => rfl

@[simp] theorem network?_content : e.content.network? = e.network? := by
  cases e with
  | lit _ value => cases value <;> rfl
  | _ => rfl

@[simp] theorem joins_content {op : Junction} : e.content.joins op = e.joins op := by
  cases e <;> rfl

@[simp] theorem isUnion_content : e.content.isUnion = e.isUnion := by
  cases e <;> rfl

@[simp] theorem isNot_content : e.content.isNot = e.isNot := by
  cases e <;> rfl

@[simp] theorem isPrepend_content : e.content.isPrepend = e.isPrepend := by
  cases e <;> rfl

theorem eq_not_of_content (negation : e.content = not none x) :
    ∃ cls inner, e = not cls inner ∧ inner.content = x := by
  cases e with
  | not cls inner =>
      simp only [content, not.injEq, true_and] at negation
      exact ⟨cls, inner, rfl, negation⟩
  | _ => simp [content] at negation

theorem unionParts_content : (unionParts e.content) = (unionParts e).map content := by
  cases e with
  | union _ operands => exact contentAll_eq operands
  | _ => rfl

end

section

variable {op : Junction} {as bs : List Expr}

/-- What holds of the contents of a list holds of the contents of a list with the same contents. -/
theorem forall_content {P : Expr → Prop} (equal : as.map content = bs.map content)
    (holds : ∀ e ∈ as, P e.content) : ∀ e ∈ bs, P e.content := by
  rw [← List.forall_mem_map] at holds ⊢
  rwa [← equal]

theorem pairwise_content (as : List Expr) :
    (as.Pairwise fun a b => a.same b = false) ↔ (as.map content).Pairwise (· ≠ ·) := by
  simp only [List.pairwise_map, same_eq_false]

theorem NormalJunction.of_content (equal : as.map content = bs.map content)
    (normal : NormalJunction op as) : NormalJunction op bs where
  several := by
    have lengths := congrArg List.length equal
    rw [List.length_map, List.length_map] at lengths
    exact lengths ▸ normal.several
  undecided := by
    simpa using forall_content (P := (·.bool? = none)) equal (by simpa using normal.undecided)
  flat := by
    simpa using forall_content (P := (·.joins op = false)) equal (by simpa using normal.flat)
  apart := by
    rw [pairwise_content, ← equal, ← pairwise_content]
    exact normal.apart
  consistent cls e member := by
    have negation : not none e.content ∈ as.map content := by
      rw [equal]
      exact List.mem_map_of_mem member
    obtain ⟨a, inside, isNot⟩ := List.mem_map.mp negation
    obtain ⟨cls', inner, rfl, inner_content⟩ := eq_not_of_content isNot
    simp only [same_eq_false, ← inner_content]
    apply forall_content (P := (· ≠ inner.content)) equal
    intro other among
    exact same_eq_false.mp (normal.consistent cls' inner inside other among)

theorem filterMap_content (as : List Expr) :
    (as.map content).filterMap communities? = as.filterMap communities? := by
  simp [List.filterMap_map]

theorem filter_content (as : List Expr) : (as.map content).filter (·.communities?.isNone) =
    (as.filter (·.communities?.isNone)).map content := by
  simp [List.filter_map, Function.comp_def]

theorem NormalUnion.of_content (equal : as.map content = bs.map content) (merged : NormalUnion as) :
    NormalUnion bs where
  flat := by
    simpa using forall_content (P := (·.isUnion = false)) equal (by simpa using merged.flat)
  oneSet := by
    rw [← filterMap_content, ← equal, filterMap_content]
    exact merged.oneSet
  apart := by
    rw [pairwise_content, ← filter_content, ← equal, filter_content, ← pairwise_content]
    exact merged.apart
  members := by
    have sets := forall_content (P := fun e => ∀ members, e.communities? = some members →
      members.Nodup) equal (by simpa using merged.members)
    simpa using sets

end

/-- Spelling does not matter to whether a node is normal. -/
theorem Normal.of_same {a b : Expr} (equal : a.same b = true) (normal : a.Normal) : b.Normal := by
  rw [same_iff] at equal
  cases a with
  | junction _ _ as =>
      cases b with
      | junction _ _ bs =>
          simp only [content, contentAll_eq, junction.injEq, true_and] at equal
          obtain ⟨rfl, operands⟩ := equal
          exact NormalJunction.of_content operands normal
      | _ => simp [content] at equal
  | union _ as =>
      cases b with
      | union _ bs =>
          simp only [content, contentAll_eq, union.injEq, true_and] at equal
          have lengths := congrArg List.length equal
          rw [List.length_map, List.length_map] at lengths
          exact ⟨normal.1.of_content equal, lengths ▸ normal.2⟩
      | _ => simp [content] at equal
  | not _ a =>
      cases b with
      | not _ b =>
          simp only [content, not.injEq, true_and] at equal
          simp only [Normal] at normal ⊢
          rwa [← bool?_content, ← isNot_content, ← equal, bool?_content, isNot_content]
      | _ => simp [content] at equal
  | compare _ _ l r =>
      cases b with
      | compare _ _ l' r' =>
          simp only [content, compare.injEq, true_and] at equal
          simp only [Normal] at normal ⊢
          rwa [← int?_content (e := l'), ← int?_content (e := r'), ← equal.2.1, ← equal.2.2,
            int?_content, int?_content]
      | _ => simp [content] at equal
  | hasCommunity _ a _ =>
      cases b with
      | hasCommunity _ b _ =>
          simp only [content, hasCommunity.injEq, true_and] at equal
          have parts : (unionParts a).map content = (unionParts b).map content := by
            rw [← unionParts_content, equal.1, unionParts_content]
          simp only [Normal] at normal ⊢
          simpa using forall_content (P := (·.communities? = none)) parts (by simpa using normal)
      | _ => simp [content] at equal
  | inRanges _ a _ _ =>
      cases b with
      | inRanges _ b _ _ =>
          simp only [content, inRanges.injEq, true_and, and_true] at equal
          simp only [Normal] at normal ⊢
          rwa [← network?_content, ← equal.1, network?_content]
      | _ => simp [content] at equal
  | prepend _ _ a =>
      cases b with
      | prepend _ _ b =>
          simp only [content, prepend.injEq, true_and] at equal
          simp only [Normal] at normal ⊢
          rwa [← path?_content (e := b), ← isPrepend_content (e := b), ← equal.1, ← equal.2,
            path?_content, isPrepend_content]
      | _ => simp [content] at equal
  | lit _ _ | attr _ _ | inList _ _ _ _ | call _ _ | adjust _ _ _ | namedSet _ _
  | unsupported _ _ => cases b <;> trivial

/-! ### What the rules make of normal parts -/

theorem each_bool (value : Bool) : (bool value).Each Normal := each_leaf trivial rfl

theorem junctionParts_of_flat {op : Junction} {e : Expr} (flat : e.joins op = false) :
    junctionParts op e = [e] := by
  cases e with
  | junction cls op' es =>
      have other : op' ≠ op := by simpa [joins] using flat
      simp [junctionParts, other]
  | _ => rfl

theorem normal_junctionParts {op : Junction} {e part : Expr} (normal : e.Each Normal)
    (member : part ∈ junctionParts op e) : part.Each Normal ∧ part.joins op = false := by
  unfold junctionParts at member
  split at member
  · rename_i op' operands
    split at member
    · rename_i equal
      subst equal
      exact ⟨normal.child member, normal.root.flat part member⟩
    · rename_i other
      rw [List.mem_singleton.mp member]
      exact ⟨normal, decide_eq_false other⟩
  · rename_i other
    rw [List.mem_singleton.mp member]
    refine ⟨normal, ?_⟩
    cases e with
    | junction cls op' operands => exact absurd rfl (other cls op' operands)
    | _ => rfl

theorem each_normal_simplifyJunction (op : Junction) {operands : List Expr}
    (normal : ∀ e ∈ operands, e.Each Normal) : (simplifyJunction op operands).Each Normal := by
  have parts : ∀ part ∈ operands.flatMap (junctionParts op),
      part.Each Normal ∧ part.joins op = false := by
    intro part member
    obtain ⟨e, inside, isPart⟩ := List.mem_flatMap.mp member
    exact normal_junctionParts (normal e inside) isPart
  rw [simplifyJunction_eq]
  split
  · exact each_bool _
  · have own : ∀ e ∈ keptParts op operands,
        e ∈ operands.flatMap (junctionParts op) ∧ e.bool? = none := fun _ => mem_keptParts
    have apart : (keptParts op operands).Pairwise fun x y => same x y = false :=
      pairwise_distinct _
    revert own apart
    generalize keptParts op operands = kept
    intro own apart
    split
    · exact each_bool _
    · rename_i consistent
      split
      · exact each_bool _
      · exact (parts _ (own _ (List.mem_singleton_self _)).1).1
      · rename_i filled notSingle
        refine each_iff.mpr ⟨⟨?_, ?_, ?_, apart, ?_⟩, ?_⟩
        · exact two_le_length filled notSingle
        · exact fun e member => (own e member).2
        · exact fun e member => (parts e (own e member).1).2
        · intro cls e member
          have lone := List.any_eq_false.mp (Bool.eq_false_iff.mpr consistent) _ member
          simpa [hasComplement] using lone
        · exact fun e member => (parts e (own e member).1).1

theorem unionParts_of_lone {e : Expr} (lone : e.isUnion = false) : unionParts e = [e] := by
  cases e with
  | union _ _ => cases lone
  | _ => rfl

theorem normal_unionParts {e part : Expr} (normal : e.Each Normal) (member : part ∈ unionParts e) :
    part.Each Normal ∧ part.isUnion = false := by
  cases lone : e.isUnion with
  | false =>
      rw [unionParts_of_lone lone] at member
      rw [List.mem_singleton.mp member]
      exact ⟨normal, lone⟩
  | true =>
      cases e with
      | union _ _ => exact ⟨normal.child member, normal.root.1.flat part member⟩
      | _ => cases lone

theorem filter_isNone_mergedParts (operands : List Expr) :
    (mergedParts operands).filter (·.communities?.isNone) = otherParts operands := by
  have rest : ∀ e ∈ otherParts operands, e.communities?.isNone = true := fun _ member =>
    Option.isNone_iff_eq_none.mpr (mem_otherParts member).2
  rw [mergedParts_eq]
  split
  · exact List.filter_eq_self.mpr rest
  · rw [List.filter_append, List.filter_cons_of_neg (by simp [communities?]), ← List.filter_append,
      List.take_append_drop]
    exact List.filter_eq_self.mpr rest

/-- The literal sets of a union become one without repetitions. -/
theorem filterMap_mergedParts (operands : List Expr) :
    (mergedParts operands).filterMap communities? = [] ∨
      ∃ texts, (mergedParts operands).filterMap communities? = [distinct (· == ·) texts] := by
  have rest : ∀ e ∈ otherParts operands, e.communities? = none := fun _ member =>
    (mem_otherParts member).2
  rw [mergedParts_eq]
  split
  · exact .inl (List.filterMap_eq_nil_iff.mpr rest)
  · refine .inr ⟨(setParts operands).flatten, ?_⟩
    have before : ((otherParts operands).take (setPlace operands)).filterMap communities? = [] :=
      List.filterMap_eq_nil_iff.mpr fun e member => rest e (List.mem_of_mem_take member)
    have after : ((otherParts operands).drop (setPlace operands)).filterMap communities? = [] :=
      List.filterMap_eq_nil_iff.mpr fun e member => rest e (List.mem_of_mem_drop member)
    rw [List.filterMap_append, before, List.nil_append, List.filterMap_cons]
    simp only [communities?, after]

theorem merged_mergedParts {operands : List Expr} (normal : ∀ e ∈ operands, e.Each Normal) :
    NormalUnion (mergedParts operands) ∧ ∀ e ∈ mergedParts operands, e.Each Normal := by
  have parts : ∀ part ∈ operands.flatMap unionParts,
      part.Each Normal ∧ part.isUnion = false := by
    intro part member
    obtain ⟨e, inside, isPart⟩ := List.mem_flatMap.mp member
    exact normal_unionParts (normal e inside) isPart
  have own : ∀ e ∈ mergedParts operands, e.Each Normal ∧ e.isUnion = false := by
    intro e member
    rcases mem_mergedParts member with ⟨part, -⟩ | rfl
    · exact parts e part
    · exact ⟨each_leaf trivial rfl, rfl⟩
  refine ⟨⟨fun e member => (own e member).2, ?_, ?_, ?_⟩, fun e member => (own e member).1⟩
  · rcases filterMap_mergedParts operands with noSet | ⟨texts, one⟩
    · simp [noSet]
    · simp [one]
  · rw [filter_isNone_mergedParts]
    exact pairwise_distinct _
  · intro e member members constant
    have among : members ∈ (mergedParts operands).filterMap communities? :=
      List.mem_filterMap.mpr ⟨e, member, constant⟩
    rcases filterMap_mergedParts operands with noSet | ⟨texts, one⟩
    · simp [noSet] at among
    · rw [one, List.mem_singleton] at among
      rw [among, ← pairwise_bne_iff]
      exact pairwise_distinct texts

theorem each_normal_simplifyUnion {operands : List Expr} (normal : ∀ e ∈ operands, e.Each Normal) :
    (simplifyUnion operands).Each Normal := by
  obtain ⟨merged, own⟩ := merged_mergedParts normal
  rcases simplifyUnion_form operands with single | ⟨notSingle, equal⟩
  · exact own _ (single ▸ List.mem_singleton_self _)
  · rw [equal]
    refine each_iff.mpr ⟨⟨merged, fun single => ?_⟩, own⟩
    obtain ⟨e, single⟩ := List.length_eq_one_iff.mp single
    exact notSingle e single

/-- Without its literal set a merged union holds none. -/
theorem NormalUnion.eraseP {operands : List Expr} (merged : NormalUnion operands) :
    operands.eraseP (·.communities?.isSome) = operands.filter (·.communities?.isNone) := by
  obtain ⟨-, oneSet, -, -⟩ := merged
  induction operands with
  | nil => rfl
  | cons e rest ih =>
      cases constant : e.communities? with
      | none =>
          rw [List.filterMap_cons_none constant] at oneSet
          rw [List.eraseP_cons_of_neg (by simp [constant]),
            List.filter_cons_of_pos (by simp [constant]), ih oneSet]
      | some members =>
          rw [List.filterMap_cons_some constant, List.length_cons] at oneSet
          have noSet := List.filterMap_eq_nil_iff.mp (List.eq_nil_of_length_eq_zero
            (Nat.le_zero.mp (Nat.le_of_succ_le_succ oneSet)))
          rw [List.eraseP_cons_of_pos (by simp [constant]),
            List.filter_cons_of_neg (by simp [constant]), List.filter_eq_self.mpr]
          intro other member
          rw [noSet other member, Option.isNone_none]

theorem NormalUnion.filter {operands : List Expr} (merged : NormalUnion operands) :
    NormalUnion (operands.filter (·.communities?.isNone)) where
  flat e member := merged.flat e (List.mem_filter.mp member).1
  oneSet := (List.Sublist.filterMap _ (List.filter_sublist)).length_le.trans merged.oneSet
  apart := merged.apart.filter _
  members e member := merged.members e (List.mem_filter.mp member).1

theorem each_normal_hasCommunity {subject : Expr} (community : String)
    (normal : subject.Each Normal)
    (undecided : ∀ part ∈ unionParts subject, part.communities? = none) :
    (hasCommunity none subject community).Each Normal :=
  each_unary undecided normal rfl

theorem each_normal_simplifyHasCommunity {subject : Expr} (community : String)
    (normal : subject.Each Normal) : (simplifyHasCommunity subject community).Each Normal := by
  unfold simplifyHasCommunity
  split
  · exact each_bool _
  · rename_i cls operands
    split
    · rename_i nothing
      exact each_normal_hasCommunity community normal (List.findSome?_eq_none_iff.mp nothing)
    · split
      · exact each_bool _
      · have merged := normal.root.1
        have rest : ∀ e ∈ operands.filter (·.communities?.isNone),
            e.Each Normal ∧ e.communities? = none ∧ e.isUnion = false := by
          intro e member
          obtain ⟨inside, undecided⟩ := List.mem_filter.mp member
          exact ⟨normal.child inside, Option.isNone_iff_eq_none.mp undecided, merged.flat e inside⟩
        rw [merged.eraseP]
        split
        · rename_i e single
          obtain ⟨own, undecided, lone⟩ := rest e (single ▸ List.mem_singleton_self _)
          refine each_normal_hasCommunity community own ?_
          rw [unionParts_of_lone lone]
          exact List.forall_mem_singleton.mpr undecided
        · rename_i notSingle
          refine each_normal_hasCommunity community (each_iff.mpr ⟨⟨merged.filter, ?_⟩, ?_⟩) ?_
          · intro single
            obtain ⟨e, single⟩ := List.length_eq_one_iff.mp single
            exact notSingle e single
          · exact fun e member => (rest e member).1
          · exact fun e member => (rest e member).2.1
  · rename_i notLiteral notUnion
    refine each_normal_hasCommunity community normal ?_
    cases subject with
    | union cls operands => exact absurd rfl (notUnion cls operands)
    | lit cls value =>
        cases value with
        | communities members => exact absurd rfl (notLiteral cls members)
        | _ => exact List.forall_mem_singleton.mpr rfl
    | _ => exact List.forall_mem_singleton.mpr rfl

theorem each_normal_simplifyInRanges {subject : Expr} (ranges : List String)
    (normal : subject.Each Normal) : (simplifyInRanges subject ranges).Each Normal := by
  unfold simplifyInRanges
  split
  · split
    · exact each_bool _
    · rename_i text malformed
      refine each_unary ?_ normal rfl
      rintro _ ⟨⟩
      exact malformed
  · rename_i notNetwork
    refine each_unary (fun text network => ?_) normal rfl
    cases subject with
    | lit cls value =>
        cases value with
        | network text => exact absurd rfl (notNetwork cls text)
        | _ => cases network
    | _ => cases network

theorem each_normal_simplifyPrepend (asns : List Int) {operand : Expr}
    (normal : operand.Each Normal) : (simplifyPrepend asns operand).Each Normal := by
  unfold simplifyPrepend
  split
  · exact normal
  · rename_i some
    have filled : asns ≠ [] := fun empty => some (List.isEmpty_iff.mpr empty)
    split
    · exact each_leaf trivial rfl
    · rename_i cls inner base
      refine each_unary ⟨?_, normal.root.2⟩ (normal.child (List.mem_singleton_self _)) rfl
      exact fun empty => filled (List.append_eq_nil_iff.mp empty).1
    · rename_i notPath notPrepend
      refine each_unary ⟨filled, ?_⟩ normal rfl
      cases operand with
      | lit cls value =>
          cases value with
          | asPath path => exact absurd rfl (notPath cls path)
          | _ => exact ⟨rfl, rfl⟩
      | prepend cls inner base => exact absurd rfl (notPrepend cls inner base)
      | _ => exact ⟨rfl, rfl⟩

theorem each_normal_negate {operand : Expr} (normal : operand.Each Normal) :
    operand.negate.Each Normal := by
  unfold negate
  split
  · exact each_bool _
  · exact normal.child (List.mem_singleton_self _)
  · rename_i notConstant notNegation
    refine each_unary ?_ normal rfl
    cases operand with
    | lit cls value =>
        cases value with
        | bool value => exact absurd rfl (notConstant cls value)
        | _ => exact ⟨rfl, rfl⟩
    | not cls inner => exact absurd rfl (notNegation cls inner)
    | _ => exact ⟨rfl, rfl⟩

/-- A rewritten node is normal if its parts are. -/
theorem each_normal_simplifyNode {e : Expr} (parts : ∀ c ∈ e.children, c.Each Normal) :
    e.simplifyNode.Each Normal := by
  cases e with
  | junction cls op operands => exact each_normal_simplifyJunction op parts
  | union cls operands => exact each_normal_simplifyUnion parts
  | not cls operand => exact each_normal_negate (parts _ (List.mem_singleton_self _))
  | hasCommunity cls subject community =>
      exact each_normal_simplifyHasCommunity community (parts _ (List.mem_singleton_self _))
  | inRanges cls subject ranges setCls =>
      exact each_normal_simplifyInRanges ranges (parts _ (List.mem_singleton_self _))
  | prepend cls asns operand =>
      exact each_normal_simplifyPrepend asns (parts _ (List.mem_singleton_self _))
  | compare cls comparator left right =>
      rw [simplifyNode.eq_def]
      dsimp only
      split
      · exact each_bool _
      · rename_i notIntegers
        refine each_iff.mpr ⟨?_, parts⟩
        by_contra both
        simp only [Normal, not_or] at both
        obtain ⟨a, isInt⟩ := Option.ne_none_iff_exists'.mp both.1
        obtain ⟨b, isInt'⟩ := Option.ne_none_iff_exists'.mp both.2
        obtain ⟨cls, rfl⟩ := int?_eq_some isInt
        obtain ⟨cls', rfl⟩ := int?_eq_some isInt'
        exact notIntegers cls a cls' b rfl rfl rfl HEq.rfl
  | inList _ _ _ _ | lit _ _ | attr _ _ | call _ _ | adjust _ _ _ | namedSet _ _
  | unsupported _ _ => exact each_iff.mpr ⟨trivial, parts⟩

/-- A node that keeps its spelling is normal, since the rewritten one is. -/
theorem each_normal_settle {e : Expr} (parts : ∀ c ∈ e.children, c.Each Normal) :
    (settle e).Each Normal := by
  have rewritten := each_normal_simplifyNode parts
  unfold settle
  dsimp only
  split
  · rename_i equal
    exact each_iff.mpr ⟨rewritten.root.of_same equal, parts⟩
  · exact rewritten

theorem each_normal_simplify (e : Expr) : e.simplify.Each Normal := by
  induction e using childrenInduction with
  | step e ih =>
    rw [simplify_eq]
    apply each_normal_settle
    rw [children_withChildren (List.length_map _), List.forall_mem_map]
    exact ih

/-! ### What the rules leave alone -/

theorem simplifyJunction_of_normal {op : Junction} {operands : List Expr}
    (normal : NormalJunction op operands) :
    simplifyJunction op operands = junction none op operands := by
  have parts : operands.flatMap (junctionParts op) = operands := by
    apply flatMap_eq_self
    intro e member
    have other := normal.flat e member
    cases e with
    | junction cls op' inner =>
        have other : op' ≠ op := by simpa [joins] using other
        simp [junctionParts, other]
    | _ => rfl
  have undecided : operands.any (·.bool? = some !Junction.neutral op) = false := by
    rw [List.any_eq_false]
    intro e member
    simp [normal.undecided e member]
  have kept : distinct same (operands.filter (·.bool?.isNone)) = operands := by
    rw [List.filter_eq_self.mpr, distinct_of_pairwise normal.apart]
    intro e member
    rw [normal.undecided e member, Option.isNone_none]
  have consistent : operands.any (hasComplement operands) = false := by
    rw [List.any_eq_false]
    intro e member
    cases e with
    | not cls inner =>
        rw [hasComplement, List.any_eq_true]
        rintro ⟨other, among, equal⟩
        rw [normal.consistent cls inner member other among] at equal
        cases equal
    | _ => exact Bool.false_ne_true
  have several := normal.several
  unfold simplifyJunction
  simp only [parts, undecided, kept, consistent, Bool.false_eq_true, if_false]
  split
  · simp at several
  · simp at several
  · rfl

/-- The one literal set of a merged union stands between other operands. -/
theorem NormalUnion.split {operands : List Expr} (merged : NormalUnion operands) :
    (∀ e ∈ operands, e.communities? = none) ∨
      ∃ before cls members after, operands = before ++ lit cls (.communities members) :: after ∧
        (∀ e ∈ before ++ after, e.communities? = none) := by
  by_cases noSet : ∀ e ∈ operands, e.communities? = none
  · exact .inl noSet
  · push Not at noSet
    obtain ⟨set, member, constant⟩ := noSet
    obtain ⟨members, isSet⟩ := Option.ne_none_iff_exists'.mp constant
    obtain ⟨cls, rfl⟩ := communities?_eq_some isSet
    obtain ⟨before, after, rfl⟩ := List.append_of_mem member
    refine .inr ⟨before, cls, members, after, rfl, fun e among => ?_⟩
    have oneSet := merged.oneSet
    rw [List.filterMap_append, List.filterMap_cons_some isSet, List.length_append,
      List.length_cons] at oneSet
    have others : ((before ++ after).filterMap communities?).length = 0 := by
      rw [List.filterMap_append, List.length_append]
      omega
    exact List.filterMap_eq_nil_iff.mp (List.eq_nil_of_length_eq_zero others) e among

theorem NormalUnion.parts {operands : List Expr} (merged : NormalUnion operands) :
    operands.flatMap unionParts = operands :=
  flatMap_eq_self fun e member => unionParts_of_lone (merged.flat e member)

theorem filter_of_noSet {es : List Expr} (noSet : ∀ e ∈ es, e.communities? = none) :
    es.filter (·.communities?.isNone) = es := by
  rw [List.filter_eq_self]
  intro e member
  rw [noSet e member, Option.isNone_none]

theorem mergedParts_of_noSet {operands : List Expr} (merged : NormalUnion operands)
    (noSet : ∀ e ∈ operands, e.communities? = none) : mergedParts operands = operands := by
  have apart := distinct_of_pairwise merged.apart
  rw [filter_of_noSet noSet] at apart
  have sets := List.filterMap_eq_nil_iff.mpr noSet
  simp only [mergedParts, merged.parts, filter_of_noSet noSet, apart, sets, List.isEmpty_nil,
    if_true]

/-- The one literal set of a merged union stays where it is. -/
theorem mergedParts_of_set {before after : List Expr} {cls : Spelling} {members : List String}
    (merged : NormalUnion (before ++ lit cls (.communities members) :: after))
    (others : ∀ e ∈ before ++ after, e.communities? = none) :
    mergedParts (before ++ lit cls (.communities members) :: after) =
      before ++ lit none (.communities members) :: after := by
  obtain ⟨beforeNone, afterNone⟩ := List.forall_mem_append.mp others
  have rest : (before ++ lit cls (.communities members) :: after).filter
      (·.communities?.isNone) = before ++ after := by
    rw [List.filter_append, List.filter_cons_of_neg (by simp [communities?]),
      filter_of_noSet beforeNone, filter_of_noSet afterNone]
  have sets : (before ++ lit cls (.communities members) :: after).filterMap communities? =
      [members] := by
    rw [List.filterMap_append, List.filterMap_eq_nil_iff.mpr beforeNone, List.nil_append,
      List.filterMap_cons]
    simp only [communities?, List.filterMap_eq_nil_iff.mpr afterNone]
  have early : (before ++ lit cls (.communities members) :: after).takeWhile
      (·.communities?.isNone) = before := by
    rw [List.takeWhile_append_of_pos, List.takeWhile_cons_of_neg (by simp [communities?]),
      List.append_nil]
    intro e member
    rw [beforeNone e member, Option.isNone_none]
  have pairwise := merged.apart
  rw [rest] at pairwise
  have apart := distinct_of_pairwise pairwise
  have earlyApart := distinct_of_pairwise (List.pairwise_append.mp pairwise).1
  have unrepeated : distinct (· == ·) members = members := by
    apply distinct_of_pairwise
    rw [pairwise_bne_iff]
    exact merged.members (lit cls (.communities members)) (by simp) members rfl
  simp only [mergedParts, merged.parts, rest, sets, early, apart, earlyApart, List.isEmpty_cons,
    Bool.false_eq_true, if_false, List.flatten_cons, List.flatten_nil, List.append_nil,
    unrepeated, List.take_left, List.drop_left]

theorem mergedParts_of_merged {operands : List Expr} (merged : NormalUnion operands) :
    (mergedParts operands).map content = operands.map content := by
  rcases merged.split with noSet | ⟨before, cls, members, after, rfl, others⟩
  · rw [mergedParts_of_noSet merged noSet]
  · rw [mergedParts_of_set merged others, List.map_append, List.map_append, List.map_cons,
      List.map_cons]
    rfl

theorem simplifyUnion_of_merged {cls : Spelling} {operands : List Expr}
    (merged : NormalUnion operands) (notSingle : operands.length ≠ 1) :
    (simplifyUnion operands).same (union cls operands) = true := by
  have contents := mergedParts_of_merged merged
  rw [same_iff]
  rcases simplifyUnion_form operands with single | ⟨-, equal⟩
  · have lengths := congrArg List.length contents
    rw [single, List.length_map, List.length_map] at lengths
    exact absurd lengths.symm notSingle
  · rw [equal, content, content, contentAll_eq, contentAll_eq, contents]

theorem negate_of_normal {operand : Expr} (undecided : operand.bool? = none)
    (affirmed : operand.isNot = false) : operand.negate = not none operand := by
  unfold negate
  split
  · cases undecided
  · cases affirmed
  · rfl

theorem simplifyHasCommunity_of_normal {subject : Expr} (community : String)
    (noSet : ∀ part ∈ unionParts subject, part.communities? = none) :
    simplifyHasCommunity subject community = hasCommunity none subject community := by
  unfold simplifyHasCommunity
  split
  · exact absurd (noSet _ (List.mem_singleton_self _)) (by simp [communities?])
  · rename_i cls operands
    have nothing : operands.findSome? communities? = none := List.findSome?_eq_none_iff.mpr noSet
    rw [nothing]
  · rfl

theorem simplifyInRanges_of_normal {subject : Expr} (ranges : List String)
    (malformed : ∀ text, subject.network? = some text → Network.parse? text = none) :
    simplifyInRanges subject ranges = inRanges none subject ranges none := by
  unfold simplifyInRanges
  split
  · rw [malformed _ rfl]
  · rfl

theorem simplifyPrepend_of_normal {asns : List Int} {operand : Expr} (filled : asns ≠ [])
    (notPath : operand.path? = none) (notPrepend : operand.isPrepend = false) :
    simplifyPrepend asns operand = prepend none asns operand := by
  unfold simplifyPrepend
  rw [if_neg (by simpa using filled)]
  split
  · cases notPath
  · cases notPrepend
  · rfl

/-- A normal node is rewritten to itself, up to spelling. -/
theorem Normal.simplifyNode {e : Expr} (normal : e.Normal) :
    e.simplifyNode.same e = true := by
  cases e with
  | junction cls op operands =>
      rw [Expr.simplifyNode, simplifyJunction_of_normal normal, same_iff]
      rfl
  | union cls operands =>
      rw [Expr.simplifyNode]
      exact simplifyUnion_of_merged normal.1 normal.2
  | not cls operand =>
      rw [Expr.simplifyNode, negate_of_normal normal.1 normal.2, same_iff]
      rfl
  | hasCommunity cls subject community =>
      rw [Expr.simplifyNode, simplifyHasCommunity_of_normal community normal, same_iff]
      rfl
  | inRanges cls subject ranges setCls =>
      rw [Expr.simplifyNode, simplifyInRanges_of_normal ranges normal, same_iff]
      rfl
  | prepend cls asns operand =>
      obtain ⟨filled, notPath, notPrepend⟩ := normal
      rw [Expr.simplifyNode, simplifyPrepend_of_normal filled notPath notPrepend, same_iff]
      rfl
  | compare cls comparator left right =>
      rw [Expr.simplifyNode.eq_def, same_iff]
      dsimp only
      split
      · rcases normal with left | right
        · cases left
        · cases right
      · rfl
  | inList _ _ _ _ | lit _ _ | attr _ _ | call _ _ | adjust _ _ _ | namedSet _ _
  | unsupported _ _ => exact same_iff.mpr rfl

theorem Normal.settle {e : Expr} (normal : e.Normal) : Expr.settle e = e := by
  unfold Expr.settle
  dsimp only
  rw [normal.simplifyNode, if_pos rfl]

theorem withChildren_children (e : Expr) : e.withChildren e.children = e := by
  cases e <;> rfl

/-- Simplification leaves alone the normal expressions, and no others. -/
theorem simplify_eq_self_iff {e : Expr} : e.simplify = e ↔ e.Each Normal := by
  constructor
  · intro unchanged
    rw [← unchanged]
    exact each_normal_simplify e
  · intro normal
    induction e using childrenInduction with
    | step e ih =>
      have parts : e.children.map simplify = e.children := by
        rw [List.map_congr_left fun c member => ih c member (normal.child member), List.map_id']
      rw [simplify_eq, parts, withChildren_children, normal.root.settle]

/-- One pass reaches the fixed point: a second one changes nothing, the spelling of classes
included, and no rule applies to any node. Operands may be ill typed or missing. -/
theorem simplify_reaches_normal_form (e : Expr) :
    e.simplify.simplify = e.simplify ∧ e.simplify.Each Normal :=
  ⟨simplify_eq_self_iff.mpr (each_normal_simplify e), each_normal_simplify e⟩

end Expr

end RoutePolicy
