import RoutePolicy.Proofs.Extents
import RoutePolicy.Proofs.NormalForm

/-!
Simplification makes the text of an expression shorter, unless it leaves the expression as it is:
every rule that changes a node at all shortens the text of the node.
-/

set_option autoImplicit false

namespace RoutePolicy

open Encoding

theorem distinct_sublist {α : Type} (related : α → α → Bool) (xs : List α) :
    (distinct related xs).Sublist xs := by
  induction xs with
  | nil => exact .slnil
  | cons x rest ih => exact (List.filter_sublist.trans ih).cons_cons x

namespace Expr

/-! ### Constants -/

theorem extent_constant_le (value : Bool) : (bool value).extent ≤ 44 := by
  have name : (spelled none ExprTag.boolean.name).extent = 19 := by decide
  rw [bool, extent_bool, name]
  split <;> omega

theorem le_extent_lit (cls : Spelling) (value : Bool) : 43 ≤ (lit cls (.bool value)).extent := by
  have named := quotedWidth_le_spelled cls ExprTag.boolean.name
  have name : Json.quotedWidth ExprTag.boolean.name = 19 := by decide
  rw [extent_bool]
  split <;> omega

/-! ### Junctions -/

section

variable {op : Junction} {cls : Spelling} {operands kept : List Expr}

theorem le_extent_junction (cls : Spelling) (op : Junction) (operands : List Expr) :
    total extent operands + 37 ≤ (junction cls op operands).extent := by
  have named := quotedWidth_le_spelled cls (Junction.tag op).name
  have name : Json.quotedWidth (Junction.tag op).name = 13 := by cases op <;> decide
  have list := Json.le_extent_arr (writeExprs operands)
  rw [total_writeExprs] at list
  rw [extent_junction]
  omega

theorem extent_junction_lt (filled : kept ≠ [])
    (less : total extent kept < total extent operands) :
    (junction none op kept).extent < (junction cls op operands).extent := by
  have named := quotedWidth_le_spelled cls (Junction.tag op).name
  have list := Json.le_extent_arr (writeExprs operands)
  have written : writeExprs kept ≠ [] := by
    cases kept with
    | nil => exact absurd rfl filled
    | cons _ _ => simp [writeExprs]
  rw [total_writeExprs] at list
  rw [extent_junction, extent_junction, Json.extent_arr written, total_writeExprs, spelled,
    Json.extent_str]
  omega

theorem total_junctionParts_le (op : Junction) (e : Expr) :
    total extent (junctionParts op e) ≤ e.extent + 1 := by
  unfold junctionParts
  split
  · split
    · have inner := le_extent_junction ‹Spelling› ‹Junction› ‹List Expr›
      omega
    · exact Nat.le_refl _
  · exact Nat.le_refl _

/-- The parts of the operands are the operands, unless some operand is dissolved. -/
theorem junctionParts_shrink (op : Junction) (operands : List Expr) :
    operands.flatMap (junctionParts op) = operands ∨
      total extent (operands.flatMap (junctionParts op)) < total extent operands := by
  by_cases flat : ∀ e ∈ operands, e.joins op = false
  · exact .inl (flatMap_eq_self fun e member => junctionParts_of_flat (flat e member))
  · push Not at flat
    obtain ⟨e, member, joins⟩ := flat
    refine .inr (total_flatMap_lt (fun x _ => total_junctionParts_le op x) member ?_)
    cases e with
    | junction cls op' es =>
        have same : op' = op := by simpa [Expr.joins] using joins
        have inner := le_extent_junction cls op' es
        rw [junctionParts, if_pos same]
        omega
    | _ => exact absurd rfl joins

theorem keptParts_shrink (op : Junction) (operands : List Expr) :
    keptParts op operands = operands ∨
      total extent (keptParts op operands) < total extent operands := by
  have kept : (keptParts op operands).Sublist (operands.flatMap (junctionParts op)) :=
    (distinct_sublist _ _).trans List.filter_sublist
  rcases total_sublist (f := extent) kept with same | less
  · rw [same]
    exact junctionParts_shrink op operands
  · rcases junctionParts_shrink op operands with same | dissolved
    · rw [same] at less
      exact .inr less
    · exact .inr (less.trans dissolved)

/-- A part that is a constant is in the text of some operand. -/
theorem le_total_of_part {e : Expr} {value : Bool}
    (part : e ∈ operands.flatMap (junctionParts op)) (constant : e.bool? = some value) :
    44 ≤ total extent operands := by
  obtain ⟨cls, rfl⟩ := bool?_eq_some constant
  have own := le_extent_lit cls value
  have inside := lt_total (f := extent) part
  rcases junctionParts_shrink op operands with same | dissolved
  · rw [same] at inside
    omega
  · omega

/-- Operands of which nothing is left were written in some way. -/
theorem le_total_of_nothing (filled : operands ≠ []) (nothing : keptParts op operands = []) :
    37 ≤ total extent operands := by
  obtain ⟨e, rest, rfl⟩ := List.exists_cons_of_ne_nil filled
  have first := lt_total (f := extent) (List.mem_cons_self (a := e) (l := rest))
  cases joined : e.joins op with
  | true =>
      cases e with
      | junction cls op' es =>
          have inner := le_extent_junction cls op' es
          omega
      | _ => cases joined
  | false =>
      have part : e ∈ (e :: rest).flatMap (junctionParts op) := by
        rw [List.flatMap_cons, junctionParts_of_flat joined]
        exact List.mem_cons_self
      cases constant : e.bool? with
      | some value =>
          have own := le_total_of_part part constant
          omega
      | none =>
          have left : e ∈ (List.flatMap (junctionParts op) (e :: rest)).filter (·.bool?.isNone) :=
            List.mem_filter.mpr ⟨part, by rw [constant]; rfl⟩
          exact absurd nothing (distinct_ne_nil (List.ne_nil_of_mem left))

/-- A junction that is rewritten becomes shorter. -/
theorem simplifyJunction_shrinks (cls : Spelling) (op : Junction) (filled : operands ≠ []) :
    (simplifyJunction op operands).same (junction cls op operands) = true ∨
      (simplifyJunction op operands).extent < (junction cls op operands).extent := by
  have whole := le_extent_junction cls op operands
  have shrink := keptParts_shrink op operands
  have weak : total extent (keptParts op operands) ≤ total extent operands := le_of_shrinks shrink
  have short := extent_constant_le
  rw [simplifyJunction_eq]
  split
  · rename_i decided
    obtain ⟨part, member, constant⟩ := List.any_eq_true.mp decided
    have inside := le_total_of_part member (of_decide_eq_true constant)
    have constant := short (!Junction.neutral op)
    exact .inr (by omega)
  split
  · -- an operand and its negation, which is longer than the words around a constant
    rename_i contradicts
    obtain ⟨e, member, negates⟩ := List.any_eq_true.mp contradicts
    have inside := lt_total (f := extent) member
    have constant := short (!Junction.neutral op)
    cases e with
    | not cls' operand =>
        have negation := extent_not cls' operand
        exact .inr (by omega)
    | _ => cases negates
  split
  · rename_i nothing
    have inside := le_total_of_nothing filled nothing
    have constant := short (Junction.neutral op)
    exact .inr (by omega)
  · rename_i e single
    rw [single, total_cons, total_nil] at weak
    exact .inr (by omega)
  · rename_i some _
    rcases shrink with same | less
    · rw [same]
      exact .inl (same_iff.mpr rfl)
    · exact .inr (extent_junction_lt some less)

end

/-! ### Unions -/

/-- The length of the text of a literal set. -/
def setExtent (members : List String) : Nat := (lit none (.communities members)).extent

theorem setExtent_eq (members : List String) :
    setExtent members = (Json.strs members).extent + 47 := by
  have name : (spelled none ExprTag.communities.name).extent = 21 := by decide
  rw [setExtent, extent_set, name]
  omega

theorem setExtent_le (cls : Spelling) (members : List String) :
    setExtent members ≤ (lit cls (.communities members)).extent := by
  have named := quotedWidth_le_spelled cls ExprTag.communities.name
  rw [setExtent, extent_set, extent_set, spelled, Json.extent_str]
  omega

theorem total_strs (members : List String) :
    total Json.extent (members.map .str) = total Json.quotedWidth members := total_map _ _

theorem total_flatten_le (sets : List (List String)) :
    total Json.quotedWidth sets.flatten + 2 * sets.length ≤ total setExtent sets := by
  induction sets with
  | nil => exact Nat.le_refl 0
  | cons members rest ih =>
      have own := Json.le_extent_arr (members.map .str)
      rw [total_strs] at own
      have written := setExtent_eq members
      rw [List.flatten_cons, total_append, total_cons, List.length_cons]
      rw [Json.strs] at written
      omega

/-- Sets that are merged into one without repetitions become shorter, unless there was one set
without repetitions. -/
theorem setExtent_merged (first : List String) (more : List (List String)) :
    (more = [] ∧ first.Nodup ∧ distinct (· == ·) first = first) ∨
      setExtent (distinct (· == ·) (first :: more).flatten) + 1 <
        total setExtent (first :: more) := by
  have kept : (distinct (· == ·) (first :: more).flatten).Sublist (first :: more).flatten :=
    distinct_sublist _ _
  have own := Json.le_extent_arr (first.map .str)
  rw [total_strs] at own
  rw [total_cons, setExtent_eq, setExtent_eq]
  cases more with
  | nil =>
      rw [List.flatten_cons, List.flatten_nil, List.append_nil] at kept ⊢
      rcases total_sublist (f := Json.quotedWidth) kept with same | less
      · refine .inl ⟨rfl, ?_, same⟩
        rw [← same, ← pairwise_bne_iff]
        exact pairwise_distinct first
      · have filled : first ≠ [] := by
          rintro rfl
          cases less
        have written : (distinct (· == ·) first).map Json.str ≠ [] := by
          simpa using distinct_ne_nil filled
        refine .inr ?_
        rw [Json.strs, Json.extent_arr written, total_strs, Json.strs, total_nil]
        omega
  | cons second others =>
      have several := total_flatten_le (second :: others)
      have whole := total_sublist_le (f := Json.quotedWidth) kept
      have merged := Json.extent_arr_le ((distinct (· == ·) (first :: second :: others).flatten).map
        .str)
      have joined : total Json.quotedWidth (first :: second :: others).flatten =
          total Json.quotedWidth first + total Json.quotedWidth (second :: others).flatten := by
        rw [List.flatten_cons, total_append]
      rw [total_strs] at merged
      rw [joined] at whole
      rw [List.length_cons] at several
      refine .inr ?_
      rw [Json.strs, Json.strs]
      omega

/-- The literal sets of a list are no more, in a measure that spelling does not lower. -/
theorem total_sets_le {f : Expr → Nat} (plain : ∀ cls members,
      f (lit none (.communities members)) ≤ f (lit cls (.communities members))) (es : List Expr) :
    total (fun members => f (lit none (.communities members))) (es.filterMap communities?) ≤
      total f (es.filter fun e => !e.communities?.isNone) := by
  induction es with
  | nil => exact Nat.le_refl 0
  | cons e rest ih =>
      cases constant : e.communities? with
      | none => simpa [constant] using ih
      | some members =>
          obtain ⟨cls, rfl⟩ := communities?_eq_some constant
          have own := plain cls members
          rw [List.filterMap_cons_some constant, List.filter_cons_of_pos (by simp [constant]),
            total_cons, total_cons]
          omega

section

variable {operands : List Expr}

theorem total_mergedParts (f : Expr → Nat) (operands : List Expr) :
    total f (mergedParts operands) = total f (otherParts operands) +
      if (setParts operands).isEmpty then 0
      else f (lit none (.communities (distinct (· == ·) (setParts operands).flatten))) + 1 := by
  rw [mergedParts_eq]
  split
  · rfl
  · have whole := congrArg (total f) (List.take_append_drop (setPlace operands)
      (otherParts operands))
    rw [total_append] at whole
    rw [total_append, total_cons]
    omega

/-- Merging the parts of a union makes them shorter, unless nothing repeats. -/
theorem mergedParts_shrink (operands : List Expr) :
    total extent (mergedParts operands) < total extent (operands.flatMap unionParts) ∨
      (total extent (mergedParts operands) ≤ total extent (operands.flatMap unionParts) ∧
        otherParts operands = (operands.flatMap unionParts).filter (·.communities?.isNone) ∧
        (setParts operands = [] ∨ ∃ members, setParts operands = [members] ∧ members.Nodup)) := by
  have split := total_filter (f := extent) (·.communities?.isNone) (operands.flatMap unionParts)
  have sets : total setExtent (setParts operands) ≤ _ :=
    total_sets_le setExtent_le (operands.flatMap unionParts)
  have others := total_sublist (f := extent)
    (distinct_sublist same ((operands.flatMap unionParts).filter (·.communities?.isNone)))
  rw [← otherParts] at others
  have othersLe := le_of_shrinks others
  rw [total_mergedParts, ← setExtent]
  cases found : setParts operands with
  | nil =>
      rw [List.isEmpty_nil, if_pos rfl]
      rcases others with same | less
      · exact .inr ⟨by omega, same, .inl rfl⟩
      · exact .inl (by omega)
  | cons first more =>
      rw [List.isEmpty_cons, if_neg Bool.false_ne_true]
      rw [found] at sets
      rcases setExtent_merged first more with ⟨rfl, nodup, same⟩ | merged
      · have alone : distinct (· == ·) [first].flatten = first := by
          simpa using same
        rw [total_cons, total_nil] at sets
        rw [alone]
        rcases others with same | less
        · exact .inr ⟨by omega, same, .inr ⟨first, rfl, nodup⟩⟩
        · exact .inl (by omega)
      · exact .inl (by omega)

theorem le_extent_union (cls : Spelling) (operands : List Expr) :
    total extent operands + 20 ≤ (union cls operands).extent := by
  have list := Json.le_extent_arr (writeExprs operands)
  rw [total_writeExprs] at list
  rw [extent_union]
  omega

theorem total_unionParts_le (e : Expr) : total extent (unionParts e) ≤ e.extent + 1 := by
  cases e with
  | union cls es =>
      have inner := le_extent_union cls es
      rw [unionParts]
      omega
  | _ => exact Nat.le_refl _

/-- The operands of a union are merged to less, or nothing is to be merged. -/
theorem mergedParts_shrinks (operands : List Expr) :
    total extent (mergedParts operands) < total extent operands ∨
      (total extent (mergedParts operands) ≤ total extent operands ∧ NormalUnion operands) := by
  by_cases flat : ∀ e ∈ operands, e.isUnion = false
  · have parts : operands.flatMap unionParts = operands :=
      flatMap_eq_self fun e member => unionParts_of_lone (flat e member)
    have shrink := mergedParts_shrink operands
    rw [parts] at shrink
    rcases shrink with less | ⟨weak, others, sets⟩
    · exact .inl less
    · refine .inr ⟨weak, flat, ?_, ?_, ?_⟩
      · rw [← parts, ← setParts]
        rcases sets with none | ⟨members, one, -⟩
        · simp [none]
        · simp [one]
      · rw [← others]
        exact pairwise_distinct _
      · intro e member members constant
        have listed : members ∈ setParts operands := by
          rw [setParts, parts]
          exact List.mem_filterMap.mpr ⟨e, member, constant⟩
        rcases sets with none | ⟨only, one, nodup⟩
        · rw [none] at listed
          cases listed
        · rw [one, List.mem_singleton] at listed
          exact listed ▸ nodup
  · push Not at flat
    obtain ⟨e, member, nested⟩ := flat
    have less : total extent (operands.flatMap unionParts) < total extent operands := by
      refine total_flatMap_lt (fun x _ => total_unionParts_le x) member ?_
      cases e with
      | union cls es =>
          have inner := le_extent_union cls es
          rw [unionParts]
          omega
      | _ => exact absurd rfl nested
    rcases mergedParts_shrink operands with merged | ⟨merged, -, -⟩
    · exact .inl (by omega)
    · exact .inl (by omega)

/-- Operands of which nothing is left are unions themselves. -/
theorem le_total_of_mergedParts (filled : operands ≠ []) (nothing : mergedParts operands = []) :
    2 ≤ total extent operands := by
  obtain ⟨e, rest, rfl⟩ := List.exists_cons_of_ne_nil filled
  have first := lt_total (f := extent) (List.mem_cons_self (a := e) (l := rest))
  cases nested : e.isUnion with
  | true =>
      cases e with
      | union cls es =>
          have inner := le_extent_union cls es
          omega
      | _ => cases nested
  | false =>
      cases constant : e.communities? with
      | some members =>
          obtain ⟨cls, rfl⟩ := communities?_eq_some constant
          have own := setExtent_le cls members
          rw [setExtent_eq] at own
          omega
      | none =>
          have part : e ∈ ((e :: rest).flatMap unionParts).filter (·.communities?.isNone) := by
            rw [List.mem_filter, List.flatMap_cons, unionParts_of_lone nested, constant]
            exact ⟨List.mem_cons_self, rfl⟩
          have others := filter_isNone_mergedParts (e :: rest)
          rw [nothing, List.filter_nil] at others
          exact absurd others.symm (distinct_ne_nil (List.ne_nil_of_mem part))

/-- Fewer operands make a shorter union. -/
theorem extent_union_lt {cls : Spelling} {kept : List Expr}
    (several : kept = [] → 2 ≤ total extent operands)
    (less : total extent kept < total extent operands) :
    (union none kept).extent < (union cls operands).extent := by
  have named := quotedWidth_le_spelled cls ExprTag.union.name
  have list := Json.le_extent_arr (writeExprs operands)
  have shorter : (Json.arr (writeExprs kept)).extent ≤ total extent operands := by
    cases kept with
    | nil => exact several rfl
    | cons e rest =>
        rw [Json.extent_arr (by simp [writeExprs]), total_writeExprs]
        omega
  rw [total_writeExprs] at list
  rw [extent_union, extent_union, spelled, Json.extent_str]
  omega

/-- A union that is rewritten becomes shorter. -/
theorem simplifyUnion_shrinks (cls : Spelling) (filled : operands ≠ []) :
    (simplifyUnion operands).same (union cls operands) = true ∨
      (simplifyUnion operands).extent < (union cls operands).extent := by
  have whole := le_extent_union cls operands
  have shrink := mergedParts_shrinks operands
  have weak : total extent (mergedParts operands) ≤ total extent operands := by
    rcases shrink with less | ⟨weak, -⟩
    · exact Nat.le_of_lt less
    · exact weak
  rcases simplifyUnion_form operands with single | ⟨notSingle, equal⟩
  · rw [single, total_cons, total_nil] at weak
    exact .inr (by omega)
  · rcases shrink with less | ⟨-, merged⟩
    · rw [equal]
      exact .inr (extent_union_lt (le_total_of_mergedParts filled) less)
    · refine .inl (simplifyUnion_of_merged merged fun alone => ?_)
      have lengths := congrArg List.length (mergedParts_of_merged merged)
      rw [List.length_map, List.length_map, alone] at lengths
      obtain ⟨e, one⟩ := List.length_eq_one_iff.mp lengths
      exact notSingle e one

end

/-! ### Other nodes -/

theorem le_extent_hasCommunity (cls : Spelling) (subject : Expr) (community : String) :
    subject.extent + 59 ≤ (hasCommunity cls subject community).extent := by
  have named := quotedWidth_le_spelled cls ExprTag.hasCommunity.name
  have name : Json.quotedWidth ExprTag.hasCommunity.name = 16 := by decide
  rw [extent_hasCommunity]
  omega

/-- A match against a shorter subject is shorter. -/
theorem extent_hasCommunity_lt {cls : Spelling} {subject other : Expr} (community : String)
    (less : other.extent < subject.extent) :
    (hasCommunity none other community).extent < (hasCommunity cls subject community).extent := by
  have named := quotedWidth_le_spelled cls ExprTag.hasCommunity.name
  rw [extent_hasCommunity, extent_hasCommunity, spelled, Json.extent_str]
  omega

theorem total_eraseP {operands : List Expr} {members : List String}
    (found : operands.findSome? communities? = some members) :
    total extent (operands.eraseP (·.communities?.isSome)) + 48 ≤ total extent operands := by
  induction operands with
  | nil => cases found
  | cons e rest ih =>
      cases constant : e.communities? with
      | some own =>
          obtain ⟨cls, rfl⟩ := communities?_eq_some constant
          have long := setExtent_le cls own
          rw [setExtent_eq] at long
          rw [List.eraseP_cons_of_pos (by simp [constant]), total_cons]
          omega
      | none =>
          rw [List.findSome?_cons_of_isNone (by simp [constant])] at found
          have later := ih found
          rw [List.eraseP_cons_of_neg (by simp [constant]), total_cons, total_cons]
          omega

theorem simplifyHasCommunity_shrinks (cls : Spelling) (subject : Expr) (community : String) :
    (simplifyHasCommunity subject community).same (hasCommunity cls subject community) = true ∨
      (simplifyHasCommunity subject community).extent <
        (hasCommunity cls subject community).extent := by
  have whole := le_extent_hasCommunity cls subject community
  have short := extent_constant_le
  unfold simplifyHasCommunity
  split
  · rename_i members
    have constant := short (members.contains community)
    exact .inr (by omega)
  · rename_i cls' operands
    split
    · exact .inl (same_iff.mpr rfl)
    · rename_i members found
      have erased := total_eraseP found
      have union := le_extent_union cls' operands
      split
      · have constant := short true
        exact .inr (by omega)
      · split
        · rename_i e single
          rw [single, total_cons, total_nil] at erased
          exact .inr (extent_hasCommunity_lt community (by omega))
        · refine .inr (extent_hasCommunity_lt community (extent_union_lt ?_ ?_))
          · intro _
            omega
          · omega
  · exact .inl (same_iff.mpr rfl)

theorem simplifyInRanges_shrinks (cls : Spelling) (subject : Expr) (ranges : List String)
    (setCls : Spelling) :
    (simplifyInRanges subject ranges).same (inRanges cls subject ranges setCls) = true ∨
      (simplifyInRanges subject ranges).extent < (inRanges cls subject ranges setCls).extent := by
  have named := quotedWidth_le_spelled cls ExprTag.matchNetworks.name
  have name : Json.quotedWidth ExprTag.matchNetworks.name = 16 := by decide
  unfold simplifyInRanges
  split
  · split
    · rename_i text n _
      have constant := extent_constant_le (ranges.any (NetworkRange.textCovers · n))
      rw [extent_inRanges]
      exact .inr (by omega)
    · exact .inl (same_iff.mpr rfl)
  · exact .inl (same_iff.mpr rfl)

theorem total_asns (list : List Int) :
    total Json.extent (list.map Json.int) = total (fun i => (Json.int i).extent) list :=
  total_map _ _

theorem asns_append_le (first second : List Int) :
    (asns (first ++ second)).extent ≤ (asns first).extent + (asns second).extent := by
  have whole := Json.extent_arr_le ((first ++ second).map Json.int)
  have left := Json.le_extent_arr (first.map Json.int)
  have right := Json.le_extent_arr (second.map Json.int)
  rw [total_asns] at left right
  rw [total_asns, total_append] at whole
  rw [asns, asns, asns]
  omega

theorem simplifyPrepend_shrinks (cls : Spelling) (list : List Int) (operand : Expr) :
    (simplifyPrepend list operand).same (prepend cls list operand) = true ∨
      (simplifyPrepend list operand).extent < (prepend cls list operand).extent := by
  have named := quotedWidth_le_spelled cls ExprTag.prepend.name
  unfold simplifyPrepend
  split
  · rw [extent_prepend]
    exact .inr (by omega)
  · split
    · rename_i cls' rest
      have joined := asns_append_le list rest
      have inner := quotedWidth_le_spelled cls' ExprTag.asPath.name
      rw [extent_path, extent_prepend, extent_path, spelled, Json.extent_str]
      exact .inr (by omega)
    · rename_i cls' inner base
      have joined := asns_append_le list inner
      rw [extent_prepend, extent_prepend, extent_prepend, spelled, Json.extent_str]
      exact .inr (by omega)
    · exact .inl (same_iff.mpr rfl)

theorem negate_shrinks (cls : Spelling) (operand : Expr) :
    operand.negate.same (not cls operand) = true ∨
      operand.negate.extent < (not cls operand).extent := by
  unfold negate
  split
  · rename_i cls' value
    have own := le_extent_lit cls' value
    have constant := extent_constant_le (!value)
    rw [extent_not]
    exact .inr (by omega)
  · rename_i cls' inner
    rw [extent_not, extent_not]
    exact .inr (by omega)
  · exact .inl (same_iff.mpr rfl)

/-! ### Expressions -/

theorem Filled.withChildren {e : Expr} (filled : e.Filled) {es : List Expr}
    (fits : es.length = e.children.length) : (e.withChildren es).Filled := by
  have some : e.children ≠ [] → es ≠ [] := by
    rintro operands rfl
    exact operands (List.length_eq_zero_iff.mp fits.symm)
  cases e with
  | junction _ _ _ | union _ _ => exact some filled
  | compare _ _ _ _ =>
      obtain ⟨_, _, rfl⟩ := List.length_eq_two.mp fits
      trivial
  | not _ _ | prepend _ _ _ | hasCommunity _ _ _ | inRanges _ _ _ _ | inList _ _ _ _ =>
      obtain ⟨_, rfl⟩ := List.length_eq_one_iff.mp fits
      trivial
  | lit _ _ | attr _ _ | call _ _ | adjust _ _ _ | namedSet _ _ | unsupported _ _ => trivial

/-- A rule leaves a node as it is, up to spelling, or makes its text shorter. -/
theorem simplifyNode_shrinks {e : Expr} (filled : e.Filled) :
    e.simplifyNode.same e = true ∨ e.simplifyNode.extent < e.extent := by
  cases e with
  | junction cls op operands => exact simplifyJunction_shrinks cls op filled
  | union cls operands => exact simplifyUnion_shrinks cls filled
  | not cls operand => exact negate_shrinks cls operand
  | hasCommunity cls subject community => exact simplifyHasCommunity_shrinks cls subject community
  | inRanges cls subject ranges setCls => exact simplifyInRanges_shrinks cls subject ranges setCls
  | prepend cls list operand => exact simplifyPrepend_shrinks cls list operand
  | compare cls comparator left right =>
      have named := quotedWidth_le_spelled cls ExprTag.compare.name
      have name : Json.quotedWidth ExprTag.compare.name = 15 := by decide
      have whole := extent_compare cls comparator left right
      rw [simplifyNode.eq_def]
      dsimp only
      split
      · exact .inr (Nat.lt_of_le_of_lt (extent_constant_le _) (by omega))
      · exact .inl (same_iff.mpr rfl)
  | inList _ _ _ _ | lit _ _ | attr _ _ | call _ _ | adjust _ _ _ | namedSet _ _
  | unsupported _ _ => exact .inl (same_iff.mpr rfl)

theorem settle_shrinks {e : Expr} (filled : e.Filled) :
    settle e = e ∨ (settle e).extent < e.extent := by
  unfold settle
  dsimp only
  split
  · exact .inl rfl
  · rename_i differs
    rcases simplifyNode_shrinks filled with same | shorter
    · exact absurd same differs
    · exact .inr shorter

/-- Lists of expressions that are simplified one by one. -/
theorem map_simplify_shrinks {es : List Expr}
    (each : ∀ e ∈ es, e.simplify = e ∨ e.simplify.extent < e.extent) :
    es.map simplify = es ∨ total extent (es.map simplify) < total extent es := by
  induction es with
  | nil => exact .inl rfl
  | cons e rest ih =>
      obtain ⟨here, later⟩ := List.forall_mem_cons.mp each
      rw [List.map_cons, total_cons, total_cons]
      rcases here with same | shorter
      · rw [same]
        rcases ih later with others | less
        · exact .inl (by rw [others])
        · exact .inr (by omega)
      · rcases ih later with others | less
        · rw [others]
          exact .inr (by omega)
        · exact .inr (by omega)

/-- Simplification changes nothing, the spelling of classes included, or the text gets shorter: what
a change deep inside takes from the text is taken from every text around it. -/
theorem simplify_shrinks {e : Expr} (filled : e.Each Filled) :
    e.simplify = e ∨ e.simplify.extent < e.extent := by
  induction e using childrenInduction with
  | step e ih =>
      have fits : (e.children.map simplify).length = e.children.length := List.length_map _
      have around := extent_withChildren fits
      have root := settle_shrinks (filled.root.withChildren fits)
      rw [simplify_eq]
      rcases map_simplify_shrinks fun c member => ih c member (filled.child member) with same | less
      · rw [same, withChildren_children] at root ⊢
        exact root
      · refine .inr ?_
        rcases root with unchanged | shorter
        · rw [unchanged]
          omega
        · omega

end Expr

end RoutePolicy
