import RoutePolicy.Proofs.JsonText
import RoutePolicy.Proofs.Tables

/-!
The canonical text of a JSON value determines the value with all members sorted, and with it the
value of every member, if members have different keys and numbers different texts. It does not depend
on the order of members.
-/

set_option autoImplicit false

namespace RoutePolicy

namespace Json

variable {S : Number → Prop}

/-! ### Numbers of sorted values -/

/-- A value all numbers of which belong to a set. -/
def NumbersIn (S : Number → Prop) (j : Json) : Prop := ∀ n ∈ j.numbers, S n

theorem itemNumbers_iff {items : List Json} :
    (∀ n ∈ itemNumbers items, S n) ↔ ∀ item ∈ items, item.NumbersIn S := by
  induction items with
  | nil => simp [itemNumbers]
  | cons item rest ih =>
      rw [itemNumbers, List.forall_mem_append, ih, List.forall_mem_cons]
      rfl

theorem memberNumbers_iff {members : Table Json} :
    (∀ n ∈ memberNumbers members, S n) ↔ members.All (NumbersIn S) := by
  induction members with
  | nil => simp [memberNumbers, Table.All]
  | cons entry rest ih =>
      rw [memberNumbers, List.forall_mem_append, ih, Table.All, Table.All, List.forall_mem_cons]
      rfl

theorem numbersIn_arr {items : List Json} :
    (arr items).NumbersIn S ↔ ∀ item ∈ items, item.NumbersIn S := itemNumbers_iff

theorem numbersIn_obj {members : Table Json} :
    (obj members).NumbersIn S ↔ members.All (NumbersIn S) := memberNumbers_iff

theorem sortedItems_eq (items : List Json) : sortedItems items = items.map sorted := by
  induction items with
  | nil => rfl
  | cons item rest ih => rw [sortedItems, ih, List.map_cons]

theorem sortedMembers_eq (members : List (String × Json)) :
    sortedMembers members = members.map fun entry => (entry.1, entry.2.sorted) := by
  induction members with
  | nil => rfl
  | cons entry rest ih => rw [sortedMembers, ih, List.map_cons]

theorem sizeOf_member {members : List (String × Json)} {entry : String × Json}
    (member : entry ∈ members) : sizeOf entry.2 < sizeOf (obj members) := by
  have smaller := List.sizeOf_lt_of_mem member
  obtain ⟨key, value⟩ := entry
  simp only [Prod.mk.sizeOf_spec, obj.sizeOf_spec] at smaller ⊢
  omega

/-- Sorting members adds no numbers. -/
theorem numbersIn_sorted (j : Json) (known : j.NumbersIn S) : j.sorted.NumbersIn S := by
  match j with
  | arr items =>
      rw [numbersIn_arr] at known
      rw [sorted, sortedItems_eq, numbersIn_arr, List.forall_mem_map]
      intro item member
      exact numbersIn_sorted item (known item member)
  | obj members =>
      rw [numbersIn_obj] at known
      have values : Table.All (NumbersIn S) (sortedMembers members) := by
        rw [sortedMembers_eq, Table.All, List.forall_mem_map]
        intro entry member
        exact numbersIn_sorted entry.2 (known entry member)
      have entries : Table.All (NumbersIn S) (sortEntries (sortedMembers members)) := by
        intro entry member
        exact values entry (List.mem_mergeSort.mp member)
      exact numbersIn_obj.mpr entries.arrange
  | null | bool _ | num _ | str _ => exact known
termination_by sizeOf j
decreasing_by
  · exact sizeOf_mem member
  · exact sizeOf_member member

/-- Values with one canonical text are equal once their members are sorted. -/
theorem sorted_eq_of_canonical (legible : Number.Legible S) {a b : Json} (left : a.NumbersIn S)
    (right : b.NumbersIn S) (same : a.canonical = b.canonical) : a.sorted = b.sorted :=
  compact_inj legible (numbersIn_sorted a left) (numbersIn_sorted b right) same

/-! ### Members of sorted values -/

theorem names_sortedMembers (members : Table Json) :
    Table.names (sortedMembers members) = members.names := by
  rw [sortedMembers_eq, Table.names, List.map_map]
  rfl

theorem get?_sortedMembers (members : Table Json) (key : String) :
    Table.get? (sortedMembers members) key = (members.get? key).map sorted := by
  induction members with
  | nil => rfl
  | cons entry rest ih =>
      obtain ⟨name, value⟩ := entry
      rw [sortedMembers, Table.get?, Table.get?, ih]
      split <;> rfl

/-- The members of a sorted object are the sorted values of the object's members. -/
theorem get?_sorted {members : Table Json} (distinct : members.names.Nodup) (key : String) :
    (obj members).sorted.get? key = (members.get? key).map sorted := by
  have names : (Table.names (sortedMembers members)).Nodup := by
    rwa [names_sortedMembers]
  have perm : (sortEntries (sortedMembers members)).Perm (sortedMembers members) :=
    List.mergeSort_perm _ _
  have sortedNames : (Table.names (sortEntries (sortedMembers members))).Nodup :=
    (perm.map Prod.fst).nodup_iff.mpr names
  rw [sorted, object, get?, Table.get?_arrange sortedNames, Table.get?_perm sortedNames perm,
    get?_sortedMembers]

/-- Objects that are equal once sorted have equal members once sorted. -/
theorem member_eq {left right : Table Json} (leftDistinct : left.names.Nodup)
    (rightDistinct : right.names.Nodup) (same : (obj left).sorted = (obj right).sorted)
    (key : String) : (left.get? key).map sorted = (right.get? key).map sorted := by
  rw [← get?_sorted leftDistinct, ← get?_sorted rightDistinct, same]

/-! ### The order of members -/

end Json

namespace Text

theorem unitsLe_total (as bs : List Nat) : (unitsLe as bs || unitsLe bs as) = true := by
  induction as generalizing bs with
  | nil => rfl
  | cons a as ih =>
    cases bs with
    | nil => rfl
    | cons b bs =>
      rcases Nat.lt_trichotomy a b with less | rfl | more
      · simp [unitsLe, less]
      · simpa [unitsLe] using ih bs
      · simp [unitsLe, more]

theorem unitsLe_trans {as bs cs : List Nat} (first : unitsLe as bs = true)
    (second : unitsLe bs cs = true) : unitsLe as cs = true := by
  induction as generalizing bs cs with
  | nil => rfl
  | cons a as ih =>
    cases bs with
    | nil => cases first
    | cons b bs =>
      cases cs with
      | nil => cases second
      | cons c cs =>
        simp only [unitsLe, Bool.or_eq_true, Bool.and_eq_true, decide_eq_true_eq,
          beq_iff_eq] at first second ⊢
        rcases first with less | ⟨rfl, first⟩
        · rcases second with more | ⟨rfl, -⟩
          · exact .inl (less.trans more)
          · exact .inl less
        · rcases second with more | ⟨rfl, second⟩
          · exact .inl more
          · exact .inr ⟨rfl, ih first second⟩

theorem unitsLe_antisymm {as bs : List Nat} (first : unitsLe as bs = true)
    (second : unitsLe bs as = true) : as = bs := by
  induction as generalizing bs with
  | nil =>
    cases bs with
    | nil => rfl
    | cons b bs => cases second
  | cons a as ih =>
    cases bs with
    | nil => cases first
    | cons b bs =>
      simp only [unitsLe, Bool.or_eq_true, Bool.and_eq_true, decide_eq_true_eq,
        beq_iff_eq] at first second
      rcases first with less | ⟨rfl, first⟩
      · omega
      · rcases second with more | ⟨-, second⟩
        · omega
        · rw [ih first second]

theorem le_antisymm {a b : String} (first : le a b = true) (second : le b a = true) : a = b := by
  have same := congrArg ofUnits (unitsLe_antisymm first second)
  rw [units, units, ofUnits_units, ofUnits_units] at same
  exact String.toList_injective same

end Text

namespace Json

theorem sortEntries_perm {left right : Table Json} (distinct : left.names.Nodup)
    (perm : left.Perm right) : sortEntries left = sortEntries right := by
  have ordered : ∀ t : Table Json,
      (sortEntries t).Pairwise fun a b => Text.le a.1 b.1 = true := by
    intro t
    apply List.pairwise_mergeSort
    · exact fun _ _ _ => Text.unitsLe_trans
    · exact fun _ _ => Text.unitsLe_total _ _
  have own : (sortEntries left).Perm left := List.mergeSort_perm _ _
  have other : (sortEntries right).Perm right := List.mergeSort_perm _ _
  refine List.Perm.eq_of_pairwise ?_ (ordered left) (ordered right) (own.trans (perm.trans other.symm))
  intro a b inLeft inRight first second
  have names := Text.le_antisymm first second
  exact List.inj_on_of_nodup_map distinct (own.mem_iff.mp inLeft)
    (perm.mem_iff.mpr (other.mem_iff.mp inRight)) names

/-- Objects with the same members in any order are equal once sorted. -/
theorem sorted_perm {left right : Table Json} (distinct : left.names.Nodup)
    (perm : left.Perm right) : (obj left).sorted = (obj right).sorted := by
  have names : (Table.names (sortedMembers left)).Nodup := by
    rwa [names_sortedMembers]
  have entries : (sortedMembers left).Perm (sortedMembers right) := by
    rw [sortedMembers_eq, sortedMembers_eq]
    exact perm.map _
  rw [sorted, sorted, sortEntries_perm names entries]

/-- Objects with the same sorted member under every name are equal once sorted. -/
theorem sorted_object_of_get? {left right : Table Json} (distinct : left.names.Nodup)
    (others : right.names.Nodup)
    (same : ∀ key, (left.get? key).map sorted = (right.get? key).map sorted) :
    (object left).sorted = (object right).sorted := by
  have names : ∀ {t : Table Json}, t.names.Nodup →
      (Table.names (sortedMembers (Table.arrange t))).Nodup := by
    intro t own
    rw [names_sortedMembers]
    exact (Table.perm_arrange own).2.distinct
  have perm : (sortedMembers (Table.arrange left)).Perm (sortedMembers (Table.arrange right)) := by
    apply Table.perm_of_get? (names distinct) (names others)
    intro key
    rw [get?_sortedMembers, get?_sortedMembers, Table.get?_arrange distinct,
      Table.get?_arrange others, same]
  rw [object, object, sorted, sorted, sortEntries_perm (names distinct) perm]

theorem sorted_object_perm {left right : Table Json} (distinct : left.names.Nodup)
    (perm : left.Perm right) : (object left).sorted = (object right).sorted := by
  apply sorted_object_of_get? distinct ((perm.map Prod.fst).nodup_iff.mp distinct)
  intro key
  rw [Table.get?_perm distinct perm]

section

variable {left right : Table Json}
  (related : List.Forall₂ (fun a b => a.1 = b.1 ∧ a.2.sorted = b.2.sorted) left right)

include related

theorem sortedMembers_congr : sortedMembers left = sortedMembers right := by
  induction related with
  | nil => rfl
  | cons first _ ih => rw [sortedMembers, sortedMembers, first.1, first.2, ih]

/-- Objects with members that are equal once sorted are equal once sorted. -/
theorem sorted_obj_congr : (obj left).sorted = (obj right).sorted := by
  rw [sorted, sorted, sortedMembers_congr related]

end

end Json

end RoutePolicy
