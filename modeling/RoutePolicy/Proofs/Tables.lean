import Mathlib.Data.List.Induction
import Mathlib.Data.List.Nodup
import Mathlib.Data.List.TakeDrop
import Mathlib.Data.List.TakeWhile
import RoutePolicy.Table

/-!
Tables by name: properties of all their values, and what is found under a name after entries have
been put, placed, arranged or reordered.
-/

set_option autoImplicit false

namespace RoutePolicy

namespace Table

variable {α : Type} {P : α → Prop} {t : Table α} {name : String} {value : α}

/-- A property of all values of a table. -/
def All (P : α → Prop) (t : Table α) : Prop := ∀ entry ∈ t, P entry.2

theorem All.nil : All P [] := nofun

theorem All.get? (all : All P t) (found : t.get? name = some value) : P value := by
  induction t with
  | nil => cases found
  | cons entry rest ih =>
      obtain ⟨here, further⟩ := List.forall_mem_cons.mp all
      rw [Table.get?] at found
      split at found
      · cases found
        exact here
      · exact ih further found

theorem All.append {other : Table α} (all : All P t) (others : All P other) :
    All P (t ++ other) := by
  intro entry member
  rcases List.mem_append.mp member with inside | later
  · exact all entry inside
  · exact others entry later

theorem All.single (holds : P value) : All P [(name, value)] := by
  simpa [All] using holds

theorem All.put (all : All P t) (holds : P value) : All P (t.put name value) := by
  induction t with
  | nil => exact All.single holds
  | cons entry rest ih =>
      obtain ⟨here, further⟩ := List.forall_mem_cons.mp all
      rw [Table.put]
      split
      · exact (All.single holds).append further
      · exact (All.single here).append (ih further)

theorem All.place (all : All P t) (holds : P value) : All P (t.place name value) := by
  unfold Table.place
  split
  · exact all.put holds
  · rw [List.span_eq_takeWhile_dropWhile]
    have before : All P (t.takeWhile fun entry => !precedes name entry.1) := by
      intro entry member
      exact all entry (List.takeWhile_subset _ member)
    have after : All P (t.dropWhile fun entry => !precedes name entry.1) := by
      intro entry member
      exact all entry (List.dropWhile_subset _ member)
    exact before.append ((All.single holds).append after)

theorem All.arrange (all : All P t) : All P (Table.arrange t) := by
  unfold Table.arrange
  suffices general : ∀ found : Table α, All P found →
      All P (t.foldl (fun t entry => t.place entry.1 entry.2) found) from general [] All.nil
  induction t with
  | nil => exact fun found known => known
  | cons entry rest ih =>
      obtain ⟨here, further⟩ := List.forall_mem_cons.mp all
      exact fun found known => ih further _ (known.place here)

theorem mem_of_get? (found : t.get? name = some value) : (name, value) ∈ t := by
  induction t with
  | nil => cases found
  | cons entry rest ih =>
      rw [Table.get?] at found
      split at found
      · rename_i same
        cases found
        exact same ▸ List.mem_cons_self
      · exact List.mem_cons_of_mem entry (ih found)

/-! ### Values under a name -/

variable {key : String}

theorem get?_map {β : Type} (t : Table α) (f : α → β) :
    Table.get? (t.map fun (name, value) => (name, f value)) key = (t.get? key).map f := by
  induction t with
  | nil => rfl
  | cons entry rest ih =>
      obtain ⟨first, value⟩ := entry
      rw [List.map_cons, get?, get?, ih]
      split <;> rfl

theorem get?_put (t : Table α) (name key : String) (value : α) :
    (t.put name value).get? key = if name = key then some value else t.get? key := by
  induction t with
  | nil => simp [put, get?]
  | cons entry rest ih =>
      obtain ⟨first, old⟩ := entry
      simp only [put]
      by_cases here : first = name
      · subst here
        simp only [if_true, get?]
        split <;> rfl
      · by_cases other : first = key
        · subst other
          simp [here, Ne.symm here, get?]
        · simp only [here, if_false, get?, other, ih]

theorem get?_append (t other : Table α) :
    Table.get? (t ++ other) key = (t.get? key).or (other.get? key) := by
  induction t with
  | nil => rfl
  | cons entry rest ih =>
      obtain ⟨first, value⟩ := entry
      rw [List.cons_append, get?, get?, ih]
      split <;> rfl

/-- A placed entry is found, and hides nothing else. -/
theorem get?_place (t : Table α) (name key : String) (value : α) :
    (t.place name value).get? key = if name = key then some value else t.get? key := by
  unfold place
  split
  · exact get?_put t name key value
  · rename_i missing
    have absent : t.get? name = none := by simpa [has] using missing
    have whole : t.get? key = (Table.get? (t.takeWhile fun entry => !precedes name entry.1) key).or
        (Table.get? (t.dropWhile fun entry => !precedes name entry.1) key) := by
      rw [← get?_append, List.takeWhile_append_dropWhile]
    rw [List.span_eq_takeWhile_dropWhile]
    dsimp only
    rw [get?_append, get?]
    by_cases here : name = key
    · subst here
      rw [absent, eq_comm, Option.or_eq_none_iff] at whole
      simp [whole.1]
    · rw [if_neg here, if_neg here, whole]

theorem get?_eq_none_of_not_mem (absent : key ∉ t.names) : t.get? key = none := by
  cases found : t.get? key with
  | none => rfl
  | some value => exact absurd (mem_names_of_get? found) absent

theorem has_iff : t.has key = true ↔ key ∈ t.names := by
  constructor
  · intro known
    obtain ⟨value, found⟩ := Option.isSome_iff_exists.mp known
    exact mem_names_of_get? found
  · intro member
    induction t with
    | nil => cases member
    | cons entry rest ih =>
      obtain ⟨first, old⟩ := entry
      unfold has get?
      split
      · rfl
      · rename_i other
        rcases List.mem_cons.mp member with rfl | later
        · exact absurd rfl other
        · exact ih later

/-- Entries with different names are found after they have been arranged. -/
theorem get?_arrange {entries : Table α} (distinct : entries.names.Nodup) :
    (arrange entries).get? key = entries.get? key := by
  unfold arrange
  suffices general : ∀ found : Table α,
      (entries.foldl (fun t entry => t.place entry.1 entry.2) found).get? key =
        (entries.get? key).or (found.get? key) by
    simpa [get?] using general []
  induction entries with
  | nil => exact fun found => rfl
  | cons entry rest ih =>
      obtain ⟨name, value⟩ := entry
      obtain ⟨fresh, further⟩ := List.nodup_cons.mp distinct
      intro found
      rw [List.foldl_cons, ih further, get?_place, get?]
      by_cases here : name = key
      · subst here
        simp [get?_eq_none_of_not_mem fresh]
      · simp [here]

theorem get?_of_mem (distinct : t.names.Nodup) (member : (name, value) ∈ t) :
    t.get? name = some value := by
  induction t with
  | nil => cases member
  | cons entry rest ih =>
      obtain ⟨first, old⟩ := entry
      obtain ⟨fresh, further⟩ := List.nodup_cons.mp distinct
      rw [get?]
      rcases List.mem_cons.mp member with same | later
      · cases same
        exact if_pos rfl
      · have other : first ≠ name := by
          rintro rfl
          have listed : first ∈ Table.names rest := List.mem_map_of_mem later
          exact fresh listed
        rw [if_neg other]
        exact ih further later

/-- The order of entries with different names does not matter. -/
theorem get?_perm {other : Table α} (distinct : t.names.Nodup) (perm : t.Perm other) :
    t.get? key = other.get? key := by
  have others : other.names.Nodup := (perm.map Prod.fst).nodup_iff.mp distinct
  cases found : other.get? key with
  | some value => exact get?_of_mem distinct (perm.mem_iff.mpr (mem_of_get? found))
  | none =>
      cases here : t.get? key with
      | none => rfl
      | some value =>
          have there := get?_of_mem others (perm.mem_iff.mp (mem_of_get? here))
          rw [there] at found
          cases found

/-- Tables in which the same is found under every name differ in the order of entries only. -/
theorem perm_of_get? {other : Table α} (distinct : t.names.Nodup) (others : other.names.Nodup)
    (same : ∀ key, t.get? key = other.get? key) : t.Perm other := by
  refine (List.perm_ext_iff_of_nodup (distinct.of_map _) (others.of_map _)).mpr ?_
  rintro ⟨name, value⟩
  constructor
  · exact fun member => mem_of_get? (same name ▸ get?_of_mem distinct member)
  · exact fun member => mem_of_get? ((same name).symm ▸ get?_of_mem others member)

/-! ### The order of a document's object -/

/-- Names do not repeat, and none stands behind a name it precedes. -/
structure Arranged (t : Table α) : Prop where
  distinct : t.names.Nodup
  ordered : t.Pairwise fun entry later => precedes later.1 entry.1 = false

/-- What a name precedes, it also precedes behind whatever the other does not. -/
theorem precedes_of_not {name first later : String} (before : precedes name first = true)
    (order : precedes later first = false) : precedes name later = true := by
  unfold precedes at before order ⊢
  cases own : index? name with
  | none => simp [own] at before
  | some i =>
    cases other : index? later with
    | none => rfl
    | some j =>
      cases bound : index? first with
      | none => simp [other, bound] at order
      | some k =>
        simp only [own, other, bound, decide_eq_true_eq, decide_eq_false_iff_not] at before order ⊢
        omega

theorem precedes_asymm {name other : String} (before : precedes name other = true) :
    precedes other name = false := by
  unfold precedes at before ⊢
  cases own : index? name with
  | none => simp [own] at before
  | some i =>
    cases there : index? other with
    | none => rfl
    | some j =>
      simp only [own, there, decide_eq_true_eq, decide_eq_false_iff_not] at before ⊢
      omega

theorem place_new (absent : name ∉ t.names) (value : α) :
    t.place name value = (t.takeWhile fun entry => !precedes name entry.1) ++
      (name, value) :: t.dropWhile fun entry => !precedes name entry.1 := by
  have missing : t.has name = false := by
    rw [has, get?_eq_none_of_not_mem absent]
    rfl
  unfold place
  rw [missing, List.span_eq_takeWhile_dropWhile]
  rfl

theorem perm_place (absent : name ∉ t.names) (value : α) :
    (t.place name value).Perm ((name, value) :: t) := by
  rw [place_new absent]
  refine List.perm_middle.trans ?_
  rw [List.takeWhile_append_dropWhile]

theorem Arranged.place (arranged : t.Arranged) (absent : name ∉ t.names) (value : α) :
    (t.place name value).Arranged := by
  have names : (name :: t.names).Nodup := List.nodup_cons.mpr ⟨absent, arranged.distinct⟩
  refine ⟨((perm_place absent value).map Prod.fst).nodup_iff.mpr names, ?_⟩
  rw [place_new absent]
  have ordered := arranged.ordered
  have whole : (t.takeWhile fun entry => !precedes name entry.1) ++
      t.dropWhile (fun entry => !precedes name entry.1) = t := List.takeWhile_append_dropWhile
  have before : ∀ entry ∈ t.takeWhile fun entry => !precedes name entry.1,
      precedes name entry.1 = false := by
    intro entry member
    simpa using List.mem_takeWhile_imp member
  have behind : ∀ entry ∈ t.dropWhile fun entry => !precedes name entry.1,
      precedes entry.1 name = false := by
    intro entry member
    rw [← whole, List.pairwise_append] at ordered
    obtain ⟨-, right, -⟩ := ordered
    have head := List.head?_dropWhile_not (fun entry => !precedes name entry.1) t
    cases rest : t.dropWhile fun entry => !precedes name entry.1 with
    | nil => simp [rest] at member
    | cons first later =>
      rw [rest] at member head right
      have reached : precedes name first.1 = true := by simpa using head
      rcases List.mem_cons.mp member with rfl | behind
      · exact precedes_asymm reached
      · exact precedes_asymm (precedes_of_not reached ((List.pairwise_cons.mp right).1 entry behind))
  rw [← whole, List.pairwise_append] at ordered
  obtain ⟨left, right, across⟩ := ordered
  refine List.pairwise_append.mpr ⟨left, List.pairwise_cons.mpr ⟨behind, right⟩, ?_⟩
  intro entry inside later member
  rcases List.mem_cons.mp member with rfl | after
  · exact before entry inside
  · exact across entry inside later after

theorem arrange_concat (t : Table α) (entry : String × α) :
    arrange (t ++ [entry]) = (arrange t).place entry.1 entry.2 := by
  rw [arrange, List.foldl_append]
  rfl

theorem distinct_concat {entry : String × α} (distinct : Table.names (t ++ [entry]) |>.Nodup) :
    t.names.Nodup ∧ entry.1 ∉ t.names := by
  rw [names, List.map_append, List.nodup_append] at distinct
  obtain ⟨own, -, apart⟩ := distinct
  exact ⟨own, fun member => apart _ member _ (by simp) rfl⟩

/-- Entries with different names are reordered only. -/
theorem perm_arrange (distinct : t.names.Nodup) : (arrange t).Perm t ∧ (arrange t).Arranged := by
  induction t using List.reverseRecOn with
  | nil => exact ⟨.nil, ⟨List.nodup_nil, List.Pairwise.nil⟩⟩
  | append_singleton t entry ih =>
    obtain ⟨own, fresh⟩ := distinct_concat distinct
    obtain ⟨perm, arranged⟩ := ih own
    have absent : entry.1 ∉ (arrange t).names :=
      fun member => fresh ((perm.map Prod.fst).mem_iff.mp member)
    rw [arrange_concat]
    refine ⟨(perm_place absent entry.2).trans ?_, arranged.place absent entry.2⟩
    exact (List.Perm.cons entry perm).trans (List.perm_append_singleton entry t).symm

theorem names_put (known : t.has name = true) : (t.put name value).names = t.names := by
  induction t with
  | nil => cases known
  | cons entry rest ih =>
    obtain ⟨first, old⟩ := entry
    rw [put]
    split
    · rfl
    · rename_i other
      rw [has, get?, if_neg other] at known
      have later := ih known
      simp only [names, List.map_cons, List.cons.injEq, true_and] at later ⊢
      exact later

theorem put_append (absent : name ∉ t.names) (other : Table α) (value : α) :
    (t ++ other).put name value = t ++ other.put name value := by
  induction t with
  | nil => rfl
  | cons entry rest ih =>
    have apart : entry.1 ≠ name := fun same => absent (same ▸ List.mem_cons_self)
    rw [List.cons_append, put, if_neg apart, ih fun later => absent (List.mem_cons_of_mem _ later)]
    rfl

theorem put_new (absent : name ∉ t.names) : t.put name value = t ++ [(name, value)] := by
  have whole := put_append absent [] value
  rwa [List.append_nil] at whole

theorem put_subset (t : Table α) (name : String) (value : α) :
    t.put name value ⊆ (name, value) :: t := by
  induction t with
  | nil => exact fun _ member => member
  | cons entry rest ih =>
    obtain ⟨first, old⟩ := entry
    rw [put]
    split
    · rename_i same
      subst same
      exact List.cons_subset_cons _ (List.subset_cons_self _ _)
    · intro other member
      rcases List.mem_cons.mp member with rfl | later
      · simp
      · rcases List.mem_cons.mp (ih later) with rfl | inside
        · simp
        · simp [inside]

theorem nodup_put (distinct : t.names.Nodup) : (t.put name value).names.Nodup := by
  by_cases known : t.has name = true
  · rwa [names_put known]
  · have absent := mt has_iff.mpr known
    rw [put_new absent, names, List.map_append]
    exact (List.perm_append_comm.nodup_iff).mpr (List.nodup_cons.mpr ⟨absent, distinct⟩)

theorem has_put (t : Table α) (name : String) (value : α) :
    (t.put name value).has key = true ↔ name = key ∨ t.has key = true := by
  rw [has, get?_put]
  split <;> simp_all [has]

theorem put_ne_nil (t : Table α) (name : String) (value : α) : t.put name value ≠ [] := by
  cases t with
  | nil => exact List.cons_ne_nil _ _
  | cons entry rest =>
    rw [put]
    split <;> exact List.cons_ne_nil _ _

/-- Of two entries that are put under a name the later stays. -/
theorem put_put (t : Table α) (name : String) (old value : α) :
    (t.put name old).put name value = t.put name value := by
  induction t with
  | nil => simp [put]
  | cons entry rest ih =>
    simp only [put]
    split
    · rename_i same
      rw [put, if_pos same]
    · rename_i other
      rw [put, if_neg other, ih]

theorem nodup_putAll (distinct : t.names.Nodup) (entries : Table α) :
    (t.putAll entries).names.Nodup :=
  List.foldlRecOn (motive := fun t : Table α => t.names.Nodup) entries _ distinct
    fun _ distinct _ _ => nodup_put distinct

/-- Entries with different names are found after they have been put. -/
theorem get?_putAll {entries : Table α} (distinct : entries.names.Nodup) (t : Table α) :
    (t.putAll entries).get? key = (entries.get? key).or (t.get? key) := by
  unfold putAll
  induction entries generalizing t with
  | nil => rfl
  | cons entry rest ih =>
      obtain ⟨name, value⟩ := entry
      obtain ⟨fresh, further⟩ := List.nodup_cons.mp distinct
      rw [List.foldl_cons, ih further, get?_put, get?]
      by_cases here : name = key
      · subst here
        simp [get?_eq_none_of_not_mem fresh]
      · simp [here]

/-- The order of entries depends on their names only. -/
theorem Arranged.of_names {β : Type} {other : Table β} (arranged : t.Arranged)
    (same : other.names = t.names) : other.Arranged := by
  have ordered : t.names.Pairwise fun name later => precedes later name = false :=
    List.pairwise_map.mpr arranged.ordered
  rw [← same] at ordered
  exact ⟨same ▸ arranged.distinct, List.pairwise_map.mp ordered⟩

theorem arranged_place (arranged : t.Arranged) : (t.place name value).Arranged := by
  by_cases known : t.has name = true
  · unfold place
    rw [if_pos known]
    exact arranged.of_names (names_put known)
  · exact arranged.place (mt has_iff.mpr known) value

/-- Entries are arranged, also if names repeat. -/
theorem arranged_arrange (t : Table α) : (arrange t).Arranged := by
  induction t using List.reverseRecOn with
  | nil => exact ⟨List.nodup_nil, List.Pairwise.nil⟩
  | append_singleton t entry ih =>
    rw [arrange_concat]
    exact arranged_place ih

/-- Entries in the order of a document stay as they are. -/
theorem Arranged.arrange (arranged : t.Arranged) : arrange t = t := by
  induction t using List.reverseRecOn with
  | nil => rfl
  | append_singleton t entry ih =>
    obtain ⟨own, fresh⟩ := distinct_concat arranged.distinct
    obtain ⟨ordered, -, last⟩ := List.pairwise_append.mp arranged.ordered
    have all : ∀ x ∈ t, (!precedes entry.1 x.1) = true := by
      intro x member
      simpa using last x member entry (by simp)
    rw [arrange_concat, ih ⟨own, ordered⟩, place_new fresh, List.takeWhile_eq_self_iff.mpr all,
      List.dropWhile_eq_nil_iff.mpr all]

/-- Names that are no indices stand in the order in which they came. -/
theorem arranged_of_plain (distinct : t.names.Nodup) (plain : ∀ name ∈ t.names, index? name = none) :
    t.Arranged := by
  refine ⟨distinct, List.Pairwise.imp_of_mem ?_ (List.pairwise_of_forall fun _ _ => trivial)⟩
  intro entry later _ member _
  rw [precedes, plain later.1 (List.mem_map_of_mem member)]

/-! ### Values that change -/

section

variable {β : Type} (f : α → β)

theorem put_map (t : Table α) (name : String) (value : α) :
    Table.put (t.map fun (name, value) => (name, f value)) name (f value) =
      (t.put name value).map fun (name, value) => (name, f value) := by
  induction t with
  | nil => rfl
  | cons entry rest ih =>
    obtain ⟨first, old⟩ := entry
    rw [List.map_cons, put, put, ih]
    split <;> rfl

theorem place_map (t : Table α) (name : String) (value : α) :
    Table.place (t.map fun (name, value) => (name, f value)) name (f value) =
      (t.place name value).map fun (name, value) => (name, f value) := by
  have known : Table.has (t.map fun (name, value) => (name, f value)) name = t.has name := by
    rw [has, has, get?_map, Option.isSome_map]
  unfold place
  rw [known]
  split
  · exact put_map f t name value
  · simp only [List.span_eq_takeWhile_dropWhile, List.takeWhile_map, List.dropWhile_map,
      List.map_append, List.map_cons]
    rfl

/-- Entries are arranged by their names alone. -/
theorem arrange_map (t : Table α) : arrange (t.map fun (name, value) => (name, f value)) =
    (arrange t).map fun (name, value) => (name, f value) := by
  induction t using List.reverseRecOn with
  | nil => rfl
  | append_singleton t entry ih =>
    rw [List.map_append, List.map_singleton, arrange_concat, arrange_concat, ih]
    exact place_map f (arrange t) entry.1 entry.2

end

end Table

end RoutePolicy
