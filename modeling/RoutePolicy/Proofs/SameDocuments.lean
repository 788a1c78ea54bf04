import RoutePolicy.Proofs.LegiblePolicies
import RoutePolicy.Proofs.QueryKeys
import RoutePolicy.Reachability.Cache

/-!
What has one canonical text. Values have the same canonical text exactly if they are the same up to
the order of members, at any depth. So one key stands for one condition as it is written, and one
stored answer for one query.
-/

set_option autoImplicit false

namespace RoutePolicy

namespace Json

/-! ### The order of members -/

/-- Values that differ in the order of members at most, at any depth. -/
inductive Reordered : Json → Json → Prop
  | refl (j : Json) : Reordered j j
  | trans {a b c : Json} (first : Reordered a b) (second : Reordered b c) : Reordered a c
  /-- The members of an object in another order. -/
  | order {left right : Table Json} (perm : left.Perm right) : Reordered (obj left) (obj right)
  /-- An item of a list that is reordered within. -/
  | item {before after : List Json} {a b : Json} (inside : Reordered a b) :
      Reordered (arr (before ++ a :: after)) (arr (before ++ b :: after))
  /-- A member of an object that is reordered within. -/
  | member {before after : Table Json} {key : String} {a b : Json} (inside : Reordered a b) :
      Reordered (obj (before ++ (key, a) :: after)) (obj (before ++ (key, b) :: after))

mutual

/-- No object in a value holds a key twice. -/
def Distinct : Json → Prop
  | arr items => DistinctItems items
  | obj members => (Table.names members).Nodup ∧ DistinctMembers members
  | _ => True

def DistinctItems : List Json → Prop
  | [] => True
  | item :: rest => item.Distinct ∧ DistinctItems rest

def DistinctMembers : List (String × Json) → Prop
  | [] => True
  | (_, value) :: rest => value.Distinct ∧ DistinctMembers rest

end

/-- A value that a document can stand for, in whatever order its members are held: keys are distinct
and numbers are finite values of binary64. -/
structure Definite (j : Json) : Prop where
  numbers : j.NumbersIn Number.IsDouble
  keys : j.Distinct

theorem distinctItems_iff {items : List Json} :
    DistinctItems items ↔ ∀ item ∈ items, item.Distinct := by
  induction items with
  | nil => simp [DistinctItems]
  | cons item rest ih => rw [DistinctItems, ih, List.forall_mem_cons]

theorem distinctMembers_iff {members : Table Json} :
    DistinctMembers members ↔ members.All Distinct := by
  induction members with
  | nil => simp [DistinctMembers, Table.All]
  | cons entry rest ih => rw [DistinctMembers, ih, Table.All, Table.All, List.forall_mem_cons]

theorem distinct_arr {items : List Json} :
    (arr items).Distinct ↔ ∀ item ∈ items, item.Distinct := distinctItems_iff

theorem distinct_obj {members : Table Json} :
    (obj members).Distinct ↔ members.names.Nodup ∧ members.All Distinct :=
  and_congr_right fun _ => distinctMembers_iff

variable {a b : Json}

namespace Reordered

theorem symm (reordered : a.Reordered b) : b.Reordered a := by
  induction reordered with
  | refl j => exact .refl j
  | trans _ _ first second => exact second.trans first
  | order perm => exact .order perm.symm
  | item _ ih => exact .item ih
  | member _ ih => exact .member ih

theorem distinct (reordered : a.Reordered b) (distinct : a.Distinct) : b.Distinct := by
  induction reordered with
  | refl j => exact distinct
  | trans _ _ first second => exact second (first distinct)
  | order perm =>
      obtain ⟨names, values⟩ := distinct_obj.mp distinct
      refine distinct_obj.mpr ⟨(perm.map Prod.fst).nodup_iff.mp names, fun entry member => ?_⟩
      exact values entry (perm.mem_iff.mpr member)
  | item _ ih =>
      rw [distinct_arr, List.forall_mem_append, List.forall_mem_cons] at distinct ⊢
      obtain ⟨before, own, after⟩ := distinct
      exact ⟨before, ih own, after⟩
  | member _ ih =>
      rw [distinct_obj, Table.All, List.forall_mem_append, List.forall_mem_cons] at distinct ⊢
      obtain ⟨names, before, own, after⟩ := distinct
      refine ⟨?_, before, ih own, after⟩
      simpa [Table.names] using names

/-- The order of members is lost when members are sorted. -/
theorem sorted_eq (reordered : a.Reordered b) (distinct : a.Distinct) : a.sorted = b.sorted := by
  induction reordered with
  | refl j => rfl
  | trans first _ ih ih' => exact (ih distinct).trans (ih' (first.distinct distinct))
  | order perm => exact sorted_perm (distinct_obj.mp distinct).1 perm
  | @item before after a b _ ih =>
      have own := distinct_arr.mp distinct a (by simp)
      simp only [sorted, sortedItems_eq, List.map_append, List.map_cons, ih own]
  | @member before after key a b _ ih =>
      have own := (distinct_obj.mp distinct).2 (key, a) (by simp)
      simp only [sorted, sortedMembers_eq, List.map_append, List.map_cons, ih own]

/-- Every item of a list may be reordered. -/
theorem items (f : Json → Json) (before : List Json) {items : List Json}
    (each : ∀ item ∈ items, item.Reordered (f item)) :
    (arr (before ++ items)).Reordered (arr (before ++ items.map f)) := by
  induction items generalizing before with
  | nil => exact .refl _
  | cons item rest ih =>
      obtain ⟨here, later⟩ := List.forall_mem_cons.mp each
      refine .trans (.item here) ?_
      have others := ih (before ++ [f item]) later
      simpa only [List.append_assoc, List.singleton_append, List.map_cons] using others

/-- Every member of an object may be reordered. -/
theorem members (f : Json → Json) (before : Table Json) {members : Table Json}
    (each : members.All fun value => value.Reordered (f value)) :
    (obj (before ++ members)).Reordered
      (obj (before ++ members.map fun entry => (entry.1, f entry.2))) := by
  induction members generalizing before with
  | nil => exact .refl _
  | cons entry rest ih =>
      obtain ⟨here, later⟩ := List.forall_mem_cons.mp each
      refine .trans (.member here) ?_
      have others := ih (before ++ [(entry.1, f entry.2)]) later
      simpa only [List.append_assoc, List.singleton_append, List.map_cons] using others

end Reordered

/-- To sort members is to reorder them. -/
theorem reordered_sorted (j : Json) (distinct : j.Distinct) : j.Reordered j.sorted := by
  match j with
  | arr items =>
      rw [sorted, sortedItems_eq]
      refine Reordered.items sorted [] fun item member => ?_
      exact reordered_sorted item (distinct_arr.mp distinct item member)
  | obj members =>
      obtain ⟨names, values⟩ := distinct_obj.mp distinct
      have inside : (obj members).Reordered (obj (sortedMembers members)) := by
        rw [sortedMembers_eq]
        refine Reordered.members sorted [] fun entry member => ?_
        exact reordered_sorted entry.2 (values entry member)
      have perm : (sortEntries (sortedMembers members)).Perm (sortedMembers members) :=
        List.mergeSort_perm _ _
      have keys : (Table.names (sortedMembers members)).Nodup := by
        rwa [names_sortedMembers]
      have sortedNames : (Table.names (sortEntries (sortedMembers members))).Nodup :=
        (perm.map Prod.fst).nodup_iff.mpr keys
      have placed := (Table.perm_arrange sortedNames).1
      exact inside.trans (.order (perm.symm.trans placed.symm))
  | null | bool _ | num _ | str _ => exact .refl _
termination_by sizeOf j
decreasing_by
  · exact sizeOf_mem member
  · exact sizeOf_member member

/-- Values are the same up to the order of members if they are equal once sorted. -/
theorem sorted_eq_iff (left : a.Distinct) (right : b.Distinct) :
    a.sorted = b.sorted ↔ a.Reordered b := by
  constructor
  · intro same
    exact (reordered_sorted a left).trans (same ▸ (reordered_sorted b right).symm)
  · exact fun reordered => reordered.sorted_eq left

theorem canonical_eq_iff (left : a.Definite) (right : b.Definite) :
    a.canonical = b.canonical ↔ a.Reordered b := by
  rw [← sorted_eq_iff left.keys right.keys]
  constructor
  · exact sorted_eq_of_canonical Number.legible_double left.numbers right.numbers
  · exact congrArg compact

theorem inherited_definite : Inherited Definite where
  null := ⟨nofun, trivial⟩
  bool _ := ⟨nofun, trivial⟩
  str _ := ⟨nofun, trivial⟩
  items each := ⟨numbersIn_arr.mpr fun item member => (each item member).numbers,
    distinct_arr.mpr fun item member => (each item member).keys⟩
  members plain all := ⟨numbersIn_obj.mpr fun entry member => (all entry member).numbers,
    distinct_obj.mpr ⟨plain.1, fun entry member => (all entry member).keys⟩⟩

end Json

/-! ### Conditions -/

/-- Conditions have one key exactly if what they are written as is the same up to the order of
members. -/
theorem Variant.conditionKey_eq_iff {c d : Expr} (left : c.Each (Expr.Writes Json.Definite))
    (right : d.Each (Expr.Writes Json.Definite)) : conditionKey c = conditionKey d ↔
      (Encoding.writeExpr c).Reordered (Encoding.writeExpr d) :=
  Json.canonical_eq_iff (Json.inherited_definite.writeExpr left)
    (Json.inherited_definite.writeExpr right)

/-! ### Queries -/

namespace Query

/-- Queries that differ in the order of their routes' members at most. -/
structure Same (q other : Query) : Prop where
  destination : q.destination = other.destination
  source : q.source = other.source
  trace : q.trace = other.trace
  route : Option.Rel (fun values others => (Json.obj (routeMembers values q.remarks)).Reordered
    (.obj (routeMembers others other.remarks))) q.route other.route

/-- The route of a query is a member that holds no key twice either. -/
theorem distinct_route {q : Query} (distinct : (Json.obj q.members).Distinct) {values : List Given}
    (given : q.route = some values) : (Json.obj (routeMembers values q.remarks)).Distinct := by
  have found : q.members.get? "route" = some (.obj (routeMembers values q.remarks)) := by
    rw [get?_route, given, Option.map_some]
  exact (Json.distinct_obj.mp distinct).2.get? found

theorem reordered_iff {q other : Query} (left : q.toJson.Distinct) (right : other.toJson.Distinct) :
    q.toJson.Reordered other.toJson ↔ q.Same other := by
  rw [toJson_eq] at left right
  rw [toJson_eq, toJson_eq]
  constructor
  · intro reordered
    have member := Json.member_eq q.nodup_members other.nodup_members (reordered.sorted_eq left)
    refine ⟨?_, ?_, ?_, ?_⟩
    · simpa [get?_destination, Json.sorted] using member "destination"
    · have sources := member "source"
      rw [get?_source, get?_source, Option.map_map, Option.map_map] at sources
      exact Option.map_injective (fun _ _ same => Json.str.inj same) sources
    · have traces := member "trace"
      rw [get?_trace, get?_trace, Option.map_map, Option.map_map] at traces
      exact Option.map_injective (fun _ _ same => Json.bool.inj same) traces
    · have routes := member "route"
      rw [get?_route, get?_route] at routes
      cases own : q.route with
      | none =>
          rw [own, Option.map_none, Option.map_none, eq_comm, Option.map_eq_none_iff,
            Option.map_eq_none_iff] at routes
          rw [routes]
          exact .none
      | some values =>
          cases given : other.route with
          | none =>
              rw [own, given] at routes
              cases routes
          | some others =>
              rw [own, given] at routes
              refine .some ((Json.sorted_eq_iff (distinct_route left own)
                (distinct_route right given)).mp (Option.some.inj routes))
  · obtain ⟨_, _, _, _, _⟩ := q
    obtain ⟨_, _, _, _, _⟩ := other
    rintro ⟨rfl, rfl, rfl, route⟩
    cases route with
    | none => exact .refl _
    | some reordered =>
        simp only [members, Option.toList_some, List.map_cons, List.map_nil, List.append_assoc,
          List.singleton_append]
        rw [← List.append_assoc, ← List.append_assoc]
        exact .member reordered

end Query

/-! ### Stored answers -/

/-- An answer that is stored for a query about a topology. -/
structure Stored where
  fingerprint : String
  query : Query
  answer : Answer

namespace Cache

variable {c : Cache} {fingerprint : String} {asked : Query} {stored : List Stored}

/-- Stores answers one after another. -/
def setAll (c : Cache) (stored : List Stored) : Cache :=
  stored.foldl (fun c x => c.set x.fingerprint x.query x.answer) c

/-- An answer is found by the fingerprint and the canonical text. -/
def Finds (fingerprint : String) (asked : Query) (x : Stored) : Bool :=
  x.fingerprint = fingerprint ∧ x.query.canonical = asked.canonical

/-- What is stored last comes first. -/
theorem get?_set (x : Stored) : (c.set x.fingerprint x.query x.answer).get? fingerprint asked =
    if Finds fingerprint asked x then some x.answer else c.get? fingerprint asked := by
  have keys : Finds fingerprint asked x = true ↔
      (⟨x.fingerprint, x.query.canonical⟩ : CacheKey) = ⟨fingerprint, asked.canonical⟩ := by
    simp [Finds]
  rw [get?, get?, set, List.find?_append]
  split
  · rename_i found
    rw [keys.mp found]
    have none : (c.entries.filter (·.1 ≠ ⟨fingerprint, asked.canonical⟩)).find?
        (·.1 = ⟨fingerprint, asked.canonical⟩) = none := by
      refine List.find?_eq_none.mpr fun entry member => ?_
      simpa using (List.mem_filter.mp member).2
    rw [none]
    simp
  · rename_i other
    rw [keys] at other
    have kept : (c.entries.filter (·.1 ≠ ⟨x.fingerprint, x.query.canonical⟩)).find?
        (·.1 = ⟨fingerprint, asked.canonical⟩) =
          c.entries.find? (·.1 = ⟨fingerprint, asked.canonical⟩) := by
      rw [List.find?_filter]
      congr 1
      funext entry
      by_cases here : entry.1 = ⟨fingerprint, asked.canonical⟩ <;> simp [here, Ne.symm other]
    rw [kept]
    simp [other]

/-- Of several answers the one that was stored last is found. -/
theorem get?_setAll : (c.setAll stored).get? fingerprint asked =
    ((stored.reverse.find? (Finds fingerprint asked)).map Stored.answer).or
      (c.get? fingerprint asked) := by
  induction stored generalizing c with
  | nil => rfl
  | cons x rest ih =>
      rw [setAll, List.foldl_cons, ← setAll, ih, get?_set, List.reverse_cons, List.find?_append,
        Option.map_or, Option.or_assoc]
      congr 1
      cases found : Finds fingerprint asked x <;> simp [found]

end Cache

namespace Sample

open Json

/-- A construct that is kept whole, and the same one with its members in another order. -/
def tagMatch : Json := .obj [("class", .str "MatchTag"), ("tags", .arr [.int 7, .null])]

def matchedTag : Json := .obj [("tags", .arr [.int 7, .null]), ("class", .str "MatchTag")]

theorem definite_tags : (Json.arr [.int 7, .null]).Definite :=
  inherited_definite.items (List.forall_mem_cons.mpr
    ⟨⟨(held_int (Number.ofInt_safe (by decide))).numbers, trivial⟩,
      List.forall_mem_singleton.mpr inherited_definite.null⟩)

theorem definite_tagMatch : tagMatch.Definite :=
  inherited_definite.members (by decide) (List.forall_mem_cons.mpr
    ⟨inherited_definite.str _, List.forall_mem_singleton.mpr definite_tags⟩)

theorem definite_matchedTag : matchedTag.Definite :=
  inherited_definite.members (by decide) (List.forall_mem_cons.mpr
    ⟨definite_tags, List.forall_mem_singleton.mpr (inherited_definite.str _)⟩)

theorem reordered_tags : tagMatch.Reordered matchedTag := .order (.swap _ _ _)

theorem writes_tagMatch {raw : Json} (definite : raw.Definite) :
    (Expr.unsupported "MatchTag" raw).Each (Expr.Writes Definite) := by
  refine List.forall_mem_singleton.mpr ⟨nofun, ?_⟩
  rintro tag other ⟨⟩
  exact definite

/-- A query and the same one with the attributes of its route in another order. -/
def asking (route : List Given) : Query := ⟨"10.0.0.0/8", none, some route, none, []⟩

theorem definite_asking {route : List Given}
    (definite : (Json.obj (Query.routeMembers route [])).Definite) :
    (asking route).toJson.Definite :=
  inherited_definite.object ["kind", "destination", "route"] (by decide) rfl
    (List.forall_mem_cons.mpr ⟨inherited_definite.str _,
      List.forall_mem_cons.mpr ⟨inherited_definite.str _, List.forall_mem_singleton.mpr definite⟩⟩)

def metricFirst : List Given := [.metric (.ofInt 7), .nextHop "10.0.0.1"]

def metricLast : List Given := [.nextHop "10.0.0.1", .metric (.ofInt 7)]

theorem definite_metricFirst : (Json.obj (Query.routeMembers metricFirst [])).Definite :=
  inherited_definite.members (by decide) (List.forall_mem_cons.mpr
    ⟨⟨(held_int (Number.ofInt_safe (by decide))).numbers, trivial⟩,
      List.forall_mem_singleton.mpr (inherited_definite.str _)⟩)

theorem definite_metricLast : (Json.obj (Query.routeMembers metricLast [])).Definite :=
  inherited_definite.members (by decide) (List.forall_mem_cons.mpr ⟨inherited_definite.str _,
    List.forall_mem_singleton.mpr ⟨(held_int (Number.ofInt_safe (by decide))).numbers, trivial⟩⟩)

def stored : Stored :=
  ⟨"t", asking metricFirst, asking metricFirst, true, .bool true, [], 1, none⟩

end Sample

end RoutePolicy
