import RoutePolicy.Command.QueryFile
import RoutePolicy.Proofs.QueryKeys

/-!
The queries of a file are well formed: each value of a route is given as the document has it, and a
document has no member twice.
-/

set_option autoImplicit false

namespace RoutePolicy

namespace Command.QueryFile

variable {entry field : String} {j : Json}

theorem readText_ok {text : String} (read : readText field j = .ok text) : j = .str text := by
  cases j with
  | str own =>
      cases read
      rfl
  | null | bool _ | num _ | arr _ | obj _ => cases read

theorem readNumber_ok {n : Number} (read : readNumber field j = .ok n) : j = .num n := by
  cases j with
  | num own =>
      cases read
      rfl
  | null | bool _ | str _ | arr _ | obj _ => cases read

/-- Items that are read are what writing the values makes. -/
theorem map_of_mapM {α : Type} {item : Json → Option α} {write : α → Json}
    (exact : ∀ j value, item j = some value → j = write value) {items : List Json}
    {values : List α} (read : items.mapM item = some values) : items = values.map write := by
  induction items generalizing values with
  | nil =>
      cases read
      rfl
  | cons first rest ih =>
      rw [List.mapM_cons] at read
      obtain ⟨value, here, read⟩ := Option.bind_eq_some_iff.mp read
      obtain ⟨others, later, same⟩ := Option.bind_eq_some_iff.mp read
      cases same
      rw [List.map_cons, ← exact first value here, ← ih later]

theorem arr_of_listOf? {α : Type} {item : Json → Option α} {write : α → Json}
    (exact : ∀ j value, item j = some value → j = write value) {values : List α}
    (read : j.listOf? item = some values) : j = .arr (values.map write) := by
  obtain ⟨items, own, read⟩ := Option.bind_eq_some_iff.mp read
  cases j <;> cases own
  exact congrArg Json.arr (map_of_mapM exact read)

theorem readTexts_ok {texts : List String} (read : readTexts field j = .ok texts) :
    j = .strs texts := by
  unfold readTexts at read
  split at read
  · rename_i found
    cases read
    refine arr_of_listOf? ?_ found
    intro item text own
    cases item <;> cases own
    rfl
  · cases read

theorem readNumbers_ok {ns : List Number} (read : readNumbers field j = .ok ns) :
    j = .arr (ns.map .num) := by
  unfold readNumbers at read
  split at read
  · rename_i found
    cases read
    refine arr_of_listOf? ?_ found
    intro item n own
    cases item <;> cases own
    rfl
  · cases read

/-- A value is given as the document has it. -/
theorem readGiven_ok {name : Attribute} {given : Given}
    (read : readGiven field name j = .ok given) : given.name = name ∧ given.toJson = j := by
  cases name
  all_goals
    obtain ⟨value, own, rfl⟩ := Outcome.map_ok.mp read
    refine ⟨rfl, ?_⟩
  case network | nextHop => exact (readText_ok own).symm
  case communities => exact (readTexts_ok own).symm
  case asPath => exact (readNumbers_ok own).symm
  all_goals exact (readNumber_ok own).symm

theorem readMembers_ok {members : Table Json} {values : List Given}
    (read : readMembers entry members = .ok values) : Query.routeMembers values [] = members := by
  induction members generalizing values with
  | nil =>
      cases read
      rfl
  | cons first rest ih =>
      obtain ⟨key, value⟩ := first
      rw [readMembers] at read
      split at read
      · cases read
      · rename_i name known
        obtain ⟨given, own, read⟩ := Outcome.bind_ok.mp read
        obtain ⟨others, later, same⟩ := Outcome.bind_ok.mp read
        cases same
        obtain ⟨rfl, rfl⟩ := readGiven_ok own
        have tail := ih later
        have head := Encoding.attribute_ofName?.mp known
        simp only [Query.routeMembers, List.append_nil] at tail ⊢
        rw [List.map_cons, tail, head]

theorem members?_eq_some {members : Table Json} (found : j.members? = some members) :
    j = .obj members := by
  unfold Json.members? at found
  split at found
  · split at found
    · cases found
      rfl
    · cases found
  · cases found

theorem readRoute_ok {values : List Given} (read : readRoute entry j = .ok values) :
    j = .obj (Query.routeMembers values []) := by
  unfold readRoute at read
  split at read
  · rename_i members object
    rw [readMembers_ok read]
    exact members?_eq_some object
  · cases read

/-- A query is well formed if its route was read. -/
theorem wellFormed_of_route {q : Query} (bare : q.remarks = [])
    (routes : ∀ values ∈ q.route, (Json.obj (Query.routeMembers values [])).Parsed) :
    q.WellFormed := by
  refine ⟨Query.doubles_toJson ?_, ?_, ?_, ?_⟩
  · rw [bare]
    exact fun values known => (routes values known).numbers
  · cases route : q.route with
    | none => exact List.nodup_nil
    | some values =>
        have distinct := (Json.held_obj.mp (routes values route)).1.distinct
        rw [Query.routeMembers_names] at distinct
        exact List.Nodup.of_map Attribute.name (List.nodup_append.mp distinct).1
  · rw [bare]
    exact List.nodup_nil
  · rw [bare]
    intro key member
    cases member

/-- The query of an entry of a file. -/
theorem readEntry_wellFormed {q : Query} (parsed : j.Parsed) (read : readEntry entry j = .ok q) :
    q.WellFormed := by
  unfold readEntry at read
  split at read
  · cases read
  rename_i members object
  obtain rfl := members?_eq_some object
  split at read
  · obtain ⟨source, -, read⟩ := Outcome.bind_ok.mp read
    obtain ⟨trace, -, read⟩ := Outcome.bind_ok.mp read
    dsimp only at read
    split at read
    · cases read
      apply wellFormed_of_route rfl
      intro values impossible
      cases impossible
    · rename_i found
      obtain ⟨route, given, same⟩ := Outcome.bind_ok.mp read
      obtain ⟨values, own, rfl⟩ := Outcome.map_ok.mp given
      cases same
      apply wellFormed_of_route rfl
      intro given same
      cases same
      rw [← readRoute_ok own]
      exact parsed.get? found
  · cases read

theorem readEntries_wellFormed {i : Nat} {items : List Json} {queries : List Query}
    (parsed : ∀ item ∈ items, item.Parsed) (read : readEntries i items = .ok queries) :
    ∀ q ∈ queries, q.WellFormed := by
  induction items generalizing i queries with
  | nil =>
      cases read
      intro q member
      cases member
  | cons first rest ih =>
      obtain ⟨here, later⟩ := List.forall_mem_cons.mp parsed
      obtain ⟨q, own, read⟩ := Outcome.bind_ok.mp read
      obtain ⟨others, more, same⟩ := Outcome.bind_ok.mp read
      cases same
      exact List.forall_mem_cons.mpr ⟨readEntry_wellFormed here own, ih later more⟩

/-- The queries of a file are well formed. -/
theorem read_wellFormed {path : String} {queries : List Query} (parsed : j.Parsed)
    (done : read path j = .ok queries) : ∀ q ∈ queries, q.WellFormed := by
  unfold read at done
  split at done
  · rename_i entries found
    cases j with
    | obj members => exact readEntries_wellFormed (Json.held_arr.mp (parsed.get? found)) done
    | null | bool _ | num _ | str _ | arr _ => cases found
  · cases done

end Command.QueryFile

end RoutePolicy
