import RoutePolicy.Proofs.JsonReading

/-!
What the reader of texts makes: values in the order of documents, the finite numbers of which are
values of binary64.
-/

set_option autoImplicit false

namespace RoutePolicy

theorem Number.isDouble_round {q : Rat} (finite : (round q).isFinite = true) :
    (round q).IsDouble := by
  cases rounded : round q with
  | finite x => exact ⟨x, rfl, round_of_round rounded⟩
  | infinite _ | undefined => simp [rounded, isFinite] at finite

theorem Number.isDouble_ofScientific {negative : Bool} {coefficient : Nat} {exponent : Int}
    (finite : (ofScientific negative coefficient exponent).isFinite = true) :
    (ofScientific negative coefficient exponent).IsDouble := by
  have zero : IsDouble (.finite 0) := ⟨0, rfl, rfl⟩
  revert finite
  unfold ofScientific
  dsimp only
  split
  · exact fun _ => zero
  · split
    · exact nofun
    · split
      · exact fun _ => zero
      · exact isDouble_round

namespace Json

/-- A value as reading a text makes it: whichever of its numbers are finite are values of binary64. -/
abbrev Parsed (j : Json) : Prop := j.HeldIn fun n => n.isFinite = true → n.IsDouble

mutual

theorem isFinite_iff (j : Json) : j.isFinite = true ↔ j.NumbersIn fun n => n.isFinite = true := by
  cases j with
  | num n => simp [isFinite, NumbersIn, numbers]
  | arr items => exact allFinite_iff items
  | obj members => exact membersFinite_iff members
  | null | bool _ | str _ => simp [isFinite, NumbersIn, numbers]

theorem allFinite_iff (items : List Json) :
    allFinite items = true ↔ ∀ n ∈ itemNumbers items, n.isFinite = true := by
  cases items with
  | nil => simp [allFinite, itemNumbers]
  | cons item rest =>
    rw [allFinite, itemNumbers, List.forall_mem_append, Bool.and_eq_true, isFinite_iff item,
      allFinite_iff rest]
    rfl

theorem membersFinite_iff (members : List (String × Json)) :
    membersFinite members = true ↔ ∀ n ∈ memberNumbers members, n.isFinite = true := by
  match members with
  | [] => simp [membersFinite, memberNumbers]
  | (key, value) :: rest =>
    rw [membersFinite, memberNumbers, List.forall_mem_append, Bool.and_eq_true, isFinite_iff value,
      membersFinite_iff rest]
    rfl

end

/-- A finite value that was read is a value of documents. -/
theorem HeldIn.held {j : Json} (parsed : j.Parsed) (finite : j.isFinite = true) : j.Held := by
  refine ⟨fun n member => ?_, parsed.ordered⟩
  exact parsed.numbers n member ((isFinite_iff j).mp finite n member)

theorem HeldIn.isFinite {j : Json} (held : j.Held) : j.isFinite = true := by
  rw [isFinite_iff]
  intro n member
  obtain ⟨q, rfl, -⟩ := held.numbers n member
  rfl

theorem HeldIn.get? {S : Number → Prop} {members : Table Json} (held : (obj members).HeldIn S)
    {key : String} {value : Json} (found : members.get? key = some value) : value.HeldIn S :=
  (held_obj.mp held).2.get? found

/-! ### Reading -/

theorem readNumber_parsed {cs rest : List Char} {n : Number} (read : readNumber cs = some (n, rest)) :
    (num n).Parsed := by
  refine ⟨fun m member => ?_, trivial⟩
  obtain rfl := List.mem_singleton.mp member
  unfold readNumber at read
  dsimp only at read
  -- with a sign or without one
  split at read
  all_goals
    split at read
    · cases read
    · obtain ⟨⟨fraction, after⟩, -, read⟩ := Option.bind_eq_some_iff.mp read
      obtain ⟨⟨exponent, last⟩, -, read⟩ := Option.bind_eq_some_iff.mp read
      cases read
      exact Number.isDouble_ofScientific

/-- Whatever is read within a number of steps was parsed. -/
theorem read_parsed (fuel : Nat) :
    (∀ {cs rest j}, readValue fuel cs = some (j, rest) → j.Parsed) ∧
    (∀ {cs rest items}, readItems fuel cs = some (items, rest) → ∀ item ∈ items, item.Parsed) ∧
    ∀ {cs rest members}, readMembers fuel cs = some (members, rest) →
      Table.All Parsed members := by
  induction fuel with
  | zero =>
    refine ⟨?_, ?_, ?_⟩ <;>
      · intro _ _ _ read
        cases read
  | succ fuel ih =>
    obtain ⟨value, list, table⟩ := ih
    refine ⟨?_, ?_, ?_⟩
    · intro cs rest j read
      unfold readValue at read
      split at read
      · cases read
        exact ⟨List.forall_mem_nil _, trivial⟩
      · cases read
        exact ⟨List.forall_mem_nil _, trivial⟩
      · cases read
        exact ⟨List.forall_mem_nil _, trivial⟩
      · obtain ⟨_, -, same⟩ := Option.map_eq_some_iff.mp read
        cases same
        exact ⟨List.forall_mem_nil _, trivial⟩
      · split at read
        · cases read
          exact held_arr.mpr (List.forall_mem_nil _)
        · obtain ⟨_, found, same⟩ := Option.map_eq_some_iff.mp read
          cases same
          exact held_arr.mpr (list found)
      · split at read
        · cases read
          exact held_obj.mpr ⟨⟨List.nodup_nil, .nil⟩, Table.All.nil⟩
        · obtain ⟨_, found, same⟩ := Option.map_eq_some_iff.mp read
          cases same
          exact held_obj.mpr ⟨Table.arranged_arrange _, (table found).arrange⟩
      · obtain ⟨_, found, same⟩ := Option.map_eq_some_iff.mp read
        cases same
        exact readNumber_parsed found
    · intro cs rest items read
      unfold readItems at read
      obtain ⟨⟨item, after⟩, own, read⟩ := Option.bind_eq_some_iff.mp read
      dsimp only at read
      split at read
      · obtain ⟨⟨others, last⟩, later, same⟩ := Option.bind_eq_some_iff.mp read
        cases same
        exact List.forall_mem_cons.mpr ⟨value own, list later⟩
      · cases read
        exact List.forall_mem_singleton.mpr (value own)
      · cases read
    · intro cs rest members read
      unfold readMembers at read
      split at read
      · obtain ⟨⟨key, after⟩, -, read⟩ := Option.bind_eq_some_iff.mp read
        dsimp only at read
        split at read
        · obtain ⟨⟨item, after⟩, own, read⟩ := Option.bind_eq_some_iff.mp read
          dsimp only at read
          split at read
          · obtain ⟨⟨others, last⟩, later, same⟩ := Option.bind_eq_some_iff.mp read
            cases same
            exact (Table.All.single (value own)).append (table later)
          · cases read
            exact Table.All.single (value own)
          · cases read
        · cases read
      · cases read

/-- A value that is read from a text was parsed. -/
theorem read?_parsed {text : String} {j : Json} (read : read? text = some j) : j.Parsed := by
  unfold read? at read
  obtain ⟨⟨value, rest⟩, found, read⟩ := Option.bind_eq_some_iff.mp read
  dsimp only at read
  split at read
  · cases read
    exact (read_parsed _).1 found
  · cases read

end Json

end RoutePolicy
