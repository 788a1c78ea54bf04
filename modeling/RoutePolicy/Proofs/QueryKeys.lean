import RoutePolicy.Proofs.CanonicalText
import RoutePolicy.Proofs.ConditionKeys
import RoutePolicy.Proofs.GivenRoutes
import RoutePolicy.Proofs.Members
import RoutePolicy.Proofs.ParsedValues
import RoutePolicy.Reachability.Propagation

/-!
The canonical text of a query determines its answer: queries with one text ask for the same
destination, source and trace, and give the same values, unless these are no values at all. The text
of a number that is not finite is that of `null`, so it does not determine the query itself.
-/

set_option autoImplicit false

namespace RoutePolicy

/-! ### What a text shows of a value -/

namespace Json

mutual

/-- A value as its text shows it: numbers that are not finite are written as `null`. -/
def shown : Json → Json
  | num n => if n.isFinite then num n else null
  | arr items => arr (shownItems items)
  | obj members => obj (shownMembers members)
  | j => j

def shownItems : List Json → List Json
  | [] => []
  | item :: rest => item.shown :: shownItems rest

def shownMembers : List (String × Json) → List (String × Json)
  | [] => []
  | (key, value) :: rest => (key, value.shown) :: shownMembers rest

end

theorem shownItems_eq (items : List Json) : shownItems items = items.map shown := by
  induction items with
  | nil => rfl
  | cons item rest ih => rw [shownItems, ih, List.map_cons]

theorem shownMembers_eq (members : Table Json) :
    shownMembers members = members.map fun (key, value) => (key, value.shown) := by
  induction members with
  | nil => rfl
  | cons entry rest ih => rw [shownMembers, ih, List.map_cons]

mutual

theorem chars_shown (j : Json) : j.shown.chars = j.chars := by
  cases j with
  | num n =>
      rw [shown]
      split
      · rfl
      · rename_i infinite
        rw [chars, chars, numberChars, if_neg infinite]
  | arr items => rw [shown, chars, chars, itemChars_shown items]
  | obj members => rw [shown, chars, chars, memberChars_shown members]
  | null | bool _ | str _ => rfl

theorem itemChars_shown (items : List Json) : itemChars (shownItems items) = itemChars items := by
  match items with
  | [] => rfl
  | [item] => exact chars_shown item
  | item :: next :: rest =>
      have here := chars_shown item
      have later := itemChars_shown (next :: rest)
      simp only [shownItems, itemChars] at later ⊢
      rw [here, later]

theorem memberChars_shown (members : List (String × Json)) :
    memberChars (shownMembers members) = memberChars members := by
  match members with
  | [] => rfl
  | [(key, value)] => rw [shownMembers, shownMembers, memberChars, memberChars, chars_shown value]
  | (key, value) :: (other, next) :: rest =>
      have here := chars_shown value
      have later := memberChars_shown ((other, next) :: rest)
      simp only [shownMembers, memberChars] at later ⊢
      rw [here, later]

end

mutual

/-- The numbers that are shown are finite. -/
theorem numbersIn_shown {S : Number → Prop} (j : Json)
    (known : j.NumbersIn fun n => n.isFinite = true → S n) : j.shown.NumbersIn S := by
  cases j with
  | num n =>
      rw [shown]
      split
      · rename_i finite
        intro m member
        cases List.mem_singleton.mp member
        exact known n List.mem_cons_self finite
      · intro m member
        cases member
  | arr items => exact itemNumbers_shown items known
  | obj members => exact memberNumbers_shown members known
  | null | bool _ | str _ =>
      intro m member
      cases member

theorem itemNumbers_shown {S : Number → Prop} (items : List Json)
    (known : ∀ n ∈ itemNumbers items, n.isFinite = true → S n) :
    ∀ n ∈ itemNumbers (shownItems items), S n := by
  match items with
  | [] =>
      intro m member
      cases member
  | item :: rest =>
      obtain ⟨here, later⟩ := List.forall_mem_append.mp known
      exact List.forall_mem_append.mpr ⟨numbersIn_shown item here, itemNumbers_shown rest later⟩

theorem memberNumbers_shown {S : Number → Prop} (members : List (String × Json))
    (known : ∀ n ∈ memberNumbers members, n.isFinite = true → S n) :
    ∀ n ∈ memberNumbers (shownMembers members), S n := by
  match members with
  | [] =>
      intro m member
      cases member
  | (_, value) :: rest =>
      obtain ⟨here, later⟩ := List.forall_mem_append.mp known
      exact List.forall_mem_append.mpr ⟨numbersIn_shown value here, memberNumbers_shown rest later⟩

end

/-- Whichever numbers of a value are finite are values of binary64. -/
abbrev Doubles (j : Json) : Prop := j.NumbersIn fun n => n.isFinite = true → n.IsDouble

/-- A value as its canonical text shows it. -/
def visible (j : Json) : Json := j.sorted.shown

/-- Values with one canonical text show the same. -/
theorem visible_eq_of_canonical {a b : Json} (left : a.Doubles) (right : b.Doubles)
    (same : a.canonical = b.canonical) : a.visible = b.visible := by
  refine compact_inj Number.legible_double (numbersIn_shown _ (numbersIn_sorted a left))
    (numbersIn_shown _ (numbersIn_sorted b right)) ?_
  rw [visible, visible, compact, compact, chars_shown, chars_shown]
  exact same

theorem get?_shown (j : Json) (key : String) : j.shown.get? key = (j.get? key).map shown := by
  cases j with
  | num n =>
      rw [shown]
      split <;> rfl
  | obj members => rw [shown, get?, shownMembers_eq, Table.get?_map, get?]
  | null | bool _ | str _ | arr _ => rfl

/-- Objects that show the same have members that show the same. -/
theorem visible_member {left right : Table Json} (leftDistinct : left.names.Nodup)
    (rightDistinct : right.names.Nodup) (same : (obj left).visible = (obj right).visible)
    (key : String) : (left.get? key).map visible = (right.get? key).map visible := by
  have members := congrArg (get? · key) same
  simp only [visible, get?_shown, get?_sorted leftDistinct, get?_sorted rightDistinct,
    Option.map_map] at members
  exact members

@[simp] theorem visible_str (text : String) : (str text).visible = str text := rfl

@[simp] theorem visible_bool (value : Bool) : (bool value).visible = bool value := rfl

theorem visible_num (n : Number) : (num n).visible = if n.isFinite then num n else null := by
  simp only [visible, sorted, shown]

theorem visible_arr (items : List Json) : (arr items).visible = arr (items.map visible) := by
  rw [visible, sorted, shown, sortedItems_eq, shownItems_eq, List.map_map]
  rfl

/-- A finite number shows itself, and nothing else shows it. -/
theorem num_of_visible {m n : Number} (finite : m.isFinite = true)
    (same : (num m).visible = (num n).visible) : m = n := by
  rw [visible_num, visible_num, if_pos finite] at same
  split at same
  · exact num.inj same
  · cases same

theorem nums_of_visible {ms ns : List Number} (finite : ∀ m ∈ ms, m.isFinite = true)
    (same : (arr (ms.map num)).visible = (arr (ns.map num)).visible) : ms = ns := by
  simp only [visible_arr, List.map_map, arr.injEq] at same
  induction ms generalizing ns with
  | nil => exact (List.map_eq_nil_iff.mp same.symm).symm
  | cons m ms ih =>
      cases ns with
      | nil => cases same
      | cons n ns =>
          obtain ⟨first, rest⟩ := List.cons.inj same
          obtain ⟨here, later⟩ := List.forall_mem_cons.mp finite
          rw [num_of_visible here first, ih later rest]

theorem strs_of_visible {xs ys : List String} (same : (strs xs).visible = (strs ys).visible) :
    xs = ys := by
  simp only [strs, visible_arr, List.map_map, arr.injEq] at same
  exact List.map_injective_iff.mpr (fun _ _ equal => by simpa using equal) same

end Json

/-! ### Given values -/

theorem Number.isFinite_of_toInt? {n : Number} {i : Int} (whole : n.toInt? = some i) :
    n.isFinite = true := by
  cases n with
  | finite q => rfl
  | infinite _ | undefined => cases whole

theorem Given.isFinite_of_integer {name : Attribute} {value : Number} {l : Literal}
    (valid : Given.integer name value = .ok l) : value.isFinite = true := by
  unfold Given.integer at valid
  split at valid
  · rename_i whole
    exact Number.isFinite_of_toInt? (Option.filter_eq_some_iff.mp whole).1
  · cases valid

theorem Number.isFinite_of_mapM {ns : List Number} {ks : List Nat}
    (naturals : ns.mapM toNat? = some ks) : ∀ n ∈ ns, n.isFinite = true := by
  induction ns generalizing ks with
  | nil =>
      intro n member
      cases member
  | cons n ns ih =>
      rw [List.mapM_cons] at naturals
      obtain ⟨k, first, naturals⟩ := Option.bind_eq_some_iff.mp naturals
      obtain ⟨rest, later, -⟩ := Option.bind_eq_some_iff.mp naturals
      obtain ⟨i, whole, -⟩ := Option.bind_eq_some_iff.mp first
      exact List.forall_mem_cons.mpr ⟨isFinite_of_toInt? whole, ih later⟩

theorem Given.isFinite_of_asPath {asns : List Number} {l : Literal}
    (valid : (Given.asPath asns).literal = .ok l) : ∀ n ∈ asns, n.isFinite = true := by
  simp only [Given.literal] at valid
  split at valid
  · rename_i naturals
    exact Number.isFinite_of_mapM naturals
  · cases valid

/-- A value that stands for a literal is the only one of its attribute that shows the same. -/
theorem Given.eq_of_visible {given other : Given} {l : Literal} (valid : given.literal = .ok l)
    (names : given.name = other.name) (same : given.toJson.visible = other.toJson.visible) :
    given = other := by
  cases given <;> cases other <;> try cases names
  case network.network | nextHop.nextHop => exact congrArg _ (Json.str.inj same)
  case communities.communities => exact congrArg _ (Json.strs_of_visible same)
  case asPath.asPath =>
    exact congrArg _ (Json.nums_of_visible (Given.isFinite_of_asPath valid) same)
  all_goals exact congrArg _ (Json.num_of_visible (Given.isFinite_of_integer valid) same)

/-- The network that was put in place is found, and all other values as before. -/
theorem Given.find?_withNetwork (values : List Given) (text : String) (name : Attribute) :
    Given.find? (Given.withNetwork values text) name =
      if name = .network then some (.network text) else Given.find? values name := by
  rw [find?, withNetwork, List.find?_append]
  split
  · subst name
    have absent : (values.filter (·.name ≠ .network)).find? (·.name = .network) = none := by
      rw [List.find?_eq_none]
      intro given member
      simpa using (List.mem_filter.mp member).2
    rw [absent]
    rfl
  · rename_i other
    have kept : (values.filter (·.name ≠ .network)).find? (·.name = name) = find? values name := by
      rw [List.find?_filter, find?]
      congr 1
      funext given
      by_cases here : given.name = name <;> simp [here, other]
    have passed : [network text].find? (·.name = name) = none := by
      have apart : Attribute.network ≠ name := Ne.symm other
      simp [Given.name, apart]
    rw [kept, passed, Option.or_none]

theorem Record.givenSlots_congr {values others : List Given} {openSlots : Bool}
    {names : List Attribute} {slots : List (Attribute × Expr)}
    (alike : ∀ name, (Given.find? values name).map (fun g => g.toJson.visible) =
      (Given.find? others name).map fun g => g.toJson.visible)
    (done : givenSlots values openSlots names = .ok slots) :
    givenSlots others openSlots names = .ok slots := by
  induction names generalizing slots with
  | nil => exact done
  | cons name rest ih =>
      obtain ⟨slot, own, done⟩ := Outcome.bind_ok.mp done
      obtain ⟨more, later, same⟩ := Outcome.bind_ok.mp done
      have slotToo : givenSlot others openSlots name = .ok slot := by
        have here := alike name
        unfold givenSlot at own ⊢
        cases found : Given.find? values name with
        | none =>
            rw [found, Option.map_none, eq_comm, Option.map_eq_none_iff] at here
            rw [found] at own
            rw [here]
            exact own
        | some given =>
            rw [found, Option.map_some, eq_comm, Option.map_eq_some_iff] at here
            obtain ⟨other, foundToo, shows⟩ := here
            rw [found] at own
            obtain ⟨l, valid, own⟩ := Outcome.bind_ok.mp own
            have names : given.name = other.name :=
              (Given.name_of_find? found).trans (Given.name_of_find? foundToo).symm
            obtain rfl := Given.eq_of_visible valid names shows.symm
            rw [foundToo]
            exact Outcome.bind_ok.mpr ⟨l, valid, own⟩
      exact Outcome.bind_ok.mpr ⟨slot, slotToo, Outcome.bind_ok.mpr ⟨more, ih later, same⟩⟩

/-! ### Queries -/

namespace Query

/-- The members of the route of a query. -/
def routeMembers (values : List Given) (remarks : Table Json) : Table Json :=
  values.map (fun given => (given.name.name, given.toJson)) ++ remarks

/-- The members of a query. -/
def members (q : Query) : Table Json :=
  [("kind", .str "reachable"), ("destination", .str q.destination)] ++
    (q.source.toList.map fun node => ("source", .str node)) ++
    (q.route.toList.map fun values => ("route", .obj (routeMembers values q.remarks))) ++
    (q.trace.toList.map fun trace => ("trace", .bool trace))

theorem toJson_eq (q : Query) : q.toJson = .obj q.members := rfl

theorem nodup_members (q : Query) : q.members.names.Nodup := by
  obtain ⟨_, source, route, trace, _⟩ := q
  cases source <;> cases route <;> cases trace <;> simp [members, Table.names]

theorem get?_destination (q : Query) : q.members.get? "destination" = some (.str q.destination) :=
  rfl

theorem get?_source (q : Query) : q.members.get? "source" = q.source.map .str := by
  obtain ⟨_, source, route, trace, _⟩ := q
  cases source <;> cases route <;> cases trace <;> simp [members, Table.get?]

theorem get?_route (q : Query) : q.members.get? "route" =
    q.route.map fun values => .obj (routeMembers values q.remarks) := by
  obtain ⟨_, source, route, trace, _⟩ := q
  cases source <;> cases route <;> cases trace <;> simp [members, Table.get?]

theorem get?_trace (q : Query) : q.members.get? "trace" = q.trace.map .bool := by
  obtain ⟨_, source, route, trace, _⟩ := q
  cases source <;> cases route <;> cases trace <;> simp [members, Table.get?]

/-- All numbers of a query are those of its route. -/
theorem doubles_toJson {q : Query}
    (route : ∀ values ∈ q.route, (Json.obj (routeMembers values q.remarks)).Doubles) :
    q.toJson.Doubles := by
  rw [toJson_eq, Json.Doubles, Json.numbersIn_obj]
  intro entry member
  simp only [members, List.append_assoc, List.mem_append, List.mem_cons, List.mem_map,
    Option.mem_toList, List.not_mem_nil, or_false] at member
  rcases member with (rfl | rfl) | ⟨_, -, rfl⟩ | ⟨values, given, rfl⟩ | ⟨_, -, rfl⟩
  case inr.inr.inl => exact route values given
  all_goals
    intro n impossible
    cases impossible

/-- A query as programs hold it: its numbers are values of binary64, and no member of its route is
given twice. -/
structure WellFormed (q : Query) : Prop where
  doubles : q.toJson.Doubles
  given : ((q.route.getD []).map Given.name).Nodup
  remarked : q.remarks.names.Nodup
  foreign : ∀ key ∈ q.remarks.names, Attribute.ofName? key = none

section

variable {values : List Given} {remarks : Table Json}

theorem get?_routeMembers (foreign : ∀ key ∈ remarks.names, Attribute.ofName? key = none)
    (name : Attribute) : (routeMembers values remarks).get? name.name =
      (Given.find? values name).map Given.toJson := by
  have absent : remarks.get? name.name = none := by
    apply Table.get?_eq_none_of_not_mem
    intro member
    have unknown := foreign name.name member
    rw [Encoding.attribute_ofName?.mpr rfl] at unknown
    cases unknown
  rw [routeMembers, Table.get?_append, absent, Option.or_none]
  induction values with
  | nil => rfl
  | cons given rest ih =>
      rw [List.map_cons, Table.get?, ih, Given.find?, Given.find?, List.find?_cons]
      by_cases here : given.name = name
      · subst here
        simp
      · have apart : given.name.name ≠ name.name := fun same => here (Attribute.name_inj same)
        simp [here, apart]

theorem routeMembers_names (values : List Given) (remarks : Table Json) :
    (routeMembers values remarks).names =
      (values.map Given.name).map Attribute.name ++ remarks.names := by
  simp [routeMembers, Table.names]

theorem nodup_routeMembers (given : (values.map Given.name).Nodup) (remarked : remarks.names.Nodup)
    (foreign : ∀ key ∈ remarks.names, Attribute.ofName? key = none) :
    (routeMembers values remarks).names.Nodup := by
  rw [routeMembers_names]
  refine List.Nodup.append (given.map fun _ _ => Attribute.name_inj) remarked ?_
  intro key listed member
  obtain ⟨name, -, rfl⟩ := List.mem_map.mp listed
  have unknown := foreign name.name member
  rw [Encoding.attribute_ofName?.mpr rfl] at unknown
  cases unknown

end

/-- Queries that ask the same: their values show the same texts, attribute by attribute. -/
structure Alike (q other : Query) : Prop where
  destination : q.destination = other.destination
  source : q.source = other.source
  trace : q.trace = other.trace
  route : ∀ name, (Given.find? (q.route.getD []) name).map (fun g => g.toJson.visible) =
    (Given.find? (other.route.getD []) name).map fun g => g.toJson.visible

theorem alike_of_canonical {q other : Query} (left : q.WellFormed) (right : other.WellFormed)
    (same : q.canonical = other.canonical) : q.Alike other := by
  have shows : (Json.obj q.members).visible = (Json.obj other.members).visible :=
    Json.visible_eq_of_canonical left.doubles right.doubles same
  have member := Json.visible_member q.nodup_members other.nodup_members shows
  refine ⟨?_, ?_, ?_, ?_⟩
  · simpa [get?_destination] using member "destination"
  · have sources := member "source"
    rw [get?_source, get?_source] at sources
    cases h : q.source <;> cases h' : other.source <;> simp_all
  · have traces := member "trace"
    rw [get?_trace, get?_trace] at traces
    cases h : q.trace <;> cases h' : other.trace <;> simp_all
  · have routes := member "route"
    rw [get?_route, get?_route] at routes
    cases h : q.route with
    | none =>
        cases h' : other.route with
        | none => exact fun _ => rfl
        | some others => simp [h, h'] at routes
    | some values =>
        cases h' : other.route with
        | none => simp [h, h'] at routes
        | some others =>
            rw [h, h', Option.map_some, Option.map_some, Option.map_some, Option.map_some,
              Option.some.injEq] at routes
            have own := left.given
            have foreign := right.given
            rw [h] at own
            rw [h'] at foreign
            intro name
            have slots := Json.visible_member (nodup_routeMembers own left.remarked left.foreign)
              (nodup_routeMembers foreign right.remarked right.foreign) routes name.name
            rw [get?_routeMembers left.foreign, get?_routeMembers right.foreign, Option.map_map,
              Option.map_map] at slots
            exact slots

variable {q other : Query} {t : Topology}

/-- Queries that ask the same have the same origins. -/
theorem Alike.origins (alike : q.Alike other) {variants : List Variant}
    (known : q.origins t = .ok variants) : other.origins t = .ok variants := by
  obtain ⟨_, checked, known⟩ := Outcome.bind_ok.mp known
  obtain ⟨target, network, known⟩ := Outcome.bind_ok.mp known
  obtain ⟨originated, given, known⟩ := Outcome.bind_ok.mp known
  have checkedToo : other.checkSource t = .ok () := by
    unfold checkSource at checked ⊢
    rw [← alike.source]
    exact checked
  have networkToo : other.network = .ok target := by
    unfold Query.network at network ⊢
    rw [← alike.destination]
    exact network
  have values : ∀ name,
      (Given.find? (Given.withNetwork (q.route.getD []) target.text) name).map
        (fun g => g.toJson.visible) =
      (Given.find? (Given.withNetwork (other.route.getD []) target.text) name).map
        fun g => g.toJson.visible := by
    intro name
    rw [Given.find?_withNetwork, Given.find?_withNetwork]
    split
    · rfl
    · exact alike.route name
  have givenToo : Record.ofGiven (Given.withNetwork (other.route.getD []) target.text) true =
      .ok originated := by
    obtain ⟨slots, found, same⟩ := Outcome.bind_ok.mp given
    exact Outcome.bind_ok.mpr ⟨slots, Record.givenSlots_congr values found, same⟩
  exact Outcome.bind_ok.mpr ⟨(), checkedToo, Outcome.bind_ok.mpr ⟨target, networkToo,
    Outcome.bind_ok.mpr ⟨originated, givenToo, known⟩⟩⟩

/-- The answer to a query is the answer to all that ask the same, but for the query it repeats. -/
theorem Alike.ask [Arithmetic] {limits : Limits} {answer : Answer} (alike : q.Alike other)
    (known : t.ask limits q = .ok answer) :
    t.ask limits other = .ok { answer with query := other } := by
  obtain ⟨variants, started, known⟩ := Outcome.bind_ok.mp known
  obtain ⟨s, settled, same⟩ := Outcome.bind_ok.mp known
  cases same
  refine Outcome.bind_ok.mpr ⟨variants, alike.origins started, Outcome.bind_ok.mpr ⟨s, settled, ?_⟩⟩
  simp only [Propagation.answer, Propagation.witness, Propagation.trace, alike.source, alike.trace]
  rfl

/-- Queries with one canonical text have the same answer, if they have one. -/
theorem ask_of_canonical [Arithmetic] {limits : Limits} {answer : Answer} (left : q.WellFormed)
    (right : other.WellFormed) (same : q.canonical = other.canonical)
    (known : t.ask limits q = .ok answer) :
    t.ask limits other = .ok { answer with query := other } :=
  (alike_of_canonical left right same).ask known

end Query

end RoutePolicy
