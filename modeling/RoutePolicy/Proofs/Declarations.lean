import RoutePolicy.Proofs.Drafting

/-!
What the table of declarations comes to. A row is read by itself, and where it stands shows in
failures only; the survey then holds what it held before and what the rows declare, no more.
-/

set_option autoImplicit false

namespace RoutePolicy

/-! ### Places -/

section

variable {α β : Type}

theorem Outcome.toOption_some {r : Outcome α} {a : α} : r.toOption = some a ↔ r = .ok a := by
  cases r <;> simp [Except.toOption]

theorem Outcome.toOption_bind (r : Outcome α) (next : α → Outcome β) :
    (r >>= next).toOption = r.toOption.bind fun a => (next a).toOption := by
  cases r <;> rfl

theorem Outcome.toOption_under (place : Location) (r : Outcome α) :
    (r.under place).toOption = r.toOption := by
  ext a
  rw [toOption_some, toOption_some, under_ok]

end

namespace Tables

/-- A reader finds the same wherever the value stands: its place shows in failures only. -/
def Placeless {α : Type} (read : Location → Outcome α) : Prop :=
  ∀ place other, (read place).toOption = (read other).toOption

section

variable {α β : Type}

theorem Placeless.ok_iff {read : Location → Outcome α} (placeless : Placeless read)
    {place : Location} {a : α} : read place = .ok a ↔ (read []).toOption = some a := by
  rw [placeless [] place, Outcome.toOption_some]

theorem Placeless.bind {read : Location → Outcome α} {next : α → Location → Outcome β}
    (first : Placeless read) (further : ∀ a, Placeless (next a)) :
    Placeless fun place => read place >>= fun a => next a place := by
  intro place other
  rw [Outcome.toOption_bind, Outcome.toOption_bind, first place other]
  exact congrArg _ (funext fun a => further a place other)

theorem Placeless.moved {read : Location → Outcome α} (placeless : Placeless read)
    (move : Location → Location) : Placeless fun place => read (move place) :=
  fun place other => placeless (move place) (move other)

theorem Placeless.under (r : Outcome α) : Placeless fun place => r.under place := by
  intro place other
  rw [Outcome.toOption_under, Outcome.toOption_under]

theorem Placeless.const (r : Outcome α) : Placeless fun _ => r := fun _ _ => rfl

theorem Placeless.error (failure : Location → Failure) :
    Placeless fun place => (.error (failure place) : Outcome α) := fun _ _ => rfl

end

theorem node_placeless (cell : Option Json) : Placeless (node cell) := by
  intro place other
  unfold node
  split
  · rfl
  · split <;> rfl
  · rfl

theorem text_ok {row : Table Json} {key found : String} {place : Location} :
    text row key place = .ok found ↔ row.get? key = some (.str found) := by
  unfold text
  split <;> simp_all

theorem text_placeless (row : Table Json) (key : String) : Placeless (text row key) := by
  intro place other
  unfold text
  split <;> rfl

theorem optionalText_placeless (row : Table Json) (key : String) :
    Placeless (optionalText row key) := by
  intro place other
  unfold optionalText
  split <;> rfl

theorem optionalAsn_placeless (row : Table Json) (key : String) :
    Placeless (optionalAsn row key) := by
  intro place other
  unfold optionalAsn
  split
  · rfl
  · rfl
  · split <;> rfl

theorem listLine_placeless (j : Json) : Placeless (listLine j) := by
  unfold listLine
  cases j.members? with
  | none => exact .error _
  | some line =>
    refine (text_placeless line "action").bind fun word => ?_
    dsimp only
    cases Action.ofName? (Text.lower word) with
    | none => exact .error _
    | some action =>
      refine (text_placeless line "lengthRange").bind fun lengths => ?_
      refine (text_placeless line "ipWildcard").bind fun network => ?_
      intro place other
      dsimp only
      split
      · split <;> rfl
      · split <;> rfl

theorem listLines_placeless (i : Nat) (items : List Json) :
    Placeless fun place => listLines place i items := by
  induction items generalizing i with
  | nil => exact .const _
  | cons j rest ih =>
    refine ((listLine_placeless j).moved _).bind fun line => ?_
    exact (ih (i + 1)).bind fun others => .const _

theorem filterList_placeless (body : Table Json) : Placeless (filterList body) := by
  unfold filterList
  split
  · exact (listLines_placeless 0 _).moved _
  · exact .error _

theorem familyPolicies_placeless (config : Table Json) : Placeless (familyPolicies config) := by
  unfold familyPolicies
  split
  · exact .const _
  · refine ((optionalText_placeless _ _).moved _).bind fun imports => ?_
    exact ((optionalText_placeless _ _).moved _).bind fun exports => .const _

theorem neighbor_placeless (node key : String) (j : Json) : Placeless (neighbor node key j) := by
  unfold neighbor
  cases j.members? with
  | none => exact .error _
  | some config =>
    refine (optionalText_placeless config "peerAddress").bind fun peer => ?_
    dsimp only
    split
    · exact .error _
    · refine (optionalText_placeless config "localIp").bind fun localIp => ?_
      refine (optionalAsn_placeless config "localAs").bind fun localAs => ?_
      refine (optionalAsn_placeless config "remoteAsns").bind fun remoteAs => ?_
      exact (familyPolicies_placeless config).bind fun policies => .const _

theorem neighborTable_placeless (node : String) (table : Table Json) :
    Placeless fun place => neighborTable node place table := by
  induction table with
  | nil => exact .const _
  | cons entry rest ih =>
    refine ((neighbor_placeless node entry.1 entry.2).moved _).bind fun first => ?_
    exact ih.bind fun others => .const _

theorem neighbors_placeless (node : String) (body : Table Json) :
    Placeless (neighbors node body) := by
  unfold neighbors
  split
  · exact .const _
  · exact .const _
  · dsimp only
    split
    · exact .error _
    · split
      · exact .const _
      · exact .const _
      · split
        · exact .error _
        · exact (neighborTable_placeless node _).moved _

/-- The word for structures of a kind. -/
def StructureType.word : StructureType → String
  | routingPolicy => "Routing_Policy"
  | routeFilterList => "Route_Filter_List"
  | communitySet => "Community_Set"
  | vrf => "VRF"

theorem StructureType.ofName?_some {word : String} {kind : StructureType} :
    ofName? word = some kind ↔ word = kind.word := by
  constructor
  · intro named
    unfold ofName? at named
    split_ifs at named with policy list set routing
    · cases named
      exact policy
    · cases named
      exact list
    · cases named
      exact set
    · cases named
      exact routing
  · rintro rfl
    cases kind <;> decide

end Tables

namespace Drafting

theorem communitySet_placeless (keep : Bool) (body : Json) :
    Tables.Placeless (communitySet keep body) := by
  refine (Tables.Placeless.under _).bind fun set => ?_
  split
  · exact .const _
  · exact .error _

theorem declared_placeless (keep : Bool) (node name : String) (body : Table Json)
    (kind : Tables.StructureType) :
    Tables.Placeless fun place => declared keep node name body place kind := by
  cases kind with
  | routingPolicy => exact ((Tables.Placeless.under _).moved _).bind fun statements => .const _
  | routeFilterList => exact (Tables.filterList_placeless body).bind fun lines => .const _
  | communitySet => exact (communitySet_placeless keep (.obj body)).bind fun set => .const _
  | vrf => exact (Tables.neighbors_placeless node body).bind fun sessions => .const _

theorem exists_bind_eq_some {α β : Type} {o : Option α} {f : α → Option β} {P : β → Prop} :
    (∃ b, (o >>= f) = some b ∧ P b) ↔ ∃ a, o = some a ∧ ∃ b, f a = some b ∧ P b := by
  cases o <;> simp

/-! ### Rows -/

namespace Declared

def kind : Declared → Tables.StructureType
  | .policy _ => .routingPolicy
  | .list _ => .routeFilterList
  | .set _ => .communitySet
  | .sessions _ => .vrf

def policy? : Declared → Option Policy
  | .policy p => some p
  | _ => none

def lines? : Declared → Option (List ListLine)
  | .list lines => some lines
  | _ => none

def members? : Declared → Option Expr
  | .set members => some members
  | _ => none

end Declared

/-- A structure declares what is of its kind. -/
theorem kind_declared {keep : Bool} {node name : String} {body : Table Json} {place : Location}
    {kind : Tables.StructureType} {found : Declared}
    (read : declared keep node name body place kind = .ok found) : found.kind = kind := by
  cases kind <;>
    · obtain ⟨_, -, same⟩ := Outcome.bind_ok.mp read
      cases same
      rfl

/-- What a row of the table of declarations says. Structures of other types add nothing. -/
structure Declaration where
  node : String
  type : String
  name : String
  found : Option Declared

/-- The value of the structure that a row defines. -/
def definedValue (row : Table Json) : Option (Table Json) :=
  (((row.get? "Structure_Definition").bind Json.members?).bind (·.get? "value")).bind Json.members?

/-- What a row says, if it can be read. -/
def declaration? (keep : Bool) (row : Table Json) : Option Declaration := do
  let node ← (Tables.node (row.get? "Node") []).toOption
  let type ← (Tables.text row "Structure_Type" []).toOption
  let name ← (Tables.text row "Structure_Name" []).toOption
  match Tables.StructureType.ofName? type with
  | none => some ⟨node, type, name, none⟩
  | some kind => do
    let body ← definedValue row
    let found ← (declared keep node name body [] kind).toOption
    some ⟨node, type, name, some found⟩

/-- A row that is read has the cells that say what it is about, and declares what is of its type. -/
theorem declaration?_some {keep : Bool} {row : Table Json} {d : Declaration}
    (read : declaration? keep row = some d) :
    Tables.node (row.get? "Node") [] = .ok d.node ∧
      row.get? "Structure_Type" = some (.str d.type) ∧
      row.get? "Structure_Name" = some (.str d.name) ∧
      d.found.map Declared.kind = Tables.StructureType.ofName? d.type := by
  simp only [declaration?, Option.bind_eq_bind, Option.bind_eq_some_iff, Outcome.toOption_some,
    Tables.text_ok] at read
  obtain ⟨node, here, type, typed, name, named, read⟩ := read
  cases known : Tables.StructureType.ofName? type with
  | none =>
    rw [known] at read
    cases read
    exact ⟨here, typed, named, known.symm⟩
  | some kind =>
    simp only [known, Option.bind_eq_some_iff, Outcome.toOption_some] at read
    obtain ⟨body, -, found, declares, same⟩ := read
    cases same
    exact ⟨here, typed, named, (congrArg some (kind_declared declares)).trans known.symm⟩

namespace Declaration

/-- What a declaration adds to the draft of its node. -/
def apply (d : Declaration) (draft : Draft) : Draft :=
  match d.found with
  | some (.policy p) => { draft with policies := draft.policies.put d.name p }
  | some (.list lines) => { draft with
      definitions := { draft.definitions with lists := draft.definitions.lists.put d.name lines } }
  | some (.set members) => { draft with
      definitions := { draft.definitions with sets := draft.definitions.sets.put d.name members } }
  | _ => draft

def sessions (d : Declaration) : List Tables.Neighbor :=
  match d.found with
  | some (.sessions neighbors) => neighbors
  | _ => []

/-- What a declaration adds of one kind, under its name. -/
def named? {α : Type} (part : Declared → Option α) (d : Declaration) : Option (String × α) :=
  (d.found.bind part).map fun value => (d.name, value)

def notes (d : Declaration) : List LogEntry :=
  match d.found with
  | none => [.debug "Skipping non-policy structure"
      [("node", .str d.node), ("type", .str d.type), ("structure", .str d.name)]]
  | some _ => []

end Declaration

end Drafting

open Drafting (Declaration)

namespace Survey

variable {s : Survey} {name : String}

/-- The survey with what a row declares. -/
def declare (s : Survey) (d : Declaration) : Survey :=
  { s.draftedAs d.node (d.apply (s.draft d.node)) with
    sessions := s.sessions ++ d.sessions
    log := s.log ++ d.notes }

end Survey

namespace Drafting

theorem touch_declare (node type name : String) (found : Declared) :
    (do touch node; declare node name found) =
      modify (Survey.declare · ⟨node, type, name, some found⟩) := by
  have same : ∀ s : Survey, Survey.declare s ⟨node, type, name, some found⟩ =
      { s.draftedAs node (Declaration.apply ⟨node, type, name, some found⟩ (s.draft node)) with
        sessions := s.sessions ++ Declaration.sessions ⟨node, type, name, some found⟩ } := by
    intro s
    rw [Survey.declare, Declaration.notes, List.append_nil]
    rfl
  simp only [same]
  cases found with
  | sessions neighbors => rfl
  | _ =>
    rw [declare, touch_update, update]
    simp only [Declaration.sessions, List.append_nil]
    rfl

theorem declare_ok {s s' : Survey} {node type name : String} {found : Declared} :
    (do touch node; declare node name found : Drafting Unit).run.run s = (.ok (), s') ↔
      s' = s.declare ⟨node, type, name, some found⟩ := by
  rw [touch_declare node type, run_modify_ok]

/-- A row is read by itself, and then adds what it declares. -/
theorem declarationRow_ok {keep : Bool} {i : Nat} {row : Table Json} {s s' : Survey} :
    (declarationRow keep i row).run.run s = (.ok (), s') ↔
      ∃ d, declaration? keep row = some d ∧ s' = s.declare d := by
  unfold declarationRow declaration?
  simp only [run_lift_bind_ok, (Tables.node_placeless _).ok_iff, (Tables.text_placeless _ _).ok_iff,
    exists_bind_eq_some]
  refine exists_congr fun node => and_congr_right fun _ => ?_
  refine exists_congr fun type => and_congr_right fun _ => ?_
  refine exists_congr fun name => and_congr_right fun _ => ?_
  cases Tables.StructureType.ofName? type with
  | none =>
    simp only [Option.some.injEq, exists_eq_left']
    rw [Survey.declare, Declaration.sessions, List.append_nil]
    exact run_modify_ok
  | some kind =>
    change _ ↔ ∃ d, (definedValue row >>= _) = some d ∧ _
    rw [exists_bind_eq_some, ← definedValue]
    cases definedValue row with
    | none => exact iff_of_false run_throw_ok (by simp)
    | some body =>
      simp only [Option.some.injEq, exists_eq_left', exists_bind_eq_some]
      refine run_lift_bind_ok.trans (exists_congr fun found => ?_)
      rw [Outcome.inContext_ok, (declared_placeless _ _ _ _ _).ok_iff]
      refine and_congr_right fun _ => ?_
      exact declare_ok

/-- All rows are read by themselves, and add what they declare one after another. -/
theorem declarationRows_ok {keep : Bool} {i : Nat} {rows : List (Table Json)} {s s' : Survey} :
    (forEach (declarationRow keep) i rows).run.run s = (.ok (), s') ↔
      (∀ row ∈ rows, (declaration? keep row).isSome = true) ∧
        s' = (rows.filterMap (declaration? keep)).foldl Survey.declare s := by
  induction rows generalizing i s with
  | nil =>
    constructor
    · rintro ⟨⟩
      exact ⟨List.forall_mem_nil _, rfl⟩
    · rintro ⟨-, rfl⟩
      rfl
  | cons row rest ih =>
    rw [forEach, run_bind_ok, List.forall_mem_cons]
    constructor
    · rintro ⟨_, t, first, later⟩
      obtain ⟨d, read, rfl⟩ := declarationRow_ok.mp first
      obtain ⟨others, same⟩ := ih.mp later
      rw [List.filterMap_cons_some read]
      exact ⟨⟨Option.isSome_of_eq_some read, others⟩, same⟩
    · rintro ⟨⟨here, others⟩, same⟩
      obtain ⟨d, read⟩ := Option.isSome_iff_exists.mp here
      rw [List.filterMap_cons_some read] at same
      exact ⟨(), s.declare d, declarationRow_ok.mpr ⟨d, read, rfl⟩, ih.mpr ⟨others, same⟩⟩

end Drafting

/-! ### Surveys with declarations -/

namespace Drafting.Declaration

/-- Declarations add policies, lists and sets to a draft, each kind by itself. -/
theorem foldl_apply (ds : List Declaration) (draft : Draft) :
    ds.foldl (fun draft d => d.apply draft) draft = { draft with
      policies := draft.policies.putAll (ds.filterMap (named? Declared.policy?))
      definitions := ⟨draft.definitions.lists.putAll (ds.filterMap (named? Declared.lines?)),
        draft.definitions.sets.putAll (ds.filterMap (named? Declared.members?))⟩ } := by
  induction ds generalizing draft with
  | nil => rfl
  | cons d rest ih =>
    rw [List.foldl_cons, ih, List.filterMap_cons, List.filterMap_cons, List.filterMap_cons]
    rcases d with ⟨node, type, name, _ | _ | _ | _ | _⟩ <;> rfl

end Drafting.Declaration

namespace Survey

variable {ds : List Declaration} {s : Survey}

theorem sessions_declare (ds : List Declaration) (s : Survey) :
    (ds.foldl declare s).sessions = s.sessions ++ ds.flatMap Declaration.sessions := by
  induction ds generalizing s with
  | nil => simp
  | cons d rest ih => rw [List.foldl_cons, ih, declare, List.flatMap_cons, List.append_assoc]

/-- Declarations say nothing about the owners of addresses. -/
theorem owners_declare (ds : List Declaration) (s : Survey) :
    (ds.foldl declare s).owners = s.owners :=
  List.foldlRecOn (motive := fun t : Survey => t.owners = s.owners) ds declare rfl
    fun _ same _ _ => same

theorem edges_declare (ds : List Declaration) (s : Survey) :
    (ds.foldl declare s).edges = s.edges :=
  List.foldlRecOn (motive := fun t : Survey => t.edges = s.edges) ds declare rfl
    fun _ same _ _ => same

theorem nodup_declare (distinct : s.drafts.names.Nodup) :
    (ds.foldl declare s).drafts.names.Nodup :=
  List.foldlRecOn (motive := fun t : Survey => t.drafts.names.Nodup) ds declare distinct
    fun _ distinct _ _ => Table.nodup_put distinct

/-- The draft of a node has what the declarations of the node add. -/
theorem draft_declare (ds : List Declaration) (s : Survey) (name : String) :
    (ds.foldl declare s).draft name = (ds.filter (·.node = name)).foldl
      (fun draft d => d.apply draft) (s.draft name) := by
  induction ds generalizing s with
  | nil => rfl
  | cons d rest ih =>
    have here : (s.declare d).draft name =
        if d.node = name then d.apply (s.draft d.node) else s.draft name :=
      draft_draftedAs s d.node name _
    rw [List.foldl_cons, ih, here, List.filter_cons]
    by_cases own : d.node = name
    · subst own
      simp
    · simp [own]

/-- The nodes are those there were and those that declarations name. -/
theorem mem_names_declare {name : String} : name ∈ (ds.foldl declare s).drafts.names ↔
    name ∈ s.drafts.names ∨ ∃ d ∈ ds, d.node = name := by
  induction ds generalizing s with
  | nil => simp
  | cons d rest ih =>
    have here : name ∈ (s.declare d).drafts.names ↔ d.node = name ∨ name ∈ s.drafts.names := by
      rw [← Table.has_iff, ← Table.has_iff]
      exact s.drafts.has_put d.node _
    rw [List.foldl_cons, ih, here, List.exists_mem_cons_iff, or_comm (a := d.node = name), or_assoc]

end Survey

end RoutePolicy
