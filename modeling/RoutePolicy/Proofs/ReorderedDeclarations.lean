import RoutePolicy.Proofs.BuiltTopologies
import RoutePolicy.Proofs.Declarations
import RoutePolicy.Proofs.MirroredSurveys

/-!
The order of declarations. What they declare is collected under names before any later step looks at
it, so declarations in another order leave a survey that differs in the order of names only; all
later steps keep that, and the topologies they make have the same chains and the same fingerprint.
Sessions are not kept under names: routing instances have to stay in order.
-/

set_option autoImplicit false

namespace RoutePolicy

open Drafting (Declaration Declared)

/-! ### Declarations -/

namespace Tables

/-- What a row of the table of declarations is about: the node, the type and the name of a
structure, if all of them are there. -/
def declarationKey? (item : Json) : Option (String × String × String) := do
  let row ← item.members?
  let node ← (Tables.node (row.get? "Node") []).toOption
  let type ← (text row "Structure_Type" []).toOption
  let name ← (text row "Structure_Name" []).toOption
  some (node, type, name)

/-- Whether a row declares a routing instance. -/
def isInstance (item : Json) : Bool :=
  (item.members?.bind fun row => (text row "Structure_Type" []).toOption) = some "VRF"

/-- Rows of the table of declarations in another order. They are about different structures, and
routing instances stay in order. -/
structure Reordered (items others : List Json) : Prop where
  perm : items.Perm others
  instances : items.filter isInstance = others.filter isInstance
  distinct : (items.filterMap declarationKey?).Nodup

end Tables

namespace Drafting

namespace Declared

theorem kind_of_policy? (x : Declared) (p : Policy) (found : x.policy? = some p) :
    x.kind = .routingPolicy := by
  cases x <;> cases found
  rfl

theorem kind_of_lines? (x : Declared) (lines : List ListLine) (found : x.lines? = some lines) :
    x.kind = .routeFilterList := by
  cases x <;> cases found
  rfl

theorem kind_of_members? (x : Declared) (e : Expr) (found : x.members? = some e) :
    x.kind = .communitySet := by
  cases x <;> cases found
  rfl

end Declared

/-- What a value among the declarations says, if it is a row that can be read. -/
def said? (keep : Bool) (item : Json) : Option Declaration :=
  item.members?.bind (declaration? keep)

def Declaration.key (d : Declaration) : String × String × String := (d.node, d.type, d.name)

/-- What a declaration declares is of its type. -/
def Declaration.Typed (d : Declaration) : Prop :=
  d.found.map Declared.kind = Tables.StructureType.ofName? d.type

section

variable {keep : Bool} {item : Json} {d : Declaration}

theorem said?_some (read : said? keep item = some d) : Tables.declarationKey? item = some d.key ∧
    (Tables.isInstance item = true ↔ d.type = "VRF") ∧ d.Typed := by
  obtain ⟨row, object, read⟩ := Option.bind_eq_some_iff.mp read
  obtain ⟨node, type, name, kind⟩ := declaration?_some read
  have texts : ∀ {key found}, row.get? key = some (.str found) →
      (Tables.text row key []).toOption = some found :=
    fun cell => Outcome.toOption_some.mpr (Tables.text_ok.mpr cell)
  refine ⟨?_, ?_, kind⟩
  · simp [Tables.declarationKey?, object, Outcome.toOption_some.mpr node, texts type, texts name,
      Declaration.key]
  · simp [Tables.isInstance, object, texts type]

/-- Rows are read by themselves, and add what they say one after another. -/
theorem declarations_ok {table : String} {items : List Json} {s s' : Survey} :
    (do
      let rows ← lift (Tables.rowsFrom table 0 items)
      forEach (declarationRow keep) 0 rows : Drafting Unit).run.run s = (.ok (), s') ↔
      (∀ item ∈ items, (said? keep item).isSome = true) ∧
        s' = (items.filterMap (said? keep)).foldl Survey.declare s := by
  have said : (items.filterMap Json.members?).filterMap (declaration? keep) =
      items.filterMap (said? keep) := List.filterMap_filterMap
  simp only [run_lift_bind_ok, Tables.rowsFrom_ok, declarationRows_ok]
  constructor
  · rintro ⟨_, ⟨objects, rfl⟩, readable, rfl⟩
    refine ⟨fun item member => ?_, by rw [said]⟩
    obtain ⟨row, object⟩ := Option.isSome_iff_exists.mp (objects item member)
    rw [said?, object]
    exact readable row (List.mem_filterMap.mpr ⟨item, member, object⟩)
  · rintro ⟨readable, rfl⟩
    refine ⟨_, ⟨fun item member => ?_, rfl⟩, fun row member => ?_, by rw [said]⟩
    · exact Option.isSome_of_isSome_bind (readable item member)
    · obtain ⟨item, inside, object⟩ := List.mem_filterMap.mp member
      have own := readable item inside
      rwa [said?, object] at own

end

/-- Entries of one kind for one node have different names. -/
theorem Declaration.nodup_entries {α : Type} {part : Declared → Option α}
    {kind : Tables.StructureType} (parts : ∀ x a, part x = some a → x.kind = kind)
    {ds : List Declaration} (typed : ∀ d ∈ ds, d.Typed) (distinct : (ds.map key).Nodup)
    (node : String) :
    (Table.names ((ds.filter (·.node = node)).filterMap (named? part))).Nodup := by
  have entries : ∀ d ∈ ds, ∀ entry, d.named? part = some entry →
      entry.1 = d.name ∧ d.type = kind.word := by
    intro d member entry own
    obtain ⟨a, found, rfl⟩ := Option.map_eq_some_iff.mp own
    obtain ⟨x, there, taken⟩ := Option.bind_eq_some_iff.mp found
    have same := typed d member
    rw [Declaration.Typed, there, Option.map_some, parts x a taken, eq_comm,
      Tables.StructureType.ofName?_some] at same
    exact ⟨rfl, same⟩
  rw [Table.names, List.Nodup, List.pairwise_map, List.pairwise_filterMap]
  have apart := (List.pairwise_map.mp distinct).filter (·.node = node)
  refine apart.imp_of_mem fun {d d'} member member' different entry own entry' own' same => ?_
  obtain ⟨inside, here⟩ := List.mem_filter.mp member
  obtain ⟨inside', here'⟩ := List.mem_filter.mp member'
  obtain ⟨name, type⟩ := entries d inside entry own
  obtain ⟨name', type'⟩ := entries d' inside' entry' own'
  apply different
  have nodes : d.node = d'.node := (of_decide_eq_true here).trans (of_decide_eq_true here').symm
  rw [key, key, nodes, type, type', ← name, ← name', same]

theorem Declaration.sessions_eq_nil {d : Declaration} (typed : d.Typed) (other : d.type ≠ "VRF") :
    d.sessions = [] := by
  unfold Declaration.sessions
  split
  · rename_i neighbors found
    have named : Tables.StructureType.ofName? d.type = some .vrf := by
      rw [← typed, found]
      rfl
    exact absurd (Tables.StructureType.ofName?_some.mp named) other
  · rfl

/-- All sessions are those of routing instances. -/
theorem sessions_instances (keep : Bool) (items : List Json) :
    (items.filterMap (said? keep)).flatMap Declaration.sessions =
      ((items.filter Tables.isInstance).filterMap (said? keep)).flatMap Declaration.sessions := by
  induction items with
  | nil => rfl
  | cons item rest ih =>
    cases routing : Tables.isInstance item with
    | true =>
      rw [List.filter_cons_of_pos routing]
      cases read : said? keep item with
      | none => simp only [List.filterMap_cons, read, ih]
      | some d => simp only [List.filterMap_cons, read, List.flatMap_cons, ih]
    | false =>
      rw [List.filter_cons_of_neg (by simp [routing])]
      cases read : said? keep item with
      | none => simp only [List.filterMap_cons, read, ih]
      | some d =>
        obtain ⟨-, same, typed⟩ := said?_some read
        rw [routing, Bool.false_eq_true, false_iff] at same
        have none := d.sessions_eq_nil typed same
        simp only [List.filterMap_cons, read, List.flatMap_cons, none, List.nil_append, ih]

end Drafting

/-- Surveys with the same declarations in another order. -/
theorem Survey.Shuffled.declare {s t : Survey} (shuffled : s.Shuffled t) {ds es : List Declaration}
    (perm : ds.Perm es) (typed : ∀ d ∈ ds, d.Typed) (distinct : (ds.map Declaration.key).Nodup)
    (sessions : ds.flatMap Declaration.sessions = es.flatMap Declaration.sessions) :
    (ds.foldl Survey.declare s).Shuffled (es.foldl Survey.declare t) where
  distinct := nodup_declare shuffled.distinct
  others := nodup_declare shuffled.others
  known name := by
    have known := shuffled.known name
    rw [Bool.eq_iff_iff, Table.has_iff, Table.has_iff] at known ⊢
    rw [mem_names_declare, mem_names_declare, known]
    simp only [perm.mem_iff]
  drafts name := by
    have entries : ∀ {α : Type} {part : Declared → Option α} (kind : Tables.StructureType),
        (∀ x a, part x = some a → x.kind = kind) →
          Table.Shuffled ((ds.filter (·.node = name)).filterMap (Declaration.named? part))
            ((es.filter (·.node = name)).filterMap (Declaration.named? part)) :=
      fun kind parts => ⟨(perm.filter _).filterMap _,
        Declaration.nodup_entries parts typed distinct name⟩
    have policies := entries .routingPolicy Declared.kind_of_policy?
    have lists := entries .routeFilterList Declared.kind_of_lines?
    have sets := entries .communitySet Declared.kind_of_members?
    have base := shuffled.drafts name
    rw [draft_declare, draft_declare, Declaration.foldl_apply, Declaration.foldl_apply]
    exact { base with
      policies := base.policies.putAll policies
      definitions := ⟨fun key => lists.get?_putAll (base.definitions.lists key),
        fun key => sets.get?_putAll (base.definitions.sets key)⟩ }
  sessions := by rw [sessions_declare, sessions_declare, shuffled.sessions, sessions]
  owners := by rw [owners_declare, owners_declare, shuffled.owners]
  edges := by rw [edges_declare, edges_declare, shuffled.edges]

namespace Drafting

theorem mirrors_declarations {keep : Bool} {table : String} {items others : List Json}
    (reordered : Tables.Reordered items others) :
    Mirrors (do
        let rows ← lift (Tables.rowsFrom table 0 items)
        forEach (declarationRow keep) 0 rows) (do
        let rows ← lift (Tables.rowsFrom table 0 others)
        forEach (declarationRow keep) 0 rows) Eq := by
  intro s s' _ t shuffled done
  obtain ⟨readable, rfl⟩ := declarations_ok.mp done
  have again := (@declarations_ok keep table others s' _).mpr
    ⟨fun item member => readable item (reordered.perm.mem_iff.mpr member), rfl⟩
  refine ⟨(), _, again, ?_, rfl⟩
  have keys : (items.filterMap (said? keep)).map Declaration.key =
      items.filterMap Tables.declarationKey? := by
    rw [List.map_filterMap]
    refine List.filterMap_congr fun item member => ?_
    obtain ⟨d, read⟩ := Option.isSome_iff_exists.mp (readable item member)
    rw [read, (said?_some read).1]
    rfl
  apply shuffled.declare (reordered.perm.filterMap _)
  · intro d member
    obtain ⟨item, -, read⟩ := List.mem_filterMap.mp member
    exact (said?_some read).2.2
  · exact keys ▸ reordered.distinct
  · rw [sessions_instances keep items, sessions_instances keep others, reordered.instances]

/-- Tables with their declarations in another order make shuffled topologies. -/
theorem mirrors_topology {keep : Bool} {raw raw' : Json} {tables tables' : Table Json}
    {items others : List Json} (object : raw.members? = some tables)
    (object' : raw'.members? = some tables')
    (same : ∀ name ≠ "declarations", tables.get? name = tables'.get? name)
    (listed : tables.get? "declarations" = some (.arr items))
    (listed' : tables'.get? "declarations" = some (.arr others))
    (reordered : Tables.Reordered items others) :
    Mirrors (topology keep raw) (topology keep raw') Topology.Shuffled := by
  have rows : ∀ name required, name ≠ "declarations" →
      Tables.rows tables name required = Tables.rows tables' name required := by
    intro name required other
    rw [Tables.rows, Tables.rows, same name other]
  unfold topology
  rw [object, object']
  dsimp only
  rw [rows "nodes" _ (by decide), rows "interfaces" _ (by decide), rows "ips" _ (by decide),
    rows "topology" _ (by decide), rows "issues" _ (by decide)]
  have declarations : Tables.rows tables "declarations" true =
      Tables.rowsFrom "declarations" 0 items := by
    rw [Tables.rows, listed]
  have declarations' : Tables.rows tables' "declarations" true =
      Tables.rowsFrom "declarations" 0 others := by
    rw [Tables.rows, listed']
  rw [declarations, declarations']
  apply Mirrors.bind (Mirrors.lift _)
  intro nodes
  apply Mirrors.bind (Mirrors.forEach _ _ fun i row _ => mirrors_nodeRow i row)
  intro _
  apply Mirrors.bind_bind (mirrors_declarations reordered)
  intro _
  apply Mirrors.bind_bind mirrors_inlineDrafts
  intro _
  apply Mirrors.bind (Mirrors.lift _)
  intro interfaces
  apply Mirrors.bind (Mirrors.forEach _ _ fun i row _ => mirrors_interfaceRow i row)
  intro _
  apply Mirrors.bind (Mirrors.lift _)
  intro addresses
  apply Mirrors.bind (Mirrors.forEach _ _ fun i row _ => mirrors_addressRow i row)
  intro _
  apply Mirrors.bind (Mirrors.lift _)
  intro links
  apply Mirrors.bind (Mirrors.forEach _ _ fun i row _ => mirrors_linkRow i row)
  intro _
  apply Mirrors.get_bind
  intro s s' shuffled
  rw [shuffled.sessions]
  apply Mirrors.bind (Mirrors.forEach _ _ fun i n _ => mirrors_session i n)
  intro _
  apply Mirrors.bind (Mirrors.lift _)
  intro issues
  split
  · exact mirrors_create
  · apply Mirrors.bind (mirrors_log _ _)
    intro _
    exact mirrors_create

end Drafting

/-! ### Reordered documents -/

theorem Tables.Reordered.symm {items others : List Json} (reordered : Reordered items others) :
    Reordered others items :=
  ⟨reordered.perm.symm, reordered.instances.symm,
    (reordered.perm.filterMap _).nodup_iff.mp reordered.distinct⟩

/-- A member that is finite like the one it replaces leaves an object as finite as it was. -/
theorem Json.isFinite_put {members : Table Json} {key : String} {old value : Json}
    (found : members.get? key = some old) (same : value.isFinite = old.isFinite) :
    (Json.obj (members.put key value)).isFinite = (Json.obj members).isFinite := by
  simp only [isFinite]
  induction members with
  | nil => cases found
  | cons entry rest ih =>
    rw [Table.get?] at found
    rw [Table.put]
    split at found
    · rename_i own
      cases found
      rw [if_pos own, membersFinite, membersFinite, same]
    · rename_i own
      rw [if_neg own, membersFinite, membersFinite, ih found]

theorem Json.isFinite_perm {items others : List Json} (perm : items.Perm others) :
    (Json.arr items).isFinite = (Json.arr others).isFinite := by
  rw [Bool.eq_iff_iff, isFinite_arr, isFinite_arr]
  simp only [perm.mem_iff]

namespace Topology

variable {keep : Bool} {tables tables' : Table Json} {items others : List Json}

/-- Tables with their declarations in another order make a shuffled topology. -/
theorem exists_shuffled (finite : (Json.obj tables).isFinite = (Json.obj tables').isFinite)
    (same : ∀ name ≠ "declarations", tables.get? name = tables'.get? name)
    (listed : tables.get? "declarations" = some (.arr items))
    (listed' : tables'.get? "declarations" = some (.arr others))
    (reordered : Tables.Reordered items others) {t : Topology}
    (built : (ofTables keep (.obj tables)).1 = .ok t) :
    ∃ u, (ofTables keep (.obj tables')).1 = .ok u ∧ t.Shuffled u := by
  obtain ⟨s, ran⟩ := ofTables_ok.mp built
  cases whole : (Json.obj tables).isFinite with
  | false =>
    have none : (Json.obj tables).members? = none := by simp [Json.members?, whole]
    rw [Drafting.topology, none] at ran
    cases ran
  | true =>
    have object : (Json.obj tables).members? = some tables := by simp [Json.members?, whole]
    have object' : (Json.obj tables').members? = some tables' := by
      simp [Json.members?, ← finite, whole]
    obtain ⟨u, s', ran', -, shuffled⟩ :=
      Drafting.mirrors_topology object object' same listed listed' reordered
        .empty .empty t s Survey.shuffled_empty ran
    exact ⟨u, ofTables_ok.mpr ⟨s', ran'⟩, shuffled⟩

/-- The order of declarations does not matter, routing instances apart. -/
theorem same_of_reordered (listed : tables.get? "declarations" = some (.arr items))
    (reordered : Tables.Reordered items others) :
    ((∃ t, (ofTables keep (.obj tables)).1 = .ok t) ↔
      ∃ u, (ofTables keep (.obj (tables.put "declarations" (.arr others)))).1 = .ok u) ∧
    ∀ t u, (ofTables keep (.obj tables)).1 = .ok t →
      (ofTables keep (.obj (tables.put "declarations" (.arr others)))).1 = .ok u →
        t.fingerprint = u.fingerprint ∧ t.edges = u.edges ∧ ∀ e, t.chains e = u.chains e ∧
          t.importChain e = u.importChain e ∧ t.exportChain e = u.exportChain e := by
  have finite := Json.isFinite_put listed (Json.isFinite_perm reordered.perm.symm)
  have same : ∀ name ≠ "declarations",
      tables.get? name = (tables.put "declarations" (.arr others)).get? name := by
    intro name other
    rw [Table.get?_put, if_neg (Ne.symm other)]
  have listed' : (tables.put "declarations" (.arr others)).get? "declarations" =
      some (.arr others) := by
    rw [Table.get?_put, if_pos rfl]
  refine ⟨⟨?_, ?_⟩, fun t u built built' => ?_⟩
  · rintro ⟨t, built⟩
    obtain ⟨u, built', -⟩ := exists_shuffled finite.symm same listed listed' reordered built
    exact ⟨u, built'⟩
  · rintro ⟨u, built⟩
    obtain ⟨t, built', -⟩ := exists_shuffled finite (fun name other => (same name other).symm)
      listed' listed reordered.symm built
    exact ⟨t, built'⟩
  · obtain ⟨v, again, shuffled⟩ := exists_shuffled finite.symm same listed listed' reordered built
    obtain rfl := Except.ok.inj (again.symm.trans built')
    obtain ⟨created, -⟩ := made_of_ofTables (Draft.kempt_invariant keep) trivial built
    obtain ⟨created', -⟩ := made_of_ofTables (Draft.kempt_invariant keep) trivial built'
    have named := kempt_of_ofTables built
    have distinct := (create_iff.mp created).2.distinct
    have distinct' := (create_iff.mp created').2.distinct
    refine ⟨?_, shuffled.edges, fun e => ?_⟩
    · exact shuffled.fingerprint distinct distinct' fun n member => (named n member).named
    · exact ⟨shuffled.chains e, shuffled.importChain e, shuffled.exportChain e⟩

end Topology

/-! ### A policy that is declared after the one it calls -/

namespace Surveyed

def caller : Json := declaration "P" Leftovers.calling

def callee : Json := declaration "Q" Leftovers.ending

theorem reordered : Tables.Reordered [caller, callee] [callee, caller] where
  perm := List.Perm.swap _ _ _
  instances := by with_unfolding_all rfl
  distinct := by
    have keys : [caller, callee].filterMap Tables.declarationKey? =
        [("a", "Routing_Policy", "P"), ("a", "Routing_Policy", "Q")] := by
      with_unfolding_all rfl
    rw [keys]
    decide

/-- The members of `tables`. -/
def members : Table Json :=
  [("nodes", .arr [.obj [("Node", .str "a"), ("AS", .int 65001)]]),
    ("declarations", .arr [caller, callee]), ("interfaces", .arr [exporting]), ("ips", .arr []),
    ("topology", .arr [])]

end Surveyed

theorem callee_declared_first :
    Surveyed.members.get? "declarations" = some (.arr [Surveyed.caller, Surveyed.callee]) ∧
    Tables.Reordered [Surveyed.caller, Surveyed.callee] [Surveyed.callee, Surveyed.caller] ∧
    ∃ u, (Topology.ofTables false (.obj (Surveyed.members.put "declarations"
      (.arr [Surveyed.callee, Surveyed.caller])))).1 = .ok u ∧
        (Surveyed.topology 65001).fingerprint = u.fingerprint := by
  have listed : Surveyed.members.get? "declarations" =
      some (.arr [Surveyed.caller, Surveyed.callee]) := rfl
  obtain ⟨both, same⟩ := @Topology.same_of_reordered false _ _ _ listed Surveyed.reordered
  obtain ⟨u, built⟩ := both.mp ⟨_, Surveyed.drafted⟩
  exact ⟨listed, Surveyed.reordered, u, built, (same _ u Surveyed.drafted built).1⟩

end RoutePolicy
