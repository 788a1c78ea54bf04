import RoutePolicy.Proofs.DraftingSteps
import RoutePolicy.Proofs.Inlining
import RoutePolicy.Proofs.Loading

/-!
What drafting from analysis tables promises of the nodes of a topology: whatever holds of an empty
draft and is kept by what rows do to drafts holds of the draft of every node. Such a property is what
all expressions have that are read, if written out definitions keep it.
-/

set_option autoImplicit false

namespace RoutePolicy

/-- A property `I` of drafts that nothing breaks but, perhaps, declarations. The AS numbers that rows
give have the property `A`. -/
structure Draft.Kept (A : Int → Prop) (I : Draft → Prop) : Prop where
  empty : I .empty
  asn : ∀ d asn, I d → A asn → I { d with asn := some asn }
  external : ∀ d, I d → I { d with external := true }
  networks : ∀ d texts, I d → I { d with networks := texts }
  interface : ∀ d name chains, I d → I { d with interfaces := d.interfaces.put name chains }

/-- A property `I` of drafts that no row breaks. Rows are made of values with the property `G`. -/
structure Draft.Invariant (keep : Bool) (G : Json → Prop) (A : Int → Prop) (I : Draft → Prop) :
    Prop extends Draft.Kept A I where
  hereditary : Json.Hereditary G
  number : ∀ n asn, G (.num n) → n.toInt? = some asn → A asn
  text : ∀ j (asn : Nat), G j → Tables.asn? j = some asn → A asn
  policy : ∀ d name j block, I d → G j → Encoding.readStatements keep j = .ok block →
    I { d with policies := d.policies.put name ⟨name, block⟩ }
  list : ∀ d name lines, I d →
    I { d with definitions := { d.definitions with lists := d.definitions.lists.put name lines } }
  set : ∀ d name j e, I d → G j → Encoding.readExpr keep j = .ok e →
    e.simplify.communities?.isSome = true →
    I { d with definitions :=
      { d.definitions with sets := d.definitions.sets.put name e.simplify } }
  inlined : ∀ d node policies d', I d →
    Drafting.inlinePolicies node d.definitions d.policies = .ok policies → I d' →
    I { d' with policies := policies }

/-- A property `J` of drafts that comes of `I` when definitions are written out, and that no later
row breaks. -/
structure Draft.Inlined (A : Int → Prop) (I J : Draft → Prop) : Prop extends Draft.Kept A J where
  written : ∀ d node policies d', I d →
    Drafting.inlinePolicies node d.definitions d.policies = .ok policies → I d' →
    J { d' with policies := policies }

theorem Draft.Invariant.toInlined {keep : Bool} {G : Json → Prop} {A : Int → Prop}
    {I : Draft → Prop} (invariant : Draft.Invariant keep G A I) : Draft.Inlined A I I :=
  ⟨invariant.toKept, invariant.inlined⟩

/-! ### Tables -/

/-- The rows of a table are its items, all of them objects. -/
theorem Tables.rowsFrom_ok {table : String} {i : Nat} {items : List Json}
    {rows : List (Table Json)} :
    rowsFrom table i items = .ok rows ↔
      (∀ item ∈ items, item.members?.isSome = true) ∧ rows = items.filterMap Json.members? := by
  induction items generalizing i rows with
  | nil =>
    constructor
    · rintro ⟨⟩
      exact ⟨List.forall_mem_nil _, rfl⟩
    · rintro ⟨-, rfl⟩
      rfl
  | cons item rest ih =>
    rw [rowsFrom, List.forall_mem_cons, List.filterMap_cons]
    cases item.members? with
    | none =>
      constructor
      · rintro ⟨⟩
      · rintro ⟨⟨⟨⟩, _⟩, _⟩
    | some row =>
      simp only [Outcome.bind_ok, ih, Except.ok.injEq, Option.isSome_some, true_and]
      constructor
      · rintro ⟨_, ⟨each, rfl⟩, rfl⟩
        exact ⟨each, rfl⟩
      · rintro ⟨each, rfl⟩
        exact ⟨_, ⟨each, rfl⟩, rfl⟩

namespace Drafting

variable {keep : Bool} {G : Json → Prop} {A : Int → Prop} {I : Draft → Prop}

theorem members?_all {j : Json} {members : Table Json} (known : G j)
    (found : j.members? = some members) : G (.obj members) := by
  unfold Json.members? at found
  split at found
  · split at found
    · cases found
      exact known
    · cases found
  · cases found

theorem rowsFrom_all {table : String} {i : Nat} {items : List Json} {rows : List (Table Json)}
    (known : ∀ item ∈ items, G item) (found : Tables.rowsFrom table i items = .ok rows) :
    ∀ row ∈ rows, G (.obj row) := by
  obtain ⟨-, rfl⟩ := Tables.rowsFrom_ok.mp found
  intro row member
  obtain ⟨item, inside, object⟩ := List.mem_filterMap.mp member
  exact members?_all (known item inside) object

theorem rows_all (hereditary : Json.Hereditary G) {raw : Table Json} {table : String}
    {required : Bool} {rows : List (Table Json)} (known : G (.obj raw))
    (found : Tables.rows raw table required = .ok rows) : ∀ row ∈ rows, G (.obj row) := by
  unfold Tables.rows at found
  split at found
  · rename_i items list
    have all := hereditary.items items ((hereditary.members raw known).get? list)
    exact rowsFrom_all all found
  · split at found
    · cases found
    · cases found
      exact nofun
  · cases found

/-- The AS numbers of a session have a property. -/
def KnownAsns (A : Int → Prop) (n : Tables.Neighbor) : Prop :=
  (∀ asn ∈ n.localAs, A asn) ∧ ∀ asn ∈ n.remoteAs, A asn

theorem optionalAsn_all (invariant : Draft.Invariant keep G A I) {row : Table Json} {key : String}
    {place : Location} {found : Option Nat} (known : G (.obj row))
    (done : Tables.optionalAsn row key place = .ok found) : ∀ asn ∈ found, A asn := by
  unfold Tables.optionalAsn at done
  split at done
  · cases done
    exact nofun
  · cases done
    exact nofun
  · rename_i j _ cell
    split at done
    · rename_i asn number
      cases done
      rintro _ ⟨⟩
      have own := (invariant.hereditary.members row known).get? cell
      exact invariant.text j asn own number
    · cases done

theorem neighbor_all (invariant : Draft.Invariant keep G A I) {node key : String} {j : Json}
    {place : Location} {n : Tables.Neighbor} (known : G j)
    (done : Tables.neighbor node key j place = .ok n) : KnownAsns A n := by
  unfold Tables.neighbor at done
  split at done
  · cases done
  · rename_i config object
    have own := members?_all known object
    obtain ⟨peer, -, done⟩ := Outcome.bind_ok.mp done
    dsimp only at done
    split at done
    · cases done
    · obtain ⟨localIp, -, done⟩ := Outcome.bind_ok.mp done
      obtain ⟨localAs, here, done⟩ := Outcome.bind_ok.mp done
      obtain ⟨remoteAs, there, done⟩ := Outcome.bind_ok.mp done
      obtain ⟨policies, -, same⟩ := Outcome.bind_ok.mp done
      cases same
      exact ⟨optionalAsn_all invariant own here, optionalAsn_all invariant own there⟩

theorem neighborTable_all (invariant : Draft.Invariant keep G A I) {node : String}
    {place : Location} {table : Table Json} {ns : List Tables.Neighbor} (known : table.All G)
    (done : Tables.neighborTable node place table = .ok ns) : ∀ n ∈ ns, KnownAsns A n := by
  induction table generalizing ns with
  | nil =>
      cases done
      exact nofun
  | cons entry rest ih =>
      obtain ⟨here, further⟩ := List.forall_mem_cons.mp known
      obtain ⟨first, own, done⟩ := Outcome.bind_ok.mp done
      obtain ⟨others, later, same⟩ := Outcome.bind_ok.mp done
      cases same
      exact List.forall_mem_cons.mpr ⟨neighbor_all invariant here own, ih further later⟩

theorem neighbors_all (invariant : Draft.Invariant keep G A I) {node : String} {body : Table Json}
    {place : Location} {ns : List Tables.Neighbor} (known : G (.obj body))
    (done : Tables.neighbors node body place = .ok ns) : ∀ n ∈ ns, KnownAsns A n := by
  have parts : ∀ {members : Table Json} {key : String} {value : Json}, G (.obj members) →
      members.get? key = some value → G value :=
    fun own found => (invariant.hereditary.members _ own).get? found
  unfold Tables.neighbors at done
  split at done
  · cases done
    exact nofun
  · cases done
    exact nofun
  · rename_i process _ cell
    dsimp only at done
    split at done
    · cases done
    · rename_i config object
      have inner := members?_all (parts known cell) object
      split at done
      · cases done
        exact nofun
      · cases done
        exact nofun
      · rename_i table _ listed
        split at done
        · cases done
        · rename_i entries object
          have own := members?_all (parts inner listed) object
          exact neighborTable_all invariant (invariant.hereditary.members entries own) done

/-! ### Rows -/

/-- What holds of a survey while rows are read. -/
structure Holds (A : Int → Prop) (I : Draft → Prop) (s : Survey) : Prop where
  distinct : s.drafts.names.Nodup
  drafts : s.drafts.All I
  sessions : ∀ n ∈ s.sessions, KnownAsns A n

section

variable (kept : Draft.Kept A I)

include kept

theorem Holds.draft {s : Survey} (holds : Holds A I s) (name : String) : I (s.draft name) := by
  unfold Survey.draft
  cases found : s.drafts.get? name with
  | none => exact kept.empty
  | some d => exact holds.drafts.get? found

theorem keeps_update {name : String} {change : Draft → Draft} (keeps : ∀ d, I d → I (change d)) :
    Keeps (Holds A I) (Drafting.update name change) fun _ => True :=
  Takes.modify fun _ holds =>
    ⟨Table.nodup_put holds.distinct,
      Table.All.put holds.drafts (keeps _ (holds.draft kept name)), holds.sessions⟩

theorem keeps_touch (name : String) :
    Keeps (Holds A I) (Drafting.touch name) fun _ => True :=
  keeps_update kept fun _ holds => holds

end

/-- What changes neither drafts nor sessions changes nothing. -/
theorem keeps_modify {change : Survey → Survey} (drafts : ∀ s, (change s).drafts = s.drafts)
    (sessions : ∀ s, (change s).sessions = s.sessions) :
    Keeps (Holds A I) (modify change : Drafting Unit) fun _ => True := by
  refine Takes.modify fun s holds => ⟨?_, ?_, ?_⟩
  · rw [drafts]
    exact holds.distinct
  · rw [drafts]
    exact holds.drafts
  · rw [sessions]
    exact holds.sessions

theorem keeps_log (entry : LogEntry) : Keeps (Holds A I) (Drafting.log entry) fun _ => True :=
  keeps_modify (fun _ => rfl) fun _ => rfl

/-! ### Nodes and their declarations -/

section

variable (invariant : Draft.Invariant keep G A I)

include invariant

theorem keeps_nodeRow (i : Nat) {row : Table Json} (known : G (.obj row)) :
    Keeps (Holds A I) (nodeRow i row) fun _ => True := by
  apply Takes.bind Keeps.lift
  intro name _
  apply Takes.bind (keeps_touch invariant.toKept name)
  intro _ _
  split
  · rename_i n cell
    split
    · rename_i asn number
      have own := (invariant.hereditary.members row known).get? cell
      have fine := invariant.number n asn own number
      exact keeps_update invariant.toKept fun d holds => invariant.asn d asn holds fine
    · exact Keeps.pure trivial
  · exact Keeps.pure trivial

/-- What a declaration adds is read from the values of its row. -/
def Declared.Known (keep : Bool) (G : Json → Prop) (A : Int → Prop) (name : String) :
    Declared → Prop
  | .policy p => ∃ j block, G j ∧ Encoding.readStatements keep j = .ok block ∧ p = ⟨name, block⟩
  | .set members => ∃ j e, G j ∧ Encoding.readExpr keep j = .ok e ∧ members = e.simplify ∧
      members.communities?.isSome = true
  | .sessions neighbors => ∀ n ∈ neighbors, KnownAsns A n
  | .list _ => True

theorem declared_known {node name : String} {body : Table Json} {place : Location}
    {type : Tables.StructureType} {found : Declared} (known : G (.obj body))
    (done : declared keep node name body place type = .ok found) :
    found.Known keep G A name := by
  cases type with
  | routingPolicy =>
      obtain ⟨block, read, same⟩ := Outcome.bind_ok.mp done
      cases same
      refine ⟨_, block, ?_, Outcome.under_ok.mp read, rfl⟩
      cases cell : body.get? "statements" with
      | none => exact invariant.hereditary.null
      | some value => exact (invariant.hereditary.members body known).get? cell
  | routeFilterList =>
      obtain ⟨lines, _, same⟩ := Outcome.bind_ok.mp done
      cases same
      trivial
  | communitySet =>
      obtain ⟨set, found, same⟩ := Outcome.bind_ok.mp done
      cases same
      obtain ⟨e, read, found⟩ := Outcome.bind_ok.mp found
      split at found
      · rename_i members constant
        cases found
        exact ⟨_, e, known, Outcome.under_ok.mp read, rfl, by rw [constant]; rfl⟩
      · cases found
  | vrf =>
      obtain ⟨sessions, found, same⟩ := Outcome.bind_ok.mp done
      cases same
      exact neighbors_all invariant known found

theorem keeps_declare (node name : String) {found : Declared} (known : found.Known keep G A name) :
    Keeps (Holds A I) (declare node name found) fun _ => True := by
  cases found <;> simp only [declare]
  case policy p =>
    obtain ⟨j, block, own, read, rfl⟩ := known
    exact keeps_update invariant.toKept fun d holds => invariant.policy d name j block holds own read
  case list lines => exact keeps_update invariant.toKept fun d holds => invariant.list d name lines holds
  case set members =>
    obtain ⟨j, e, own, read, rfl, constant⟩ := known
    exact keeps_update invariant.toKept fun d holds => invariant.set d name j e holds own read constant
  case sessions neighbors =>
    refine Takes.modify fun s holds => ⟨holds.distinct, holds.drafts, ?_⟩
    exact List.forall_mem_append.mpr ⟨holds.sessions, known⟩

theorem keeps_declarationRow (i : Nat) {row : Table Json} (known : G (.obj row)) :
    Keeps (Holds A I) (declarationRow keep i row) fun _ => True := by
  apply Takes.bind Keeps.lift
  intro node _
  apply Takes.bind Keeps.lift
  intro type _
  apply Takes.bind Keeps.lift
  intro name _
  apply Takes.bind (keeps_touch invariant.toKept node)
  intro _ _
  split
  · exact keeps_log _
  · dsimp only
    split
    · exact Takes.throw
    · rename_i body value
      have own : G (.obj body) := by
        obtain ⟨inner, found, object⟩ := Option.bind_eq_some_iff.mp value
        obtain ⟨definition, outer, found⟩ := Option.bind_eq_some_iff.mp found
        obtain ⟨cell, listed, outer⟩ := Option.bind_eq_some_iff.mp outer
        have fine := members?_all ((invariant.hereditary.members row known).get? listed) outer
        exact members?_all ((invariant.hereditary.members definition fine).get? found) object
      apply Takes.bind Keeps.lift
      intro found done
      have added := declared_known invariant own (Outcome.inContext_ok.mp done)
      exact keeps_declare invariant node name added

end

/-! ### Definitions -/

theorem takes_inlineDrafts {J : Draft → Prop} (inlined : Draft.Inlined A I J) {s : Survey}
    (holds : Holds A I s) :
    Takes (· = s) (Holds A J) (forEach inlineDraft 0 s.drafts) fun _ => True := by
  rintro _ rfl _ _ done
  obtain ⟨written, related, rfl⟩ := (inlineDrafts_ok holds.distinct).mp done
  refine ⟨⟨(names_written related).symm ▸ holds.distinct, ?_, holds.sessions⟩, trivial⟩
  refine forall₂_right related holds.drafts ?_
  rintro ⟨name, d⟩ ⟨_, _⟩ own ⟨-, policies, done, rfl⟩
  exact inlined.written d name policies d own done own

/-! ### Interfaces and links -/

section

variable (kept : Draft.Kept A I)

include kept

theorem keeps_interfaceRow (i : Nat) (row : Table Json) :
    Keeps (Holds A I) (interfaceRow i row) fun _ => True := by
  apply Takes.bind Keeps.lift
  intro e _
  apply Takes.bind (keeps_touch kept e.node)
  intro _ _
  apply Takes.bind Keeps.lift
  intro imports _
  apply Takes.bind Keeps.lift
  intro exports _
  exact keeps_update kept fun d holds => kept.interface d _ _ holds

theorem keeps_addressRow (i : Nat) (row : Table Json) :
    Keeps (Holds A I) (addressRow i row) fun _ => True := by
  unfold addressRow
  dsimp only
  split
  · exact Keeps.pure trivial
  · apply Takes.bind Keeps.lift
    intro name _
    apply Takes.bind Keeps.lift
    intro address _
    split
    · exact Takes.throw
    · refine Takes.bind (keeps_modify (fun _ => rfl) fun _ => rfl) ?_
      intro _ _
      apply keeps_update kept
      intro d holds
      split
      · exact holds
      · exact kept.networks d _ holds

theorem keeps_ensureInterface (e : Endpoint) :
    Keeps (Holds A I) (ensureInterface e) fun _ => True := by
  apply keeps_update kept
  intro d holds
  split
  · exact holds
  · exact kept.interface d _ _ holds

theorem keeps_linkRow (i : Nat) (row : Table Json) :
    Keeps (Holds A I) (linkRow i row) fun _ => True := by
  apply Takes.bind Keeps.lift
  intro source _
  apply Takes.bind Keeps.lift
  intro target _
  apply Takes.bind (keeps_ensureInterface kept source)
  intro _ _
  apply Takes.bind (keeps_ensureInterface kept target)
  intro _ _
  exact keeps_modify (fun _ => rfl) fun _ => rfl

/-! ### Sessions -/

theorem keeps_bind (e : Endpoint) (n : Tables.Neighbor) :
    Keeps (Holds A I) (bind e n) fun _ => True :=
  keeps_update kept fun d holds => kept.interface d _ _ holds

theorem keeps_localAsn {n : Tables.Neighbor} (known : KnownAsns A n) :
    Keeps (Holds A I) (localAsn n) fun _ => True := by
  apply Takes.bind (keeps_touch kept n.node)
  intro _ _
  apply Takes.bind Keeps.get
  intro s _
  split
  · rename_i asn own _
    have fine := known.1 asn own
    exact keeps_update kept fun d holds => kept.asn d asn holds fine
  · split
    · exact Keeps.pure trivial
    · exact keeps_log _
  · exact Keeps.pure trivial

theorem keeps_externalSession {n : Tables.Neighbor} (known : KnownAsns A n) :
    Keeps (Holds A I) (externalSession n) fun _ => True := by
  apply Takes.bind (keeps_touch kept _)
  intro _ _
  apply Takes.bind Keeps.get
  intro s _
  dsimp only
  split
  · exact Takes.throw
  · refine Takes.bind (keeps_update kept ?_) ?_
    · intro d holds
      have outside := kept.external d holds
      cases remote : n.remoteAs with
      | none => exact outside
      | some asn => exact kept.asn _ asn outside (known.2 asn remote)
    intro _ _
    apply Takes.bind (keeps_bind kept _ n)
    intro _ _
    apply Takes.bind (keeps_ensureInterface kept _)
    intro _ _
    exact keeps_modify (fun _ => rfl) fun _ => rfl

theorem keeps_session (i : Nat) {n : Tables.Neighbor} (known : KnownAsns A n) :
    Keeps (Holds A I) (session i n) fun _ => True := by
  apply Takes.bind (keeps_localAsn kept known)
  intro _ _
  apply Takes.bind Keeps.get
  intro s _
  split
  · exact keeps_externalSession kept known
  · split
    · exact keeps_bind kept _ n
    · exact keeps_log _

end

/-! ### Topologies -/

/-- A topology of drafts with a property: its references resolve, and each of its nodes is a draft. -/
def Made (I : Draft → Prop) (t : Topology) : Prop :=
  Topology.create t.nodes t.edges = .ok t ∧ ∀ n ∈ t.nodes, ∃ d, I d ∧ n = d.toNode n.name

/-- The last step: the topology of the drafts. -/
theorem keeps_create : Keeps (Holds A I) (do
    let s ← get
    log (.debug "Built topology"
      [("nodes", .nat s.drafts.length), ("edges", .nat s.edges.length)])
    lift (Topology.create (s.drafts.map fun (name, d) => d.toNode name) s.edges)) (Made I) := by
  apply Takes.bind Keeps.get
  intro s holds
  apply Takes.bind (keeps_log _)
  intro _ _ s' kept t last done
  obtain ⟨still, created⟩ := Keeps.lift s' kept t last done
  obtain rfl := Topology.create_ok created
  refine ⟨still, created, ?_⟩
  rw [List.forall_mem_map]
  intro entry member
  exact ⟨entry.2, holds.drafts entry member, rfl⟩

/-- The nodes of a drafted topology are drafts that no row has broken, with definitions written
out. -/
theorem takes_topology {J : Draft → Prop} (invariant : Draft.Invariant keep G A I)
    (inlined : Draft.Inlined A I J) {raw : Json} (known : G raw) :
    Takes (Holds A I) (Holds A J) (topology keep raw) (Made J) := by
  unfold topology
  split
  · exact Takes.throw
  · rename_i tables object
    have own := members?_all known object
    have rows : ∀ {name required rows}, Tables.rows tables name required = .ok rows →
        ∀ row ∈ rows, G (.obj row) := rows_all invariant.hereditary own
    apply Takes.bind Keeps.lift
    intro nodes found
    apply Takes.bind
      (Keeps.forEach fun i row member => keeps_nodeRow invariant i (rows found row member))
    intro _ _
    apply Takes.bind Keeps.lift
    intro declarations found
    apply Takes.bind
      (Keeps.forEach fun i row member => keeps_declarationRow invariant i (rows found row member))
    intro _ _
    -- all drafts there are stand in the survey whose definitions are written out
    apply Takes.get_bind
    intro s holds
    apply Takes.bind (takes_inlineDrafts inlined holds)
    intro _ _
    apply Takes.bind Keeps.lift
    intro _ _
    apply Takes.bind (Keeps.forEach fun i row _ => keeps_interfaceRow inlined.toKept i row)
    intro _ _
    apply Takes.bind Keeps.lift
    intro _ _
    apply Takes.bind (Keeps.forEach fun i row _ => keeps_addressRow inlined.toKept i row)
    intro _ _
    apply Takes.bind Keeps.lift
    intro _ _
    apply Takes.bind (Keeps.forEach fun i row _ => keeps_linkRow inlined.toKept i row)
    intro _ _
    apply Takes.bind Keeps.get
    intro s holds
    apply Takes.bind (Keeps.forEach fun i n member =>
      keeps_session inlined.toKept i (holds.sessions n member))
    intro _ _
    apply Takes.bind Keeps.lift
    intro issues _
    split
    · exact keeps_create
    · apply Takes.bind (keeps_log _)
      intro _ _
      exact keeps_create

end Drafting

section

variable {keep : Bool} {G : Json → Prop} {A : Int → Prop} {I J : Draft → Prop} {raw : Json}
  {t : Topology}

/-- What no row breaks once definitions are written out holds of the draft of every node of a
topology. -/
theorem Topology.made_of_inlined (invariant : Draft.Invariant keep G A I)
    (inlined : Draft.Inlined A I J) (known : G raw)
    (drafted : (Topology.ofTables keep raw).1 = .ok t) : Drafting.Made J t := by
  obtain ⟨s, ran⟩ := ofTables_ok.mp drafted
  have start : Drafting.Holds A I .empty := ⟨List.nodup_nil, Table.All.nil, nofun⟩
  exact (Drafting.takes_topology invariant inlined known .empty start t s ran).2

/-- What no row breaks holds of the draft of every node of a topology. -/
theorem Topology.made_of_ofTables (invariant : Draft.Invariant keep G A I) (known : G raw)
    (drafted : (Topology.ofTables keep raw).1 = .ok t) : Drafting.Made I t :=
  Topology.made_of_inlined invariant invariant.toInlined known drafted

end

/-! ### Expressions of policies -/

/-- All nodes of the policies and of the community sets of a draft have a property. -/
structure Draft.Each (Q : Expr → Prop) (d : Draft) : Prop where
  policies : d.policies.All fun p => Statement.EveryAll (fun _ e => e.Each Q) p.statements
  sets : d.definitions.sets.All (·.Each Q)

/-- Definitions are written out in each policy, under its name. -/
theorem Drafting.inlinePolicies_ok {node : String} {defs : Definitions}
    {policies inlines : Table Policy} : inlinePolicies node defs policies = .ok inlines ↔
      List.Forall₂ (fun a b => b.1 = a.1 ∧ a.2.inline defs = .ok b.2) policies inlines := by
  induction policies generalizing inlines with
  | nil => simp [inlinePolicies, eq_comm]
  | cons entry rest ih =>
      simp only [inlinePolicies, Outcome.bind_ok, Outcome.inContext_ok, ih,
        List.forall₂_cons_left_iff, Except.ok.injEq]
      constructor
      · rintro ⟨p, own, others, later, rfl⟩
        exact ⟨(entry.1, p), others, ⟨rfl, own⟩, later, rfl⟩
      · rintro ⟨⟨_, p⟩, others, ⟨rfl, own⟩, later, rfl⟩
        exact ⟨p, own, others, later, rfl⟩

theorem Drafting.names_inlinePolicies {node : String} {defs : Definitions}
    {policies inlines : Table Policy} (done : inlinePolicies node defs policies = .ok inlines) :
    inlines.names = policies.names := by
  rw [Table.names, Table.names, map_eq_iff_forall₂]
  exact (inlinePolicies_ok.mp done).flip.imp fun _ _ both => both.1

/-- What expressions that are read have, the policies of drafts have, if written out definitions keep
it. -/
theorem Draft.each_invariant {Q R : Expr → Prop} {keep : Bool} (writable : Expr.Writable Q R)
    (reads : ∀ j e, Encoding.readExpr keep j = .ok e → e.Each Q) :
    Draft.Invariant keep (fun _ => True) (fun _ => True) (Draft.Each Q) where
  hereditary := Json.hereditary_true
  number _ _ _ _ := trivial
  text _ _ _ _ := trivial
  empty := ⟨Table.All.nil, Table.All.nil⟩
  asn _ _ own _ := ⟨own.policies, own.sets⟩
  external _ own := ⟨own.policies, own.sets⟩
  networks _ _ own := ⟨own.policies, own.sets⟩
  interface _ _ _ own := ⟨own.policies, own.sets⟩
  policy _ _ _ _ own _ read :=
    ⟨own.policies.put ((Encoding.readStatements_every read).mono fun _ _ ⟨_, own⟩ => reads _ _ own),
      own.sets⟩
  list _ _ _ own := ⟨own.policies, own.sets⟩
  set _ _ _ _ own _ read _ := ⟨own.policies, own.sets.put (writable.simplify (reads _ _ read))⟩
  inlined d _ _ _ own done other := by
    refine ⟨forall₂_right (Drafting.inlinePolicies_ok.mp done) own.policies ?_, other.sets⟩
    exact fun _ _ every inlined => Policy.everyAll_inline writable own.sets every inlined.2

/-- The policies of a topology drafted from tables have what all expressions that are read have. -/
theorem Topology.each_of_ofTables {Q R : Expr → Prop} {keep : Bool} {raw : Json} {t : Topology}
    (writable : Expr.Writable Q R) (reads : ∀ j e, Encoding.readExpr keep j = .ok e → e.Each Q)
    (drafted : (Topology.ofTables keep raw).1 = .ok t) : ∀ n ∈ t.nodes,
      n.policies.All fun p => Statement.EveryAll (fun _ e => e.Each Q) p.statements := by
  intro n member
  obtain ⟨-, nodes⟩ :=
    Topology.made_of_ofTables (Draft.each_invariant writable reads) trivial drafted
  obtain ⟨d, each, same⟩ := nodes n member
  rw [same]
  exact each.policies.arrange

/-! ### Names of policies -/

/-- Policies stand under their names, each name once. -/
structure Table.Kempt (t : Table Policy) : Prop where
  distinct : t.names.Nodup
  named : ∀ entry ∈ t, entry.2.name = entry.1

namespace Table.Kempt

variable {t : Table Policy}

theorem put (kempt : t.Kempt) (p : Policy) : (t.put p.name p).Kempt := by
  refine ⟨nodup_put kempt.distinct, fun entry member => ?_⟩
  rcases List.mem_cons.mp (put_subset _ _ _ member) with rfl | old
  · rfl
  · exact kempt.named entry old

theorem arrange (kempt : t.Kempt) : (Table.arrange t).Kempt := by
  obtain ⟨perm, arranged⟩ := perm_arrange kempt.distinct
  exact ⟨arranged.distinct, fun entry member => kempt.named entry (perm.mem_iff.mp member)⟩

theorem inlined {node : String} {defs : Definitions} {inlines : Table Policy} (kempt : t.Kempt)
    (done : Drafting.inlinePolicies node defs t = .ok inlines) : inlines.Kempt := by
  refine ⟨(Drafting.names_inlinePolicies done).symm ▸ kempt.distinct, ?_⟩
  refine forall₂_right (Drafting.inlinePolicies_ok.mp done) kempt.named ?_
  rintro ⟨name, p⟩ ⟨key, x⟩ own ⟨same, inlined⟩
  exact (Policy.name_inline inlined).trans (own.trans same.symm)

end Table.Kempt

theorem Draft.kempt_invariant (keep : Bool) :
    Draft.Invariant keep (fun _ => True) (fun _ => True) (·.policies.Kempt) where
  hereditary := Json.hereditary_true
  number _ _ _ _ := trivial
  text _ _ _ _ := trivial
  empty := ⟨List.nodup_nil, nofun⟩
  asn _ _ own _ := own
  external _ own := own
  networks _ _ own := own
  interface _ _ _ own := own
  policy _ name _ block own _ _ := own.put ⟨name, block⟩
  list _ _ _ own := own
  set _ _ _ _ own _ _ _ := own
  inlined _ _ _ _ own done _ := own.inlined done

/-- The policies of a drafted topology stand under their names. -/
theorem Topology.kempt_of_ofTables {keep : Bool} {raw : Json} {t : Topology}
    (drafted : (Topology.ofTables keep raw).1 = .ok t) : ∀ n ∈ t.nodes, n.policies.Kempt := by
  intro n member
  obtain ⟨-, nodes⟩ := Topology.made_of_ofTables (Draft.kempt_invariant keep) trivial drafted
  obtain ⟨d, kempt, same⟩ := nodes n member
  rw [same]
  exact kempt.arrange

end RoutePolicy
