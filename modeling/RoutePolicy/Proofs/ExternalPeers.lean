import RoutePolicy.Proofs.Declarations
import RoutePolicy.Proofs.References

/-!
External nodes are the peers whose addresses no node owns. They send nothing and filter nothing, and
they are reached both ways or not at all. A session may name a node that there is already; it is
refused if the node has anything of its own, so the order of sessions does not matter for this.
-/

set_option autoImplicit false

namespace RoutePolicy

theorem Draft.isUsed_eq_false {d : Draft} :
    d.isUsed = false ↔ d.interfaces = [] ∧ d.policies = [] ∧ d.networks = [] := by
  simp [Draft.isUsed, and_assoc]

/-! ### What tables say -/

namespace Tables

/-- A row of a required table. -/
def Lists (raw : Json) (table : String) (row : Table Json) : Prop :=
  ∃ tables found, raw.members? = some tables ∧ rows tables table true = .ok found ∧ row ∈ found

/-- A row declares a routing instance that has a session. -/
def Configures (row : Table Json) (n : Neighbor) : Prop :=
  row.get? "Structure_Type" = some (.str "VRF") ∧ ∃ node body sessions,
    Tables.node (row.get? "Node") [] = .ok node ∧ Drafting.definedValue row = some body ∧
      neighbors node body [] = .ok sessions ∧ n ∈ sessions

/-- A row gives an address that is in use. -/
def Owns (row : Table Json) (address : String) : Prop :=
  row.get? "Active" ≠ some (.bool false) ∧ row.get? "IP" = some (.str address)

/-- A session that some routing instance has. -/
def Configured (raw : Json) (n : Neighbor) : Prop :=
  ∃ row, Lists raw "declarations" row ∧ Configures row n

/-- An address in use. -/
def Owned (raw : Json) (address : String) : Prop := ∃ row, Lists raw "ips" row ∧ Owns row address

end Tables

namespace Drafting

/-- A structure declares the sessions of its value if it is a routing instance, and none else. -/
theorem sessions_of_declared {keep : Bool} {d : Declaration} {body : Table Json}
    {kind : Tables.StructureType} {found : Declared} {n : Tables.Neighbor}
    (read : declared keep d.node d.name body [] kind = .ok found) (own : d.found = some found) :
    n ∈ d.sessions ↔
      kind = .vrf ∧ ∃ sessions, Tables.neighbors d.node body [] = .ok sessions ∧ n ∈ sessions := by
  obtain rfl := kind_declared read
  unfold Declaration.sessions
  rw [own]
  cases found with
  | sessions neighbors =>
    obtain ⟨sessions, listed, same⟩ := Outcome.bind_ok.mp read
    cases same
    simp [listed, Declared.kind]
  | _ => simp [Declared.kind]

/-- The sessions that a row is read to declare are those it configures. -/
theorem mem_sessions {keep : Bool} {row : Table Json} {d : Declaration} {n : Tables.Neighbor}
    (read : declaration? keep row = some d) : n ∈ d.sessions ↔ Tables.Configures row n := by
  simp only [declaration?, Option.bind_eq_bind, Option.bind_eq_some_iff, Outcome.toOption_some,
    Tables.text_ok] at read
  obtain ⟨node, here, type, typed, name, -, read⟩ := read
  have vrf : row.get? "Structure_Type" = some (.str "VRF") ↔
      Tables.StructureType.ofName? type = some .vrf := by
    rw [typed, Tables.StructureType.ofName?_some, Option.some.injEq, Json.str.injEq]
    rfl
  unfold Tables.Configures
  rw [vrf, here]
  cases known : Tables.StructureType.ofName? type with
  | none =>
    rw [known] at read
    cases read
    simp [Declaration.sessions]
  | some kind =>
    simp only [known, Option.bind_eq_some_iff, Outcome.toOption_some] at read
    obtain ⟨body, value, found, declares, same⟩ := read
    cases same
    rw [sessions_of_declared declares rfl, value]
    simp

/-! ### Surveys -/

/-- Surveys after some of the sessions have been seen to. A node that is external has nothing of its
own. An edge has its reverse, or it ends at interfaces of nodes that are not external, and these
stay so, for a node with an interface is refused as a peer. -/
structure Bordered (sessions : List Tables.Neighbor) (owned : String → Prop)
    (done : List Tables.Neighbor) (s : Survey) : Prop where
  distinct : s.drafts.names.Nodup
  sessions : s.sessions = sessions
  owners : ∀ address, s.owners.has address = true ↔ owned address
  outside : ∀ name, (s.draft name).external = true ↔
    ∃ n ∈ done, ¬owned n.peer ∧ peerName n = name
  bare : ∀ name, (s.draft name).external = true →
    (s.draft name).networks = [] ∧ (s.draft name).policies = []
  edges : ∀ edge ∈ s.edges, ⟨edge.target, edge.source⟩ ∈ s.edges ∨
    ∀ e ∈ [edge.source, edge.target],
      (s.draft e.node).external = false ∧ (s.draft e.node).interfaces ≠ []

namespace Bordered

variable {sessions done : List Tables.Neighbor} {owned : String → Prop} {s : Survey} {name : String}

theorem start (free : ∀ address, ¬owned address) : Bordered [] owned [] .empty where
  distinct := List.nodup_nil
  sessions := rfl
  owners address := iff_of_false Bool.false_ne_true (free address)
  outside _ := by simp [Survey.draft, Survey.empty, Table.get?, Draft.empty]
  bare _ outside := by cases outside
  edges := List.forall_mem_nil _

theorem internal (own : Bordered sessions owned [] s) (name : String) :
    (s.draft name).external = false := by
  rw [← Bool.not_eq_true, own.outside]
  simp

/-- Another draft of a node that is on the same side. -/
theorem draftedAs (own : Bordered sessions owned done s) {d : Draft}
    (side : d.external = (s.draft name).external)
    (bare : d.external = true → d.networks = [] ∧ d.policies = [])
    (linked : (s.draft name).interfaces ≠ [] → d.interfaces ≠ []) :
    Bordered sessions owned done (s.draftedAs name d) where
  distinct := Table.nodup_put own.distinct
  sessions := own.sessions
  owners := own.owners
  outside key := by
    rw [← own.outside, Survey.draft_draftedAs]
    split
    · rename_i same
      rw [side, same]
    · rfl
  bare key := by
    rw [Survey.draft_draftedAs]
    split
    · exact bare
    · exact own.bare key
  edges edge member := by
    refine (own.edges edge member).imp_right fun both e inside => ?_
    obtain ⟨internal, interfaces⟩ := both e inside
    rw [Survey.draft_draftedAs]
    split
    · rename_i same
      subst same
      exact ⟨side.trans internal, linked interfaces⟩
    · exact ⟨internal, interfaces⟩

/-- Steps that leave the networks and policies of a node, and the side it is on. -/
theorem keeps_update {change : Draft → Draft} (side : ∀ d, (change d).external = d.external)
    (networks : ∀ d, (change d).networks = d.networks)
    (policies : ∀ d, (change d).policies = d.policies)
    (linked : ∀ d, d.interfaces ≠ [] → (change d).interfaces ≠ []) :
    Keeps (Bordered sessions owned done) (update name change) fun _ => True := by
  refine Takes.modify fun s own => own.draftedAs (side _) ?_ (linked _)
  rw [side, networks, policies]
  exact own.bare name

/-- As long as there are no external nodes, networks and policies may change. -/
theorem keeps_inside {change : Draft → Draft} (side : ∀ d, (change d).external = d.external)
    (linked : ∀ d, (change d).interfaces = d.interfaces) :
    Keeps (Bordered sessions owned []) (update name change) fun _ => True := by
  refine Takes.modify fun s own => own.draftedAs (side _) ?_ fun some => ?_
  · rw [side, own.internal name]
    exact fun outside => absurd outside Bool.false_ne_true
  · rwa [linked]

theorem keeps_touch (name : String) :
    Keeps (Bordered sessions owned done) (touch name) fun _ => True :=
  keeps_update (fun _ => rfl) (fun _ => rfl) (fun _ => rfl) fun _ some => some

theorem keeps_log (entry : LogEntry) :
    Keeps (Bordered sessions owned done) (Drafting.log entry) fun _ => True :=
  Takes.modify fun _ own => { own with }

/-! ### Rows -/

theorem keeps_nodeRow (i : Nat) (row : Table Json) :
    Keeps (Bordered sessions owned done) (nodeRow i row) fun _ => True := by
  apply Takes.bind Keeps.lift
  intro name _
  apply Takes.bind (keeps_touch name)
  intro _ _
  split
  · split
    · exact keeps_update (fun _ => rfl) (fun _ => rfl) (fun _ => rfl) fun _ some => some
    · exact Keeps.pure trivial
  · exact Keeps.pure trivial

/-- Declarations add the sessions that the rows configure. -/
theorem takes_declarationRows {keep : Bool} {i : Nat} {rows : List (Table Json)} :
    Takes (Bordered [] owned []) (fun s => ∃ sessions, Bordered sessions owned [] s ∧
        ∀ n, n ∈ sessions ↔ ∃ row ∈ rows, Tables.Configures row n)
      (forEach (declarationRow keep) i rows) fun _ => True := by
  intro s own _ s' ran
  obtain ⟨readable, rfl⟩ := declarationRows_ok.mp ran
  set ds := rows.filterMap (declaration? keep)
  have drafts : ∀ name, ((ds.foldl Survey.declare s).draft name).external = false ∧
      ((ds.foldl Survey.declare s).draft name).interfaces = (s.draft name).interfaces := by
    intro name
    rw [Survey.draft_declare, Declaration.foldl_apply]
    exact ⟨own.internal name, rfl⟩
  have bordered :
      Bordered (ds.flatMap Declaration.sessions) owned [] (ds.foldl Survey.declare s) := by
    refine ⟨Survey.nodup_declare own.distinct, ?_, ?_, fun name => ?_, fun name => ?_, ?_⟩
    · rw [Survey.sessions_declare, own.sessions, List.nil_append]
    · rw [Survey.owners_declare]
      exact own.owners
    · simp [(drafts name).1]
    · simp [(drafts name).1]
    · intro edge member
      rw [Survey.edges_declare] at member ⊢
      refine (own.edges edge member).imp_right fun both e inside => ?_
      rw [(drafts e.node).2]
      exact ⟨(drafts e.node).1, (both e inside).2⟩
  refine ⟨⟨ds.flatMap Declaration.sessions, bordered, fun n => ⟨fun member => ?_, ?_⟩⟩, trivial⟩
  · obtain ⟨d, listed, inside⟩ := List.mem_flatMap.mp member
    obtain ⟨row, there, read⟩ := List.mem_filterMap.mp listed
    exact ⟨row, there, (mem_sessions read).mp inside⟩
  · rintro ⟨row, there, configures⟩
    obtain ⟨d, read⟩ := Option.isSome_iff_exists.mp (readable row there)
    exact List.mem_flatMap.mpr
      ⟨d, List.mem_filterMap.mpr ⟨row, there, read⟩, (mem_sessions read).mpr configures⟩

theorem keeps_inlineDraft (i : Nat) (entry : String × Draft) :
    Keeps (Bordered sessions owned []) (inlineDraft i entry) fun _ => True := by
  apply Takes.bind Keeps.lift
  intro policies _
  exact keeps_inside (fun _ => rfl) fun _ => rfl

theorem keeps_interfaceRow (i : Nat) (row : Table Json) :
    Keeps (Bordered sessions owned done) (interfaceRow i row) fun _ => True := by
  apply Takes.bind Keeps.lift
  intro e _
  apply Takes.bind (keeps_touch e.node)
  intro _ _
  apply Takes.bind Keeps.lift
  intro imports _
  apply Takes.bind Keeps.lift
  intro exports _
  exact keeps_update (fun _ => rfl) (fun _ => rfl) (fun _ => rfl) fun _ _ => Table.put_ne_nil _ _ _

/-- As long as there are no external nodes, the owners of addresses may change. -/
theorem owning (own : Bordered sessions owned [] s) {owners : Table String} {known : String → Prop}
    (same : ∀ address, owners.has address = true ↔ known address) :
    Bordered sessions known [] { s with owners := owners } where
  distinct := own.distinct
  sessions := own.sessions
  owners := same
  outside name := (own.outside name).trans (by simp)
  bare := own.bare
  edges := own.edges

/-- Rows give the addresses that are owned. -/
theorem takes_addressRow (i : Nat) (seen : List (Table Json)) (row : Table Json) :
    Takes (Bordered sessions (fun address => ∃ r ∈ seen, Tables.Owns r address) [])
      (Bordered sessions (fun address => ∃ r ∈ seen ++ [row], Tables.Owns r address) [])
      (addressRow i row) fun _ => True := by
  have further : ∀ {address}, (∃ r ∈ seen ++ [row], Tables.Owns r address) ↔
      (∃ r ∈ seen, Tables.Owns r address) ∨ Tables.Owns row address := by
    simp [or_and_right, exists_or]
  unfold addressRow
  dsimp only
  split
  · rename_i idle
    rintro s own _ _ ⟨⟩
    refine ⟨own.owning fun address => ?_, trivial⟩
    rw [own.owners, further, or_iff_left fun owns => owns.1 idle]
  · rename_i active
    apply Takes.bind Keeps.lift
    intro name _
    apply Takes.bind Keeps.lift
    intro address given
    have owns : ∀ other, Tables.Owns row other ↔ address = other := by
      intro other
      rw [Tables.Owns, Tables.text_ok.mp given, and_iff_right active]
      simp
    split
    · exact Takes.throw
    · have owning : ∀ s, Bordered sessions (fun address => ∃ r ∈ seen, Tables.Owns r address) [] s →
          Bordered sessions (fun address => ∃ r ∈ seen ++ [row], Tables.Owns r address) []
            { s with owners := s.owners.put address name } := by
        refine fun s own => own.owning fun other => ?_
        rw [Table.has_put, own.owners, further, owns, or_comm]
      apply Takes.bind (Takes.modify owning)
      intro _ _
      refine keeps_inside (fun d => ?_) fun d => ?_
      · split <;> rfl
      · split <;> rfl

theorem keeps_ensureInterface (e : Endpoint) :
    Keeps (Bordered sessions owned done) (ensureInterface e) fun _ => True := by
  refine keeps_update (fun d => ?_) (fun d => ?_) (fun d => ?_) fun d some => ?_
  · split <;> rfl
  · split <;> rfl
  · split <;> rfl
  · split
    · exact some
    · exact Table.put_ne_nil _ _ _

/-- The nodes of endpoints have interfaces. -/
def Linked (ends : List Endpoint) (s : Survey) : Prop :=
  ∀ e ∈ ends, (s.draft e.node).interfaces ≠ []

theorem takes_ensureInterface (e : Endpoint) (ends : List Endpoint) :
    Takes (fun s => Bordered sessions owned done s ∧ Linked ends s)
      (fun s => Bordered sessions owned done s ∧ Linked (e :: ends) s)
      (ensureInterface e) fun _ => True := by
  let change (d : Draft) : Draft :=
    if d.interfaces.has e.interface then d
    else { d with interfaces := d.interfaces.put e.interface .empty }
  have linked : ∀ d, (change d).interfaces ≠ [] := by
    intro d
    unfold change
    split
    · rename_i known
      exact List.ne_nil_of_mem (Table.mem_of_get? (Option.isSome_iff_exists.mp known).choose_spec)
    · exact Table.put_ne_nil _ _ _
  rintro s ⟨own, before⟩ _ s' done
  refine ⟨⟨(keeps_ensureInterface e s own _ s' done).1, ?_⟩, trivial⟩
  obtain rfl : s.draftedAs e.node (change (s.draft e.node)) = s' := (Prod.mk.inj done).2
  intro other member
  rw [Survey.draft_draftedAs]
  split
  · exact linked _
  · rename_i apart
    exact before other ((List.mem_cons.mp member).resolve_left fun same => apart (same ▸ rfl))

theorem keeps_linkRow (i : Nat) (row : Table Json) :
    Keeps (Bordered sessions owned []) (linkRow i row) fun _ => True := by
  apply Takes.bind Keeps.lift
  intro source _
  apply Takes.bind Keeps.lift
  intro target _
  apply Takes.bind
    ((takes_ensureInterface source []).weaken fun s own => ⟨own, List.forall_mem_nil _⟩)
  intro _ _
  apply Takes.bind (takes_ensureInterface target [source])
  intro _ _
  refine Takes.modify fun s ⟨own, linked⟩ => { own with edges := ?_ }
  refine List.forall_mem_append.mpr ⟨fun edge member => ?_, List.forall_mem_singleton.mpr ?_⟩
  · exact (own.edges edge member).imp_left (List.mem_append_left _)
  · refine .inr fun e inside => ⟨own.internal e.node, linked e ?_⟩
    rcases List.mem_pair.mp inside with rfl | rfl <;> simp

/-! ### Sessions -/

theorem keeps_bind (e : Endpoint) (n : Tables.Neighbor) :
    Keeps (Bordered sessions owned done) (Drafting.bind e n) fun _ => True :=
  keeps_update (fun _ => rfl) (fun _ => rfl) (fun _ => rfl) fun _ _ => Table.put_ne_nil _ _ _

theorem keeps_localAsn (n : Tables.Neighbor) :
    Keeps (Bordered sessions owned done) (localAsn n) fun _ => True := by
  apply Takes.bind (keeps_touch n.node)
  intro _ _
  apply Takes.bind Keeps.get
  intro s _
  split
  · exact keeps_update (fun _ => rfl) (fun _ => rfl) (fun _ => rfl) fun _ some => some
  · split
    · exact Keeps.pure trivial
    · exact keeps_log _
  · exact Keeps.pure trivial

/-- The peer of a session is external from then on. A node with an interface cannot become one. -/
theorem becomes_external {n : Tables.Neighbor} (foreign : ¬owned n.peer) {asn : Option Int}
    (own : Bordered sessions owned done s)
    (free : (s.draft (peerName n)).external = true ∨ (s.draft (peerName n)).isUsed = false) :
    Bordered sessions owned (done ++ [n])
      (s.draftedAs (peerName n) { s.draft (peerName n) with external := true, asn := asn }) := by
  have known : ∀ name, (∃ m ∈ done ++ [n], ¬owned m.peer ∧ peerName m = name) ↔
      (s.draft name).external = true ∨ peerName n = name := by
    intro name
    rw [own.outside]
    simp [or_and_right, exists_or, foreign]
  have unused : (s.draft (peerName n)).external = false → (s.draft (peerName n)).isUsed = false :=
    fun internal => free.resolve_left (by simp [internal])
  constructor
  · exact Table.nodup_put own.distinct
  · exact own.sessions
  · exact own.owners
  · intro name
    rw [known, Survey.draft_draftedAs]
    split <;> simp_all
  · intro name
    rw [Survey.draft_draftedAs]
    split
    · intro _
      rcases free with outside | unused
      · exact own.bare _ outside
      · exact ⟨(Draft.isUsed_eq_false.mp unused).2.2, (Draft.isUsed_eq_false.mp unused).2.1⟩
    · exact own.bare name
  · intro edge member
    refine (own.edges edge member).imp_right fun both e inside => ?_
    obtain ⟨internal, interfaces⟩ := both e inside
    have apart : peerName n ≠ e.node := by
      intro same
      rw [same, internal] at free
      have unused := free.resolve_left Bool.false_ne_true
      exact interfaces (Draft.isUsed_eq_false.mp unused).1
    rw [Survey.draft_draftedAs, if_neg apart]
    exact ⟨internal, interfaces⟩

theorem takes_externalSession {n : Tables.Neighbor} (foreign : ¬owned n.peer) :
    Takes (Bordered sessions owned done) (Bordered sessions owned (done ++ [n]))
      (externalSession n) fun _ => True := by
  apply Takes.bind (keeps_touch _)
  intro _ _
  apply Takes.get_bind
  intro s own
  dsimp only
  split
  · exact Takes.throw
  · rename_i accepted
    have free : (s.draft (peerName n)).external = true ∨ (s.draft (peerName n)).isUsed = false := by
      rw [or_iff_not_imp_left, Bool.not_eq_true]
      simpa using accepted
    have further : ∀ s', s' = s → Bordered sessions owned (done ++ [n])
        (s'.draftedAs (peerName n) { s'.draft (peerName n) with
          external := true
          asn := (n.remoteAs.map Int.ofNat).or (s'.draft (peerName n)).asn }) := by
      rintro _ rfl
      exact own.becomes_external foreign free
    apply Takes.bind (Takes.modify further)
    intro _ _
    apply Takes.bind (keeps_bind _ n)
    intro _ _
    apply Takes.bind (keeps_ensureInterface _)
    intro _ _
    refine Takes.modify fun s own => { own with edges := ?_ }
    refine List.forall_mem_append.mpr ⟨fun edge member => ?_, fun edge member => .inl ?_⟩
    · exact (own.edges edge member).imp_left (List.mem_append_left _)
    · rcases List.mem_pair.mp member with rfl | rfl <;> simp

/-- A session with a peer inside makes no node external. -/
theorem peer_inside {n : Tables.Neighbor} (own : Bordered sessions owned done s)
    (inside : owned n.peer) : Bordered sessions owned (done ++ [n]) s := by
  refine { own with outside := fun name => (own.outside name).trans ?_ }
  simp [or_and_right, exists_or, inside]

theorem takes_session (i : Nat) (n : Tables.Neighbor) :
    Takes (Bordered sessions owned done) (Bordered sessions owned (done ++ [n]))
      (session i n) fun _ => True := by
  apply Takes.bind (keeps_localAsn n)
  intro _ _
  apply Takes.get_bind
  intro s own
  split
  · rename_i none
    have foreign : ¬owned n.peer := by
      rw [← own.owners, Table.has, none]
      exact Bool.false_ne_true
    refine (takes_externalSession foreign).weaken ?_
    rintro _ rfl
    exact own
  · rename_i owner some
    have inside : owned n.peer := by
      rw [← own.owners, Table.has, some]
      rfl
    have still : ∀ s', s' = s → Bordered sessions owned (done ++ [n]) s' := by
      rintro _ rfl
      exact own.peer_inside inside
    split
    · exact (keeps_bind _ n).weaken still
    · exact (keeps_log _).weaken still

end Bordered

end Drafting

/-! ### Topologies -/

namespace Topology

/-- External nodes are the peers that own no address in use, and have nothing of their own. -/
structure PeersOutside (raw : Json) (t : Topology) : Prop where
  networks : ∀ n ∈ t.nodes, n.external = true → n.networks = []
  policies : ∀ n ∈ t.nodes, n.external = true → n.policies = []
  chains : ∀ n ∈ t.nodes, n.external = true → n.interfaces.All (· = .empty)
  reversed : ∀ edge ∈ t.edges, ∀ n ∈ t.nodes, n.external = true →
    (edge.source.node = n.name ∨ edge.target.node = n.name) → ⟨edge.target, edge.source⟩ ∈ t.edges
  outside : ∀ n ∈ t.nodes, n.external = true ↔ ∃ session, Tables.Configured raw session ∧
    ¬Tables.Owned raw session.peer ∧ Drafting.peerName session = n.name
  present : ∀ session, Tables.Configured raw session → ¬Tables.Owned raw session.peer →
    ∃ n ∈ t.nodes, n.name = Drafting.peerName session

end Topology

namespace Drafting

open RoutePolicy.Topology (PeersOutside)

/-- Chains of a node without policies are empty if what they name is there. -/
theorem chains_empty {n : Node} (resolved : n.Resolved) (none : n.policies = []) :
    n.interfaces.All (· = .empty) := by
  intro entry member
  have bound : ∀ name ∈ entry.2.imports ++ entry.2.exports, False := by
    intro name named
    have known := resolved.bound entry member name named
    rw [none] at known
    cases known
  obtain ⟨imports, exports⟩ := List.append_eq_nil_iff.mp (List.eq_nil_iff_forall_not_mem.mpr bound)
  rcases entry with ⟨_, _, _⟩
  simp_all [Chains.empty]

theorem Bordered.peersOutside {raw : Json} {t : Topology} {s : Survey}
    {sessions : List Tables.Neighbor} (configured : ∀ n, n ∈ sessions ↔ Tables.Configured raw n)
    (own : Bordered sessions (Tables.Owned raw) sessions s)
    (created : Topology.create (s.drafts.map fun (name, d) => d.toNode name) s.edges = .ok t) :
    PeersOutside raw t := by
  obtain ⟨rfl, resolved⟩ := Topology.create_iff.mp created
  have drafted : ∀ n ∈ s.drafts.map fun (name, d) => d.toNode name,
      n = (s.draft n.name).toNode n.name := by
    refine List.forall_mem_map.mpr fun entry member => ?_
    have found : s.draft entry.1 = entry.2 := by
      rw [Survey.draft, Table.get?_of_mem own.distinct member]
      rfl
    change entry.2.toNode entry.1 = (s.draft entry.1).toNode entry.1
    rw [found]
  have side : ∀ n ∈ s.drafts.map fun (name, d) => d.toNode name,
      n.external = (s.draft n.name).external :=
    fun n member => congrArg Node.external (drafted n member)
  have bare : ∀ n ∈ s.drafts.map fun (name, d) => d.toNode name, n.external = true →
      n.networks = [] ∧ n.policies = [] := by
    intro n member outside
    rw [side n member] at outside
    obtain ⟨networks, policies⟩ := own.bare n.name outside
    refine ⟨(congrArg Node.networks (drafted n member)).trans networks, ?_⟩
    exact (congrArg Node.policies (drafted n member)).trans (congrArg Table.arrange policies)
  constructor
  · exact fun n member outside => (bare n member outside).1
  · exact fun n member outside => (bare n member outside).2
  · exact fun n member outside =>
      chains_empty (resolved.nodes n member) (bare n member outside).2
  · intro edge member n node outside touches
    refine (own.edges edge member).resolve_right fun both => ?_
    have internal : (s.draft n.name).external = false := by
      rcases touches with here | here
      · exact here ▸ (both edge.source (by simp)).1
      · exact here ▸ (both edge.target (by simp)).1
    rw [side n node, internal] at outside
    cases outside
  · intro n member
    rw [side n member, own.outside]
    simp only [configured]
  · intro session has foreign
    have outside := (own.outside (peerName session)).mpr
      ⟨session, (configured session).mpr has, foreign, rfl⟩
    cases found : s.drafts.get? (peerName session) with
    | none =>
      rw [Survey.draft, found] at outside
      cases outside
    | some d => exact ⟨_, List.mem_map_of_mem (Table.mem_of_get? found), rfl⟩

theorem takes_create {raw : Json} {sessions : List Tables.Neighbor}
    (configured : ∀ n, n ∈ sessions ↔ Tables.Configured raw n) :
    Takes (Bordered sessions (Tables.Owned raw) sessions) (fun _ => True) (do
      let s ← get
      log (.debug "Built topology"
        [("nodes", .nat s.drafts.length), ("edges", .nat s.edges.length)])
      lift (Topology.create (s.drafts.map fun (name, d) => d.toNode name) s.edges))
      (PeersOutside raw) := by
  apply Takes.bind Keeps.get
  intro s own
  apply Takes.bind (Bordered.keeps_log _)
  intro _ _ s' kept t last done
  obtain ⟨-, created⟩ := Keeps.lift s' kept t last done
  exact ⟨trivial, own.peersOutside configured created⟩

/-- Tables that make a topology keep their peers outside. -/
theorem takes_peersOutside {keep : Bool} {raw : Json} :
    Takes (Bordered [] (fun address => ∃ r ∈ [], Tables.Owns r address) []) (fun _ => True)
      (topology keep raw) (PeersOutside raw) := by
  unfold topology
  split
  · exact Takes.throw
  · rename_i tables object
    have listed : ∀ {name rows}, Tables.rows tables name true = .ok rows → ∀ row,
        Tables.Lists raw name row ↔ row ∈ rows := by
      intro name rows found row
      simp [Tables.Lists, object, found]
    apply Takes.bind Keeps.lift
    intro nodes _
    apply Takes.bind (Keeps.forEach fun i row _ => Bordered.keeps_nodeRow i row)
    intro _ _
    apply Takes.bind Keeps.lift
    intro declarations declared
    apply Takes.bind Bordered.takes_declarationRows
    intro _ _
    refine Takes.of_exists fun sessions => Takes.assuming fun configures => ?_
    have configured : ∀ n, n ∈ sessions ↔ Tables.Configured raw n := by
      intro n
      simp only [configures, Tables.Configured, listed declared]
    apply Takes.bind Keeps.get
    intro s _
    apply Takes.bind (Keeps.forEach fun i entry _ => Bordered.keeps_inlineDraft i entry)
    intro _ _
    apply Takes.bind Keeps.lift
    intro _ _
    apply Takes.bind (Keeps.forEach fun i row _ => Bordered.keeps_interfaceRow i row)
    intro _ _
    apply Takes.bind Keeps.lift
    intro addresses given
    apply Takes.bind (Takes.forEach [] fun i seen row _ => Bordered.takes_addressRow i seen row)
    intro _ _
    have owned : (fun address => ∃ r ∈ [] ++ addresses, Tables.Owns r address) =
        Tables.Owned raw := by
      funext address
      simp only [List.nil_append, Tables.Owned, listed given]
    rw [owned]
    apply Takes.bind Keeps.lift
    intro _ _
    apply Takes.bind (Keeps.forEach fun i row _ => Bordered.keeps_linkRow i row)
    intro _ _
    apply Takes.get_bind
    intro s own
    rw [own.sessions]
    have seen : Takes (· = s) (Bordered sessions (Tables.Owned raw) sessions)
        (forEach session 0 sessions) fun _ => True := by
      refine (Takes.forEach (I := Bordered sessions (Tables.Owned raw)) []
        fun i done n _ => Bordered.takes_session i n).weaken ?_
      rintro _ rfl
      exact own
    apply Takes.bind seen
    intro _ _
    apply Takes.bind Keeps.lift
    intro issues _
    split
    · exact takes_create configured
    · apply Takes.bind (Bordered.keeps_log _)
      intro _ _
      exact takes_create configured

end Drafting

/-- In a topology built from tables the external nodes are the peers whose addresses no node owns.
They have nothing of their own, and their edges go both ways. -/
theorem Topology.peersOutside_of_ofTables {keep : Bool} {raw : Json} {t : Topology}
    (built : (ofTables keep raw).1 = .ok t) : PeersOutside raw t := by
  obtain ⟨s, ran⟩ := ofTables_ok.mp built
  have free : ∀ address, ¬∃ r ∈ [], Tables.Owns r address := by simp
  exact (Drafting.takes_peersOutside .empty (.start free) t s ran).2

/-! ### Tables of a node whose peer has an address that is not in use -/

namespace Peering

def neighbor : Json := .obj [("remoteAsns", .int 65002), ("localIp", .str "10.0.0.1")]

def routing : Json :=
  .obj [("Node", .str "a"), ("Structure_Type", .str "VRF"), ("Structure_Name", .str "default"),
    ("Structure_Definition", .obj [("value", .obj [("bgpProcess",
      .obj [("neighbors", .obj [("10.0.0.2", neighbor)])])])])]

def address : Json :=
  .obj [("Node", .str "b"), ("IP", .str "10.0.0.2"), ("Mask", .int 24), ("Active", .bool false)]

def tables : Json :=
  .obj [("declarations", .arr [routing]), ("interfaces", .arr []), ("ips", .arr [address]),
    ("topology", .arr [])]

def near : Endpoint := ⟨"a", "bgp-10.0.0.2"⟩

def far : Endpoint := ⟨"65002", "bgp-10.0.0.1"⟩

def topology : Topology :=
  ⟨[⟨"a", none, [], [(near.interface, .empty)], [], false⟩,
      ⟨"65002", some 65002, [], [(far.interface, .empty)], [], true⟩],
    [⟨near, far⟩, ⟨far, near⟩]⟩

theorem built : (Topology.ofTables false tables).1 = .ok topology := by
  with_unfolding_all rfl

end Peering

theorem idle_peer_outside : (Topology.ofTables false Peering.tables).1 = .ok Peering.topology ∧
    Topology.PeersOutside Peering.tables Peering.topology :=
  ⟨Peering.built, Topology.peersOutside_of_ofTables Peering.built⟩

end RoutePolicy
