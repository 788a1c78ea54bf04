import RoutePolicy.Proofs.Drafting
import RoutePolicy.Proofs.ShuffledTopologies

/-!
Surveys that differ in the order of names only. Every step of drafting keeps them so: it looks up
drafts by name, and what it adds to a draft does not depend on the others. The topologies that are
made of them in the end are shuffled too.
-/

set_option autoImplicit false

namespace RoutePolicy

/-! ### Surveys -/

/-- Drafts that differ in the order of policies and definitions only. -/
structure Draft.Shuffled (d e : Draft) : Prop where
  asn : d.asn = e.asn
  external : d.external = e.external
  networks : d.networks = e.networks
  interfaces : d.interfaces = e.interfaces
  policies : d.policies.Shuffled e.policies
  definitions : d.definitions.Alike e.definitions

namespace Draft

variable {d e : Draft}

theorem shuffled_empty : Draft.empty.Shuffled .empty :=
  ⟨rfl, rfl, rfl, rfl, ⟨.nil, List.nodup_nil⟩, fun _ => rfl, fun _ => rfl⟩

theorem Shuffled.isUsed (shuffled : d.Shuffled e) : d.isUsed = e.isUsed := by
  rw [Draft.isUsed, Draft.isUsed, shuffled.interfaces, shuffled.networks,
    shuffled.policies.perm.isEmpty_eq]

theorem Shuffled.toNode (shuffled : d.Shuffled e) (name : String) :
    (d.toNode name).Shuffled (e.toNode name) :=
  ⟨rfl, shuffled.asn, shuffled.networks, shuffled.interfaces, shuffled.external,
    shuffled.policies.arrange⟩

end Draft

/-- Surveys that differ in the order of names only. -/
structure Survey.Shuffled (s t : Survey) : Prop where
  distinct : s.drafts.names.Nodup
  others : t.drafts.names.Nodup
  known : ∀ name, s.drafts.has name = t.drafts.has name
  drafts : ∀ name, (s.draft name).Shuffled (t.draft name)
  sessions : s.sessions = t.sessions
  owners : s.owners = t.owners
  edges : s.edges = t.edges

namespace Survey

variable {s t : Survey}

theorem shuffled_empty : Survey.empty.Shuffled .empty :=
  ⟨List.nodup_nil, List.nodup_nil, fun _ => rfl, fun _ => Draft.shuffled_empty, rfl, rfl, rfl⟩

theorem Shuffled.draftedAs (shuffled : s.Shuffled t) (name : String) {d e : Draft}
    (same : d.Shuffled e) : (s.draftedAs name d).Shuffled (t.draftedAs name e) where
  distinct := Table.nodup_put shuffled.distinct
  others := Table.nodup_put shuffled.others
  known key := by
    rw [Bool.eq_iff_iff]
    simp only [Survey.draftedAs, Table.has_put, shuffled.known]
  drafts key := by
    rw [draft_draftedAs, draft_draftedAs]
    split
    · exact same
    · exact shuffled.drafts key
  sessions := shuffled.sessions
  owners := shuffled.owners
  edges := shuffled.edges

end Survey

/-! ### Steps -/

namespace Drafting

section

variable {α β : Type}

/-- A step succeeds on a shuffled survey if another one does on the survey, with a result in
relation, and leaves the surveys shuffled. -/
def Mirrors (step step' : Drafting α) (Q : α → α → Prop) : Prop :=
  ∀ s s' a t, s.Shuffled s' → step.run.run s = (.ok a, t) →
    ∃ b t', step'.run.run s' = (.ok b, t') ∧ t.Shuffled t' ∧ Q a b

theorem Mirrors.pure (a : α) : Mirrors (Pure.pure a) (Pure.pure a) Eq := by
  rintro s s' _ _ shuffled ⟨⟩
  exact ⟨a, s', rfl, shuffled, rfl⟩

theorem Mirrors.throw {f : Failure} {step : Drafting α} {Q : α → α → Prop} :
    Mirrors (MonadExcept.throw f) step Q := by
  rintro s s' _ _ shuffled ⟨⟩

theorem Mirrors.lift_of {r r' : Outcome α} {Q : α → α → Prop}
    (related : ∀ a, r = .ok a → ∃ b, r' = .ok b ∧ Q a b) :
    Mirrors (Drafting.lift r) (Drafting.lift r') Q := by
  cases r with
  | error f => exact Mirrors.throw
  | ok a =>
    rintro s s' _ _ shuffled ⟨⟩
    obtain ⟨b, rfl, same⟩ := related a rfl
    exact ⟨b, s', rfl, shuffled, same⟩

theorem Mirrors.lift (r : Outcome α) : Mirrors (Drafting.lift r) (Drafting.lift r) Eq :=
  Mirrors.lift_of fun a done => ⟨a, done, rfl⟩

theorem Mirrors.bind {step step' : Drafting α} {next next' : α → Drafting β} {Q : β → β → Prop}
    (first : Mirrors step step' Eq) (further : ∀ a, Mirrors (next a) (next' a) Q) :
    Mirrors (step >>= next) (step' >>= next') Q := by
  intro s s' b t shuffled done
  obtain ⟨a, mid, here, later⟩ := run_bind_ok.mp done
  obtain ⟨_, mid', here', between, rfl⟩ := first s s' a mid shuffled here
  obtain ⟨b', t', later', ends, same⟩ := further a mid mid' b t between later
  exact ⟨b', t', run_bind_ok.mpr ⟨a, mid', here', later'⟩, ends, same⟩

theorem Mirrors.bind_bind {γ : Type} {first first' : Drafting γ} {step step' : γ → Drafting α}
    {next next' : α → Drafting β} {Q : β → β → Prop}
    (both : Mirrors (first >>= step) (first' >>= step') Eq)
    (further : ∀ a, Mirrors (next a) (next' a) Q) :
    Mirrors (first >>= fun c => step c >>= next) (first' >>= fun c => step' c >>= next') Q := by
  rw [← bind_assoc, ← bind_assoc]
  exact both.bind further

theorem Mirrors.get_bind {next next' : Survey → Drafting β} {Q : β → β → Prop}
    (further : ∀ s s', s.Shuffled s' → Mirrors (next s) (next' s') Q) :
    Mirrors (MonadState.get >>= next) (MonadState.get >>= next') Q :=
  fun s s' b t shuffled done => further s s' shuffled s s' b t shuffled done

theorem Mirrors.modify {change change' : Survey → Survey}
    (kept : ∀ s s', s.Shuffled s' → (change s).Shuffled (change' s')) :
    Mirrors (modify change) (modify change') Eq := by
  rintro s s' _ _ shuffled ⟨⟩
  exact ⟨(), change' s', rfl, kept s s' shuffled, rfl⟩

theorem Mirrors.forEach {step : Nat → α → Drafting Unit} (items : List α) (i : Nat)
    (each : ∀ i, ∀ item ∈ items, Mirrors (step i item) (step i item) Eq) :
    Mirrors (Drafting.forEach step i items) (Drafting.forEach step i items) Eq := by
  induction items generalizing i with
  | nil => exact Mirrors.pure ()
  | cons item rest ih =>
    refine Mirrors.bind (each i item List.mem_cons_self) fun _ => ih (i + 1) ?_
    exact fun j other member => each j other (List.mem_cons_of_mem item member)

end

/-! ### Rows -/

theorem mirrors_update (name : String) {change change' : Draft → Draft}
    (kept : ∀ d e, d.Shuffled e → (change d).Shuffled (change' e)) :
    Mirrors (update name change) (update name change') Eq :=
  Mirrors.modify fun _ _ shuffled => shuffled.draftedAs name (kept _ _ (shuffled.drafts name))

theorem mirrors_touch (name : String) : Mirrors (touch name) (touch name) Eq :=
  mirrors_update name fun _ _ shuffled => shuffled

/-- What is logged does not count. -/
theorem mirrors_log (entry other : LogEntry) : Mirrors (log entry) (log other) Eq :=
  Mirrors.modify fun _ _ shuffled => { shuffled with }

theorem mirrors_nodeRow (i : Nat) (row : Table Json) :
    Mirrors (nodeRow i row) (nodeRow i row) Eq := by
  apply Mirrors.bind (Mirrors.lift _)
  intro name
  apply Mirrors.bind (mirrors_touch name)
  intro _
  split
  · split
    · exact mirrors_update name fun _ _ shuffled => { shuffled with asn := rfl }
    · exact Mirrors.pure ()
  · exact Mirrors.pure ()

theorem mirrors_interfaceRow (i : Nat) (row : Table Json) :
    Mirrors (interfaceRow i row) (interfaceRow i row) Eq := by
  apply Mirrors.bind (Mirrors.lift _)
  intro e
  apply Mirrors.bind (mirrors_touch e.node)
  intro _
  apply Mirrors.bind (Mirrors.lift _)
  intro imports
  apply Mirrors.bind (Mirrors.lift _)
  intro exports
  refine mirrors_update e.node fun d d' shuffled => ?_
  rw [shuffled.interfaces]
  exact { shuffled with interfaces := rfl }

theorem mirrors_addressRow (i : Nat) (row : Table Json) :
    Mirrors (addressRow i row) (addressRow i row) Eq := by
  unfold addressRow
  dsimp only
  split
  · exact Mirrors.pure ()
  · apply Mirrors.bind (Mirrors.lift _)
    intro name
    apply Mirrors.bind (Mirrors.lift _)
    intro address
    split
    · exact Mirrors.throw
    · refine Mirrors.bind (Mirrors.modify fun s s' shuffled => ?_) fun _ => ?_
      · exact { shuffled with owners := by rw [shuffled.owners] }
      · refine mirrors_update name fun d d' shuffled => ?_
        rw [shuffled.networks]
        split
        · exact shuffled
        · exact { shuffled with networks := rfl }

theorem mirrors_ensureInterface (e : Endpoint) :
    Mirrors (ensureInterface e) (ensureInterface e) Eq := by
  refine mirrors_update e.node fun d d' shuffled => ?_
  rw [shuffled.interfaces]
  split
  · exact shuffled
  · exact { shuffled with interfaces := rfl }

theorem mirrors_edges (edges : List Edge) :
    Mirrors (modify fun s => { s with edges := s.edges ++ edges })
      (modify fun s => { s with edges := s.edges ++ edges }) Eq :=
  Mirrors.modify fun _ _ shuffled => { shuffled with edges := by rw [shuffled.edges] }

theorem mirrors_linkRow (i : Nat) (row : Table Json) :
    Mirrors (linkRow i row) (linkRow i row) Eq := by
  apply Mirrors.bind (Mirrors.lift _)
  intro source
  apply Mirrors.bind (Mirrors.lift _)
  intro target
  apply Mirrors.bind (mirrors_ensureInterface source)
  intro _
  apply Mirrors.bind (mirrors_ensureInterface target)
  intro _
  exact mirrors_edges _

/-! ### Sessions -/

theorem mirrors_bind (e : Endpoint) (n : Tables.Neighbor) :
    Mirrors (Drafting.bind e n) (Drafting.bind e n) Eq := by
  refine mirrors_update e.node fun d d' shuffled => ?_
  rw [shuffled.interfaces]
  exact { shuffled with interfaces := rfl }

theorem mirrors_localAsn (n : Tables.Neighbor) : Mirrors (localAsn n) (localAsn n) Eq := by
  apply Mirrors.bind (mirrors_touch n.node)
  intro _
  apply Mirrors.get_bind
  intro s s' shuffled
  rw [(shuffled.drafts n.node).asn]
  split
  · exact mirrors_update n.node fun _ _ shuffled => { shuffled with asn := rfl }
  · split
    · exact Mirrors.pure ()
    · exact mirrors_log _ _
  · exact Mirrors.pure ()

theorem mirrors_externalSession (n : Tables.Neighbor) :
    Mirrors (externalSession n) (externalSession n) Eq := by
  apply Mirrors.bind (mirrors_touch (peerName n))
  intro _
  apply Mirrors.get_bind
  intro s s' shuffled
  have same := shuffled.drafts (peerName n)
  dsimp only
  rw [same.external, same.isUsed]
  split
  · exact Mirrors.throw
  · refine Mirrors.bind (mirrors_update (peerName n) fun d d' same => ?_) fun _ => ?_
    · rw [same.asn]
      exact { same with external := rfl, asn := rfl }
    apply Mirrors.bind (mirrors_bind _ n)
    intro _
    apply Mirrors.bind (mirrors_ensureInterface _)
    intro _
    exact mirrors_edges _

theorem mirrors_session (i : Nat) (n : Tables.Neighbor) :
    Mirrors (session i n) (session i n) Eq := by
  apply Mirrors.bind (mirrors_localAsn n)
  intro _
  apply Mirrors.get_bind
  intro s s' shuffled
  rw [shuffled.owners, shuffled.edges]
  split
  · exact mirrors_externalSession n
  · split
    · exact mirrors_bind _ n
    · exact mirrors_log _ _

/-! ### Topologies -/

theorem node?_drafts (drafts : Table Draft) (edges : List Edge) (name : String) :
    Topology.node? ⟨drafts.map fun (name, d) => d.toNode name, edges⟩ name =
      (drafts.get? name).map (·.toNode name) := by
  unfold Topology.node?
  dsimp only
  induction drafts with
  | nil => rfl
  | cons entry rest ih =>
    obtain ⟨key, d⟩ := entry
    rw [List.map_cons, List.find?_cons, Table.get?, ih]
    by_cases own : key = name
    · subst own
      simp [Draft.toNode]
    · simp [own, Draft.toNode]

theorem mirrors_create : Mirrors (do
    let s ← get
    log (.debug "Built topology"
      [("nodes", .nat s.drafts.length), ("edges", .nat s.edges.length)])
    lift (Topology.create (s.drafts.map fun (name, d) => d.toNode name) s.edges)) (do
    let s ← get
    log (.debug "Built topology"
      [("nodes", .nat s.drafts.length), ("edges", .nat s.edges.length)])
    lift (Topology.create (s.drafts.map fun (name, d) => d.toNode name) s.edges))
    Topology.Shuffled := by
  apply Mirrors.get_bind
  intro s s' shuffled
  apply Mirrors.bind (mirrors_log _ _)
  intro _
  apply Mirrors.lift_of
  intro t created
  obtain ⟨rfl, resolved⟩ := Topology.create_iff.mp created
  have names : ∀ drafts : Table Draft,
      (drafts.map fun (name, d) => d.toNode name).map Node.name = drafts.names := by
    intro drafts
    rw [List.map_map]
    rfl
  have same : Topology.Shuffled ⟨s.drafts.map fun (name, d) => d.toNode name, s.edges⟩
      ⟨s'.drafts.map fun (name, d) => d.toNode name, s'.edges⟩ := by
    refine ⟨shuffled.edges, fun name => ?_⟩
    rw [node?_drafts, node?_drafts]
    have known := shuffled.known name
    have drafts := shuffled.drafts name
    unfold Survey.draft at drafts
    unfold Table.has at known
    generalize s.drafts.get? name = own at known drafts ⊢
    generalize s'.drafts.get? name = other at known drafts ⊢
    cases own <;> cases other
    · exact .none
    · cases known
    · cases known
    · exact .some (drafts.toNode name)
  refine ⟨_, Topology.create_iff.mpr ⟨rfl, same.resolved ?_ resolved⟩, same⟩
  rw [names]
  exact shuffled.others

/-! ### Definitions -/

theorem inlinePolicies_shuffled {node : String} {d e : Draft} {policies : Table Policy}
    (shuffled : d.Shuffled e)
    (done : inlinePolicies node d.definitions d.policies = .ok policies) :
    ∃ others, inlinePolicies node e.definitions e.policies = .ok others ∧
      policies.Shuffled others := by
  obtain ⟨others, related, perm⟩ :=
    List.perm_comp_forall₂ shuffled.policies.perm.symm (inlinePolicies_ok.mp done)
  refine ⟨others, inlinePolicies_ok.mpr (related.imp fun a b both => ⟨both.1, ?_⟩), perm.symm, ?_⟩
  · rw [names_inlinePolicies done]
    exact shuffled.policies.distinct
  · rw [← Policy.inline_congr shuffled.definitions]
    exact both.2

theorem mirrors_inlineDrafts : Mirrors (do forEach inlineDraft 0 (← get).drafts)
    (do forEach inlineDraft 0 (← get).drafts) Eq := by
  intro s s' _ t shuffled done
  obtain ⟨written, related, rfl⟩ := (inlineDrafts_ok shuffled.distinct).mp done
  have each : ∀ entry ∈ s'.drafts, ∃ out, WritesOut entry out ∧ True := by
    rintro ⟨name, e⟩ member
    have own : s'.draft name = e := by
      rw [Survey.draft, Table.get?_of_mem shuffled.others member]
      rfl
    obtain ⟨policies, inlined, -⟩ := draft_written related name
    obtain ⟨others, again, -⟩ := inlinePolicies_shuffled (own ▸ shuffled.drafts name) inlined
    exact ⟨(name, { e with policies := others }), ⟨rfl, others, again, rfl⟩, trivial⟩
  obtain ⟨written', related', -⟩ := exists_forall₂_of_mem each
  have done' := (inlineDrafts_ok shuffled.others).mpr ⟨written', related', rfl⟩
  refine ⟨(), _, done', ?_, rfl⟩
  refine { shuffled with
    distinct := ?_, others := ?_, known := fun name => ?_, drafts := fun name => ?_ }
  · exact (names_written related).symm ▸ shuffled.distinct
  · exact (names_written related').symm ▸ shuffled.others
  · have known := shuffled.known name
    rw [Bool.eq_iff_iff, Table.has_iff, Table.has_iff] at known ⊢
    rw [names_written related, names_written related']
    exact known
  · obtain ⟨policies, inlined, same⟩ := draft_written related name
    obtain ⟨policies', inlined', same'⟩ := draft_written related' name
    have base := shuffled.drafts name
    obtain ⟨others, again, perm⟩ := inlinePolicies_shuffled base inlined
    obtain rfl := Except.ok.inj (again.symm.trans inlined')
    rw [same, same']
    exact { base with policies := perm }

end Drafting

end RoutePolicy
