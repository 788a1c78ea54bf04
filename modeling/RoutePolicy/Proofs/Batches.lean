import RoutePolicy.Proofs.FailedQueries
import RoutePolicy.Proofs.QueryKeys
import RoutePolicy.Reachability.Cache

/-!
A list of queries is answered as if each query were asked alone, and stored answers change nothing
but the query that an answer repeats: a stored answer repeats the query it was computed for. The
invariant of a series of questions is that every stored answer is the one of a query with the text
it is stored under.
-/

set_option autoImplicit false

namespace RoutePolicy

/-- An answer repeats the query it was computed for. -/
theorem Topology.query_of_ask [Arithmetic] {t : Topology} {limits : Limits} {q : Query}
    {answer : Answer} (known : t.ask limits q = .ok answer) : answer.query = q := by
  obtain ⟨_, -, known⟩ := Outcome.bind_ok.mp known
  obtain ⟨_, -, same⟩ := Outcome.bind_ok.mp known
  cases same
  rfl

/-- The answer as one to another query that asks the same. -/
def Answer.repeating (q : Query) (answer : Answer) : Answer := { answer with query := q }

theorem Answer.repeating_own {q : Query} {answer : Answer} (own : answer.query = q) :
    answer.repeating q = answer := by
  subst own
  rfl

/-- The entry with the answer to its own query, where a stored one repeats another. -/
def BatchEntry.restated (e : BatchEntry) : BatchEntry :=
  { e with result := e.result.map (Answer.repeating e.query) }

/-- What an entry says of its query: it was answered, the bound on crossings was met before there
was an answer, or the query was refused, or its policies cannot be evaluated. -/
structure BatchEntry.Reports (e : BatchEntry) : Prop where
  ok : e.status = "ok" ↔ ∃ answer, e.result = .ok answer
  inconclusive : e.status = "inconclusive" ↔
    ∃ f bound, e.result = .error f ∧ f.cause = .cycleBound bound
  error : e.status = "error" ↔ ∃ f, e.result = .error f ∧
    ((∃ fault, f.cause = .query fault) ∨ ∃ fault, f.cause = .evaluation fault)

/-! ### Stored answers -/

namespace Cache

variable {c : Cache} {t : Topology} {limits : Limits} {q : Query} {answer : Answer}

/-- What is stored for a topology are its answers to queries with the texts that they are stored
under. -/
def Sound (t : Topology) (limits : Limits) (c : Cache) : Prop :=
  ∀ entry ∈ c.entries, entry.1.fingerprint = t.fingerprint →
    ∃ q : Query, q.WellFormed ∧ q.canonical = entry.1.query ∧ t.ask limits q = .ok entry.2

theorem Sound.empty : Cache.empty.Sound t limits := by
  intro entry member
  cases member

/-- A stored answer is the answer to every query that finds it. -/
theorem Sound.get? (sound : c.Sound t limits) (wellFormed : q.WellFormed)
    (found : c.get? t.fingerprint q = some answer) :
    t.ask limits q = .ok (answer.repeating q) := by
  obtain ⟨entry, first, rfl⟩ := Option.map_eq_some_iff.mp found
  have key : entry.1 = ⟨t.fingerprint, q.canonical⟩ := by simpa using List.find?_some first
  obtain ⟨asked, readable, text, known⟩ :=
    sound entry (List.mem_of_find?_eq_some first) (congrArg CacheKey.fingerprint key)
  have same : asked.canonical = q.canonical := text.trans (congrArg CacheKey.query key)
  exact Query.ask_of_canonical readable wellFormed same known

theorem Sound.set (sound : c.Sound t limits) (wellFormed : q.WellFormed)
    (known : t.ask limits q = .ok answer) : (c.set t.fingerprint q answer).Sound t limits := by
  intro entry member own
  rcases List.mem_append.mp member with old | new
  · exact sound entry (List.mem_of_mem_filter old) own
  · obtain rfl := List.mem_singleton.mp new
    exact ⟨q, wellFormed, rfl, known⟩

end Cache

/-! ### Series of questions -/

namespace Inquiry

variable {t : Topology} {limits : Limits} {i : Inquiry} {q : Query} {log : List LogEntry}

/-- Whatever answers are kept are answers of the topology. -/
def Sound (t : Topology) (limits : Limits) (i : Inquiry) : Prop :=
  ∀ c ∈ i.cache, c.Sound t limits

theorem Sound.tell (sound : i.Sound t limits) (entries : List LogEntry) :
    (i.tell entries).Sound t limits := sound

/-- Without stored answers a query is answered by propagation, and nothing is stored. -/
theorem ask_uncached (nothing : i.cache = none) :
    (i.ask t limits q).1 = t.ask limits q ∧ (i.ask t limits q).2.cache = none := by
  unfold ask
  rw [nothing, Option.bind_none]
  cases t.ask limits q <;> exact ⟨rfl, by simp [tell, nothing]⟩

/-- One question: the answer is the one of propagation, and what is stored then are still answers of
the topology. -/
theorem ask_sound (sound : i.Sound t limits) (wellFormed : q.WellFormed) :
    (i.ask t limits q).1.map (Answer.repeating q) = t.ask limits q ∧
      (i.ask t limits q).2.Sound t limits := by
  unfold ask
  cases found : i.cache.bind (·.get? t.fingerprint q) with
  | some stored =>
      obtain ⟨c, kept, hit⟩ := Option.bind_eq_some_iff.mp found
      exact ⟨((sound c kept).get? wellFormed hit).symm, sound⟩
  | none =>
      cases known : t.ask limits q with
      | error f => exact ⟨rfl, sound⟩
      | ok answer =>
          refine ⟨congrArg _ (answer.repeating_own (Topology.query_of_ask known)), ?_⟩
          intro c kept
          obtain ⟨old, was, rfl⟩ := Option.mem_map.mp kept
          exact (sound old was).set wellFormed known

/-- The inquiry after a query of a list. -/
theorem askAll_cons (i : Inquiry) (t : Topology) (limits : Limits) (q : Query)
    (rest : List Query) : ∃ entries, i.askAll t limits (q :: rest) =
      let others := ((i.ask t limits q).2.tell entries).askAll t limits rest
      (⟨q, (i.ask t limits q).1⟩ :: others.1, others.2) := by
  rw [askAll]
  dsimp only
  split
  · exact ⟨[], by simp [tell]⟩
  · rename_i f failed
    exact ⟨[q.failedEntry f], rfl⟩

theorem askAll_uncached {queries : List Query} (nothing : i.cache = none) :
    (i.askAll t limits queries).1 = queries.map fun q => ⟨q, t.ask limits q⟩ := by
  induction queries generalizing i with
  | nil => rfl
  | cons q rest ih =>
      obtain ⟨entries, steps⟩ := i.askAll_cons t limits q rest
      have first : (i.ask t limits q).1 = t.ask limits q ∧ (i.ask t limits q).2.cache = none :=
        ask_uncached nothing
      obtain ⟨answer, stillNothing⟩ := first
      rw [steps, List.map_cons, ← answer]
      have others := ih (i := (i.ask t limits q).2.tell entries) stillNothing
      exact congrArg (List.cons _) others

/-- A list of questions: every entry is the one of propagation but for the query its answer
repeats. -/
theorem askAll_sound {queries : List Query} (sound : i.Sound t limits)
    (wellFormed : ∀ q ∈ queries, q.WellFormed) :
    (i.askAll t limits queries).1.map BatchEntry.restated =
        queries.map (fun q => ⟨q, t.ask limits q⟩) ∧
      (i.askAll t limits queries).2.Sound t limits := by
  induction queries generalizing i with
  | nil => exact ⟨rfl, sound⟩
  | cons q rest ih =>
      obtain ⟨here, later⟩ := List.forall_mem_cons.mp wellFormed
      obtain ⟨answer, stillSound⟩ := ask_sound sound here
      obtain ⟨entries, steps⟩ := i.askAll_cons t limits q rest
      obtain ⟨others, atLast⟩ := ih (stillSound.tell entries) later
      rw [steps]
      refine ⟨?_, atLast⟩
      rw [List.map_cons, List.map_cons, others, BatchEntry.restated, answer]

theorem reports_ask (t : Topology) (limits : Limits) (q : Query) :
    BatchEntry.Reports ⟨q, t.ask limits q⟩ := by
  cases known : t.ask limits q with
  | ok answer => constructor <;> simp [BatchEntry.status]
  | error f =>
      have faults : (∃ fault, f.cause = .query fault) ∨ (∃ bound, f.cause = .cycleBound bound) ∨
          ∃ fault, f.cause = .evaluation fault := by
        rcases Topology.ask_failed ⟨f, known, rfl⟩ with refused | bounded | fails
        · exact .inl refused
        · exact .inr (.inl bounded)
        · exact .inr (.inr fails.fault)
      rcases faults with ⟨fault, cause⟩ | ⟨bound, cause⟩ | ⟨fault, cause⟩
      all_goals
        have code := congrArg Cause.code cause
        constructor <;> simp_all [BatchEntry.status, Failure.code, Cause.code]

/-- A list of queries is answered as if each query were asked alone. Keeping answers changes nothing
but the query that a kept answer repeats. -/
theorem askAll_alone (t : Topology) (limits : Limits) (queries : List Query)
    (log : List LogEntry) :
    ((Inquiry.mk none log).askAll t limits queries).1 =
        queries.map (fun q => ⟨q, ((Inquiry.mk none []).ask t limits q).1⟩) ∧
      (∀ e ∈ ((Inquiry.mk none log).askAll t limits queries).1, e.Reports) ∧
      ((∀ q ∈ queries, q.WellFormed) →
        ((Inquiry.mk (some .empty) log).askAll t limits queries).1.map BatchEntry.restated =
          ((Inquiry.mk none log).askAll t limits queries).1) := by
  have alone : ∀ q, ((Inquiry.mk none []).ask t limits q).1 = t.ask limits q :=
    fun q => (ask_uncached rfl).1
  have sound : (Inquiry.mk (some .empty) log).Sound t limits := by
    intro c kept
    obtain rfl := Option.mem_some.mp kept
    exact Cache.Sound.empty
  rw [askAll_uncached rfl]
  refine ⟨?_, ?_, ?_⟩
  · simp only [alone]
  · rw [List.forall_mem_map]
    exact fun q _ => reports_ask t limits q
  · exact fun wellFormed => (askAll_sound sound wellFormed).1

end Inquiry

namespace RepeatedQueries

def topology : Topology :=
  ⟨[⟨"a", none, ["10.0.0.0/8"], [("e", ⟨[], []⟩)], [], false⟩, ⟨"b", none, [], [], [], false⟩],
    [⟨⟨"a", "e"⟩, ⟨"b", "f"⟩⟩]⟩

def routed (values : List Given) : Query := ⟨"10.0.0.0/8", none, some values, some true, []⟩

def tagFirst : Query := routed [.tag 5, .metric 7]

def metricFirst : Query := routed [.metric 7, .tag 5]

def misspelled : Query := ⟨"10.0.0.0/33", some "b", none, none, []⟩

/-- The order of the members of a route does not show in the text of a query. -/
theorem canonical_swap (a b : Given) (apart : a.name ≠ b.name) :
    (routed [a, b]).canonical = (routed [b, a]).canonical := by
  have names : a.name.name ≠ b.name.name := fun same => apart (Attribute.name_inj same)
  have routes : (Json.obj (Query.routeMembers [a, b] [])).sorted =
      (Json.obj (Query.routeMembers [b, a] [])).sorted :=
    Json.sorted_perm (by simpa [Query.routeMembers, Table.names] using names) (.swap ..)
  refine congrArg Json.compact (Json.sorted_obj_congr ?_)
  exact .cons ⟨rfl, rfl⟩ (.cons ⟨rfl, rfl⟩ (.cons ⟨rfl, routes⟩ (.cons ⟨rfl, rfl⟩ .nil)))

theorem wellFormed_routed (a b : Given) (apart : a.name ≠ b.name)
    (doubles : ∀ given ∈ [a, b], given.toJson.Doubles) : (routed [a, b]).WellFormed := by
  refine ⟨Query.doubles_toJson ?_, ?_, List.nodup_nil, ?_⟩
  · intro values same
    cases same
    rw [Json.Doubles, Json.numbersIn_obj]
    intro entry member
    rw [Query.routeMembers, List.mem_append, List.mem_map] at member
    rcases member with ⟨given, listed, rfl⟩ | none
    · exact doubles given listed
    · cases none
  · simpa [routed] using apart
  · intro key member
    cases member

theorem doubles_int (i : Int) : (Json.int i).Doubles := by
  intro n member finite
  cases List.mem_singleton.mp member
  exact Number.isDouble_round finite

theorem wellFormed_misspelled : misspelled.WellFormed := by
  refine ⟨Query.doubles_toJson ?_, List.nodup_nil, List.nodup_nil, ?_⟩
  · intro values impossible
    cases impossible
  · intro key member
    cases member

/-- Two ways to write one query, and a query that is refused, each asked twice. -/
def queries : List Query := [tagFirst, misspelled, metricFirst, misspelled]

theorem wellFormed : ∀ q ∈ queries, q.WellFormed := by
  have either : ∀ given ∈ [Given.tag 5, .metric 7], given.toJson.Doubles :=
    List.forall_mem_cons.mpr ⟨doubles_int 5, List.forall_mem_singleton.mpr (doubles_int 7)⟩
  have tag : tagFirst.WellFormed := wellFormed_routed _ _ (by decide) either
  have metric : metricFirst.WellFormed := by
    apply wellFormed_routed _ _ (by decide)
    intro given listed
    exact either given ((List.Perm.swap ..).mem_iff.mp listed)
  intro q listed
  simp only [queries, List.mem_cons, List.not_mem_nil, or_false] at listed
  rcases listed with rfl | rfl | rfl | rfl
  exacts [tag, wellFormed_misspelled, metric, wellFormed_misspelled]

end RepeatedQueries

open RepeatedQueries in
theorem repeated_queries_alone : (∀ q ∈ queries, q.WellFormed) ∧
    tagFirst.canonical = metricFirst.canonical ∧
    ((Inquiry.mk none []).askAll topology .default queries).1 =
      queries.map (fun q => ⟨q, ((Inquiry.mk none []).ask topology .default q).1⟩) ∧
    (∀ e ∈ ((Inquiry.mk none []).askAll topology .default queries).1, e.Reports) ∧
    ((Inquiry.mk (some .empty) []).askAll topology .default queries).1.map BatchEntry.restated =
      ((Inquiry.mk none []).askAll topology .default queries).1 := by
  obtain ⟨alone, reports, kept⟩ := Inquiry.askAll_alone topology .default queries []
  exact ⟨wellFormed, canonical_swap _ _ (by decide), alone, reports, kept wellFormed⟩

end RoutePolicy
