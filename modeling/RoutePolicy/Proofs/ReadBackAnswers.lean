import RoutePolicy.Proofs.PropagatedKinds
import RoutePolicy.Proofs.ReachabilitySound
import RoutePolicy.Proofs.ResolvedCalls
import RoutePolicy.Proofs.StoredPolicies

/-!
Answers that are read back. Evaluation leaves well-formed conditions, but for the size of the sums in
them: local preferences are added up without a limit, while documents hold safe integers only.
-/

set_option autoImplicit false

namespace RoutePolicy

namespace Expr

/-! ### Simplification -/

/-- A node of a condition: it is well formed if its sums are safe integers. -/
structure Summed (e : Expr) : Prop where
  supported : e.isSupported = true
  formed : (∀ i ∈ e.sums, i.natAbs ≤ Number.maxSafe) → e.Formed
  room : ∀ cls es, e = union cls es → 2 ≤ es.length

theorem Summed.new {e : Expr} (formed : e.Formed) (supported : e.isSupported = true)
    (room : ∀ cls es, e = union cls es → 2 ≤ es.length) : e.Summed :=
  ⟨supported, fun _ => formed, room⟩

theorem summed_stable : Stable type (fun _ _ => True) True Summed :=
  formed_stable (fun _ => Summed.new)
    (fun _ own none => own.formed (by rw [none]; exact List.forall_mem_nil _))
    fun cls es own => own.room cls es rfl

theorem sums_withChildren (e : Expr) (es : List Expr) : (e.withChildren es).sums = e.sums := by
  unfold withChildren
  split <;> rfl

/-- An operator is ready for the rules over other operands. -/
theorem Summed.ready {e : Expr} (own : (∀ i ∈ e.sums, i.natAbs ≤ Number.maxSafe) → e.Formed)
    (supported : e.isSupported = true) {es : List Expr} (lengths : es.length = e.children.length)
    (parts : ∀ c ∈ es, c.Each Summed) :
    Stable.Ready (fun _ _ => True) True Summed (e.withChildren es) where
  parts := by rwa [children_withChildren lengths]
  suits _ _ _ _ := trivial
  root enough := by
    refine ⟨(isSupported_withChildren e es).trans supported, fun safe => ?_, ?_⟩
    · rw [sums_withChildren] at safe
      exact (own safe).withChildren lengths
    · exact fun cls operands same => enough cls operands same trivial
  filled cls operands same _ := by
    have formed : (e.withChildren es).Formed := by
      refine (own ?_).withChildren lengths
      rw [← sums_withChildren e es, same]
      exact List.forall_mem_nil _
    rw [same] at formed
    exact formed.admissible

theorem summed_simplify {e : Expr} (each : e.Each Summed) : e.simplify.Each Summed := by
  refine (summed_stable.eachOf_simplify (fun e es own related => ?_) each).1
  exact Summed.ready own.formed own.supported related.length_eq.symm
    (forall_of_forall₂ related fun _ _ suits => suits.1)

/-- A junction of no operands is a constant, which documents can hold. -/
theorem summed_simplify_junction (op : Junction) {es : List Expr}
    (each : ∀ e ∈ es, e.simplify.Each Summed) : (junction none op es).simplify.Each Summed := by
  rcases es with _ | ⟨e, rest⟩
  · cases op <;> exact each_leaf (.new (.new rfl trivial) rfl nofun) rfl
  · rw [simplify_eq]
    have formed : (junction none op (e :: rest)).Formed := .new rfl (List.cons_ne_nil e rest)
    exact (summed_stable.eachOf_settle (Summed.ready (fun _ => formed) rfl
      (List.length_map _) (List.forall_mem_map.mpr each))).1

theorem summed_joins : Joins (·.Each Summed) where
  bool value := (summed_stable.eachOf_bool value).1
  conjuncts c each := by
    unfold conjuncts
    split
    · exact fun x member => each.child member
    · exact List.forall_mem_nil _
    · exact List.forall_mem_singleton.mpr each
  junction op _ each := summed_simplify_junction op fun e member => summed_simplify (each e member)

/-! ### Evaluation -/

/-- The value of a slot: such an expression, or an AS path, whatever the size of its numbers. -/
def Carried (x : Expr) : Prop := x.Each Summed ∨ ∃ cls list, x = lit cls (.asPath list)

theorem Carried.each {x : Expr} (carried : x.Carried) {expected : ValueType}
    (typed : x.type = expected) (other : expected ≠ .asPath) : x.Each Summed := by
  rcases carried with each | ⟨cls, list, rfl⟩
  · exact each
  · exact absurd typed.symm other

/-- The value of a rewritten node over carried operands is carried. -/
theorem carried_simplifyNode {e : Expr} (operator : e.isOperator = true) (formed : e.Formed)
    {xs : List Expr} (lengths : xs.length = e.children.length)
    (fits : (e.withChildren xs).fitted = true) (carried : ∀ x ∈ xs, x.Carried) :
    (e.withChildren xs).simplifyNode.Carried := by
  have supported : e.isSupported = true := by
    cases e <;> first | rfl | cases operator
  have simplified : (∀ x ∈ xs, x.Each Summed) → (e.withChildren xs).simplifyNode.Carried :=
    fun each => .inl (summed_stable.eachOf_simplifyNode
      (Summed.ready (fun _ => formed) supported lengths each)).1
  have typed : ∀ {expected}, e.operandType? = some expected → expected ≠ .asPath →
      ∀ x ∈ xs, x.Each Summed := by
    intro expected needed other x member
    have supported : x.isSupported = true := by
      rcases carried x member with each | ⟨cls, list, rfl⟩
      · exact each.root.supported
      · rfl
    simp only [fitted, operandType?_withChildren, needed, children_withChildren lengths,
      List.all_eq_true] at fits
    exact (carried x member).each ((fits_iff supported).mp (fits x member)) other
  cases e with
  | prepend cls asns operand =>
    -- only here an AS path can be an operand, and then the node becomes one
    obtain ⟨x, rfl⟩ := List.length_eq_one_iff.mp lengths
    rcases List.forall_mem_singleton.mp carried with each | ⟨inner, list, rfl⟩
    · exact simplified (List.forall_mem_singleton.mpr each)
    · change (simplifyPrepend asns (lit inner (.asPath list))).Carried
      unfold simplifyPrepend
      split
      · exact .inr ⟨inner, list, rfl⟩
      · exact .inr ⟨none, asns ++ list, rfl⟩
  | junction _ _ _ | union _ _ | not _ _ | compare _ _ _ _ | hasCommunity _ _ _
  | inRanges _ _ _ _ => exact simplified (typed rfl (by decide))
  | lit _ _ | attr _ _ | adjust _ _ _ | call _ _ | namedSet _ _ | inList _ _ _ _
  | unsupported _ _ => cases operator

theorem summed_int (value : Int) : (Expr.int value).Each Summed :=
  each_leaf ⟨rfl, fun safe => .new rfl (safe _ (List.mem_singleton_self _)), nofun⟩ rfl

theorem summed_offset (delta : Int) : (offset delta).Each Summed := by
  have adjusted : ∀ {shift : Shift} {amount : Int}, 0 ≤ amount →
      (adjust none shift amount).Each Summed := by
    intro shift amount positive
    refine each_leaf ⟨rfl, fun safe => ?_, nofun⟩ rfl
    cases shift <;> exact .new rfl ⟨positive, safe _ (List.mem_singleton_self _)⟩
  unfold offset
  split
  · exact each_leaf (.new (.new rfl trivial) rfl nofun) rfl
  · split
    · exact adjusted (by omega)
    · exact adjusted (by omega)

section

variable [Arithmetic] {calls : Calls} {r : Record}

theorem moved_carried (current : Expr) (delta : Int) :
    (current.moved delta).Gives False Carried := by
  unfold moved
  split
  · exact .inl (summed_int _)
  · exact .inl (summed_offset _)
  · exact .inl (summed_offset _)
  · exact False.elim

/-- The values of well-formed expressions over carried slots are carried. -/
theorem evaluate_carried (answers : calls.Give False (fun _ => Carried) (·.Each Summed))
    (record : r.Holds fun _ => Carried) {e : Expr} (formed : e.Each Formed) :
    (e.evaluate calls r).Gives False Carried := by
  induction e using childrenInduction with
  | step e ih =>
    cases operator : e.isOperator with
    | true =>
        rw [evaluate_isOperator operator]
        have parts := evaluateAll_gives (R := fun _ => Carried)
          fun c member => ih c member (formed.child member)
        apply parts.bind
        intro xs values
        cases combined : (e.withChildren xs).combine with
        | error f => exact False.elim
        | ok x =>
            obtain ⟨fits, rfl⟩ := combine_ok.mp combined
            exact carried_simplifyNode operator formed.root values.length_eq.symm fits
              (forall_of_forall₂ values fun _ _ carried => carried)
    | false =>
        cases e with
        | lit cls l => exact .inl (each_leaf (.new formed.root rfl nofun) rfl)
        | attr cls name => exact record.lookup name
        | call cls policy => exact (answers policy r record).mono fun _ each => .inl each
        | adjust cls shift amount =>
            apply (record.lookup .localPreference).bind
            exact fun current _ => moved_carried current _
        | inList _ _ _ _ | namedSet _ _ | unsupported _ _ => exact False.elim
        | _ => cases operator

/-- Well-formed expressions have carried values, and the conditions among these are well formed but
for the size of sums. -/
theorem carried_kinds :
    Kinds False (fun _ e => e.Each Formed) (fun _ => Carried) (·.Each Summed) where
  value answers record formed := evaluate_carried answers record formed
  constant _ _ _ impossible := impossible.elim
  condition x carried open' := by
    rcases carried with each | ⟨cls, list, rfl⟩
    · exact ⟨each, (summed_stable.eachOf_negate ⟨each, trivial⟩).1⟩
    · cases open'
  answer paths d conditions := by
    unfold residual
    split
    · exact (summed_stable.eachOf_bool false).1
    · apply summed_simplify_junction .any
      refine List.forall_mem_map.mpr fun path member => ?_
      exact summed_joins.junction .all _ (conditions path (List.mem_filter.mp member).1)

end

/-! ### Reading -/

/-- An expression is read back from what it is written as, classes outside the vocabulary not being
kept. -/
def ReadsBack (e : Expr) : Prop := Encoding.readExpr false (Encoding.writeExpr e) = .ok e

/-- Nothing but the size of sums keeps a condition from being read back. -/
theorem readsBack_iff {e : Expr} (each : e.Each Summed) : e.ReadsBack ↔ e.IsSafe := by
  constructor
  · exact fun read c member => (Encoding.readExpr_formed read c member).safe
  · intro safe
    have formed : e.Each Formed := by
      intro c member
      refine (each c member).formed fun i sum => safe c member i ?_
      cases c with
      | lit _ l => cases l <;> first | exact sum | cases sum
      | adjust _ _ _ => exact sum
      | _ => cases sum
    refine (Encoding.readExpr_iff_admitted e _).mpr ⟨readExpr_writeExpr formed, ?_⟩
    intro c member unsupported
    rw [(each c member).supported] at unsupported
    cases unsupported

end Expr

/-- A value that is given is carried. -/
theorem Given.carried {given : Given} {l : Literal} (valid : given.literal = .ok l) :
    (Expr.lit none l).Carried := by
  have leaf : ∀ {l : Literal}, (Expr.lit none l).Formed → (Expr.lit none l).Carried :=
    fun formed => .inl (Expr.each_leaf (.new formed rfl nofun) rfl)
  have integers : ∀ {name : Attribute} {value : Number}, Given.integer name value = .ok l →
      (Expr.lit none l).Carried := by
    intro name value found
    unfold Given.integer at found
    split at found
    · cases found
      exact .inl (Expr.summed_int _)
    · cases found
  cases given with
  | network text | nextHop text =>
      simp only [Given.literal] at valid
      split at valid
      · rename_i parses
        cases valid
        exact leaf (.new rfl parses)
      · cases valid
  | communities texts =>
      simp only [Given.literal] at valid
      split at valid
      · cases valid
      · rename_i all
        cases valid
        refine leaf (.new rfl fun text member => ?_)
        simpa using List.find?_eq_none.mp all text member
  | asPath asns =>
      simp only [Given.literal] at valid
      split at valid
      · cases valid
        exact .inr ⟨none, _, rfl⟩
      · cases valid
  | localPreference value | metric value | weight value | tag value => exact integers valid

theorem Topology.Loaded.resolved {t : Topology} (loaded : t.Loaded) : t.Resolved := by
  rcases loaded with ⟨keep, j, read⟩ | ⟨keep, raw, built⟩
  · exact (Returned.loaded read).resolved
  · exact (Returned.drafted built).resolved

/-- The members of a table are those of the object it is rendered as. -/
theorem Table.get?_rendered {entries : Table Expr} (distinct : entries.names.Nodup) :
    ∃ members : Table Json,
      .object (entries.map fun (name, e) => (name, Encoding.writeExpr e)) = Json.obj members ∧
        ∀ name, members.get? name = (entries.get? name).map Encoding.writeExpr := by
  refine ⟨_, rfl, fun name => ?_⟩
  rw [Table.get?_arrange, Table.get?_map]
  rwa [Table.names, List.map_map]

/-- Answers are read back. The conditions that an answer renders are read back, by a reader that
knows no class outside the vocabulary, exactly if the integers in them are safe. The sums of local
preferences that evaluation computes need not be; nothing else can fail. -/
theorem answers_read_back [Arithmetic] {t : Topology} (loaded : t.Loaded) {limits : Limits}
    {q : Query} {a : Answer} (asked : t.ask limits q = .ok a) :
    (a.toJson.get? "witness" = some (Encoding.writeExpr a.witness) ∧
      (a.witness.ReadsBack ↔ a.witness.IsSafe)) ∧
    ∃ nodes : Table Json, a.toJson.get? "nodes" = some (.obj nodes) ∧
      (∀ name, nodes.get? name = (a.predicates.get? name).map Encoding.writeExpr) ∧
      ∀ entry ∈ a.predicates, (entry.2.ReadsBack ↔ entry.2.IsSafe) := by
  have policies : t.Holds fun _ e => e.Each Expr.Formed :=
    loaded.each (Expr.formed_writable (fun _ formed _ => formed) fun _ formed => formed)
      fun _ _ _ => Encoding.readExpr_formed
  have starts : ∀ values openSlots r, Record.ofGiven values openSlots = .ok r →
      r.Holds fun _ => Expr.Carried := by
    intro values openSlots r given slot member
    rcases Record.given_of_mem given slot member with ⟨value, l, valid, rfl⟩ | ⟨-, own⟩
    · exact Given.carried valid
    · rw [own]
      exact .inl (Expr.each_leaf (.new (.new rfl trivial) rfl nofun) rfl)
  obtain ⟨witness, predicates⟩ :=
    Propagation.ask_holds Expr.carried_kinds Expr.summed_joins policies starts asked
  have distinct : a.predicates.names.Nodup := by
    obtain ⟨_, s, -, rfl⟩ := Topology.ask_ok.mp asked
    have names : (Propagation.predicates t s).names = t.nodes.map Node.name := by
      rw [Propagation.predicates, Table.names, List.map_map]
      rfl
    exact names ▸ loaded.resolved.distinct
  obtain ⟨nodes, rendered, members⟩ := Table.get?_rendered distinct
  exact ⟨⟨rfl, Expr.readsBack_iff witness⟩, nodes, congrArg some rendered, members,
    fun entry member => Expr.readsBack_iff (predicates entry member)⟩

namespace RaisingPeer

theorem grown_safe : grown.IsSafe := by
  unfold Expr.IsSafe Expr.Each
  decide

end RaisingPeer

theorem raising_peer_answer_read_back :
    (RaisingPeer.topology RaisingPeer.policy).Loaded ∧ ∃ a,
      @Topology.ask .binary64 (RaisingPeer.topology RaisingPeer.policy) .default
        (RaisingPeer.query none) = .ok a ∧
      ("b", RaisingPeer.grown) ∈ a.predicates ∧ RaisingPeer.grown.ReadsBack := by
  obtain ⟨a, asked, reported⟩ := RaisingPeer.reported (.inr rfl)
  obtain ⟨-, nodes, -, -, each⟩ := @answers_read_back .binary64 _ RaisingPeer.loaded _ _ _ asked
  exact ⟨RaisingPeer.loaded, a, asked, reported, (each _ reported).mpr RaisingPeer.grown_safe⟩

namespace RaisingPeer

/-- A statement that raises the local preference by the largest safe integer. -/
def leap : Statement := .assign none .localPreference (.adjust none .increment 9007199254740991)

/-- Raises the local preference twice and announces only routes the metric of which is above. -/
def leaping : Policy :=
  ⟨"P", [leap, leap, .branch none (.compare none .gt (.ref .metric) (.ref .localPreference))
    [.finish none .accept] [.finish none .reject] .absent]⟩

def leapDocument : Json :=
  assignment "SetLocalPreference" "localPreference"
    (.obj [("class", .str "IncrementLocalPreference"), ("addend", .int 9007199254740991)])

def leapingDocument : Json :=
  .obj [("name", .str "P"), ("statements", .arr [leapDocument, leapDocument,
    branching (.obj [("class", .str "IntComparison"), ("comparator", .str "GT"),
      ("left", ref "metric"), ("right", ref "localPreference")])])]

/-- The condition that is reported for `b` then. -/
def beyond : Expr := .compare none .gt (.ref .metric) (.adjust none .increment 18014398509481982)

theorem loaded_leaping : (topology leaping).Loaded :=
  .inl ⟨false, document leapingDocument, by with_unfolding_all rfl⟩

theorem reported_leaping : ∃ a, @Topology.ask .binary64 (topology leaping) .default (query none) =
    .ok a ∧ ("b", beyond) ∈ a.predicates := by
  have sends : ∃ w hop, @Propagation.crossings .binary64 (topology leaping) 1024 origin edge =
      .ok [.arrival w, .refused hop] ∧ w.node = "b" ∧ (Expr.any [w.condition]).simplify = beyond :=
    ⟨_, _, by with_unfolding_all rfl, by with_unfolding_all rfl, by with_unfolding_all rfl⟩
  obtain ⟨w, hop, sent, there, condition⟩ := sends
  have only : ∀ x ∈ [w], x.node = "b" := by simpa using there
  have origins : (query none).origins (topology leaping) = .ok [origin] := by with_unfolding_all rfl
  have rests := @settled .binary64 _ _ _ _ _ rfl only sent (gathered there [hop])
  obtain ⟨answer, asked, reported⟩ := @answered .binary64 _ _ _ _ _ origins rests rfl only
  rw [List.map_singleton, condition] at reported
  exact ⟨answer, asked, reported⟩

/-- The amount is no safe integer. -/
theorem beyond_refused : Encoding.readExpr false (Encoding.writeExpr beyond) =
    Outcome.under [.field "right", .field "addend"] (.error (.encoding (.notInteger "addend"))) := by
  with_unfolding_all rfl

end RaisingPeer

/-- Sums of local preferences leave what documents can hold. -/
theorem leaping_answer_not_read_back :
    (RaisingPeer.topology RaisingPeer.leaping).Loaded ∧ ∃ a,
      @Topology.ask .binary64 (RaisingPeer.topology RaisingPeer.leaping) .default
        (RaisingPeer.query none) = .ok a ∧
      ("b", RaisingPeer.beyond) ∈ a.predicates ∧ ¬RaisingPeer.beyond.ReadsBack := by
  obtain ⟨a, asked, reported⟩ := RaisingPeer.reported_leaping
  refine ⟨RaisingPeer.loaded_leaping, a, asked, reported, ?_⟩
  rw [Expr.ReadsBack, RaisingPeer.beyond_refused]
  rintro ⟨⟩

end RoutePolicy
