import RoutePolicy.Proofs.Drafting
import RoutePolicy.Proofs.FailedQueries
import RoutePolicy.Proofs.SimplifiedReferences
import RoutePolicy.Reachability.Cache

/-!
References of topologies stay resolved. What creation checks once covers every call of every policy,
however deep it stands in a guard or an assigned value, and it covers the table of the node at which
a chain is evaluated. So no query comes to a policy that is not there.
-/

set_option autoImplicit false

namespace RoutePolicy

/-! ### Calls of expressions and statements -/

/-- A call of a policy stands somewhere in an expression. -/
inductive Expr.HasCall (callee : String) : Expr → Prop
  | here (cls : Spelling) : HasCall callee (.call cls callee)
  | part {e child : Expr} (member : child ∈ e.children) (inside : HasCall callee child) :
      HasCall callee e

/-- A call of a policy stands somewhere in a guard or an assigned value of a statement. -/
inductive Statement.HasCall (callee : String) : Statement → Prop
  | value {cls : Spelling} {target : Settable} {value : Expr} (inside : value.HasCall callee) :
      HasCall callee (.assign cls target value)
  | guard {cls : Spelling} {guard : Expr} {onTrue onFalse : List Statement} {comment : Comment}
      (inside : guard.HasCall callee) : HasCall callee (.branch cls guard onTrue onFalse comment)
  | onTrue {cls : Spelling} {guard : Expr} {onTrue onFalse : List Statement} {comment : Comment}
      {s : Statement} (member : s ∈ onTrue) (inside : HasCall callee s) :
      HasCall callee (.branch cls guard onTrue onFalse comment)
  | onFalse {cls : Spelling} {guard : Expr} {onTrue onFalse : List Statement} {comment : Comment}
      {s : Statement} (member : s ∈ onFalse) (inside : HasCall callee s) :
      HasCall callee (.branch cls guard onTrue onFalse comment)

namespace Expr

variable {callee : String}

theorem mem_calls_of_child {e child : Expr} (member : child ∈ e.children)
    (called : callee ∈ child.calls) : callee ∈ e.calls := by
  obtain ⟨node, inside, own⟩ := List.mem_filterMap.mp called
  refine List.mem_filterMap.mpr ⟨node, ?_, own⟩
  rw [nodes_eq]
  exact List.mem_cons_of_mem _ (List.mem_flatMap.mpr ⟨child, member, inside⟩)

theorem HasCall.mem_calls {e : Expr} (call : e.HasCall callee) : callee ∈ e.calls := by
  induction call with
  | here cls => exact List.mem_singleton_self callee
  | part member inside ih => exact mem_calls_of_child member ih

end Expr

namespace Statement

variable {callee : String}

theorem mem_calls {block : List Statement} :
    callee ∈ calls block ↔ ∃ e ∈ exprsAll block, callee ∈ e.calls := by
  rw [calls, List.mem_eraseDups, List.mem_flatMap]

theorem mem_exprsAll {block : List Statement} {e : Expr} :
    e ∈ exprsAll block ↔ ∃ s ∈ block, e ∈ s.exprs := by
  induction block with
  | nil => simp [exprsAll]
  | cons s rest ih => simp [exprsAll, ih]

/-- The calls of a statement are calls of its guards and assigned values. -/
theorem HasCall.exists_expr {s : Statement} (call : s.HasCall callee) :
    ∃ e ∈ s.exprs, callee ∈ e.calls := by
  induction call with
  | value inside => exact ⟨_, List.mem_singleton_self _, inside.mem_calls⟩
  | guard inside => exact ⟨_, List.mem_cons_self, inside.mem_calls⟩
  | onTrue member inside ih =>
      obtain ⟨e, among, called⟩ := ih
      have found : e ∈ exprsAll _ := mem_exprsAll.mpr ⟨_, member, among⟩
      exact ⟨e, List.mem_cons_of_mem _ (List.mem_append_left _ found), called⟩
  | onFalse member inside ih =>
      obtain ⟨e, among, called⟩ := ih
      have found : e ∈ exprsAll _ := mem_exprsAll.mpr ⟨_, member, among⟩
      exact ⟨e, List.mem_cons_of_mem _ (List.mem_append_right _ found), called⟩

theorem HasCall.mem_calls {block : List Statement} {s : Statement} (member : s ∈ block)
    (call : s.HasCall callee) : callee ∈ calls block := by
  obtain ⟨e, among, called⟩ := call.exists_expr
  exact Statement.mem_calls.mpr ⟨e, mem_exprsAll.mpr ⟨s, member, among⟩, called⟩

end Statement

/-! ### Evaluated calls -/

section

variable [Arithmetic] {callee : String}

theorem Expr.Asks.mem_calls {calls : Calls} {r : Record} {e : Expr}
    (asks : e.Asks calls r callee) : callee ∈ e.calls := by
  induction asks with
  | call cls => exact List.mem_singleton_self callee
  | operand operator place earlier inside ih => exact mem_calls_of_child (place ▸ by simp) ih

namespace Execution

mutual

/-- What running a statement evaluates stands in the statement. -/
theorem StatementEvaluates.mem_exprs {frame : Frame} {here : Position} (s : Statement) {t : Thread}
    {n : Nat} {e : Expr} {r : Record} (evaluates : StatementEvaluates frame here s t n e r) :
    e ∈ s.exprs := by
  cases s with
  | finish cls disposition => cases evaluates
  | assign cls target value =>
      cases evaluates
      exact List.mem_singleton_self _
  | branch cls guard onTrue onFalse comment =>
      rw [Statement.exprs, List.mem_cons, List.mem_append]
      cases evaluates with
      | guard => exact .inl rfl
      | @taken _ _ _ _ _ _ _ _ _ taken _ _ known chosen inside =>
          cases taken with
          | true => exact .inr (.inl (BlockEvaluates.mem_exprsAll onTrue inside))
          | false => exact .inr (.inr (BlockEvaluates.mem_exprsAll onFalse inside))
      | first known undecided room inside =>
          exact .inr (.inl (BlockEvaluates.mem_exprsAll onTrue inside))
      | second known undecided room done inside =>
          exact .inr (.inr (BlockEvaluates.mem_exprsAll onFalse inside))

theorem BlockEvaluates.mem_exprsAll {frame : Frame} {above : Position} {i : Nat}
    (block : List Statement) {t : Thread} {n : Nat} {e : Expr} {r : Record}
    (evaluates : BlockEvaluates frame above i block t n e r) : e ∈ Statement.exprsAll block := by
  cases block with
  | nil => cases evaluates
  | cons s rest =>
      rw [Statement.exprsAll, List.mem_append]
      cases evaluates with
      | first inside => exact .inl (StatementEvaluates.mem_exprs s inside)
      | rest ran resumed inside => exact .inr (BlockEvaluates.mem_exprsAll rest inside)

end

/-- What running a policy asks for is called in the policy. -/
theorem PolicyAsks.mem_calls {calls : Calls} {limit : Int} {assumptions : List Expr} {p : Policy}
    {start r : Record} (asks : PolicyAsks calls limit assumptions p start callee r) :
    callee ∈ Statement.calls p.statements := by
  obtain ⟨e, evaluates, asks⟩ := asks
  exact Statement.mem_calls.mpr ⟨e, evaluates.mem_exprsAll _, asks.mem_calls⟩

end Execution

end

/-! ### Tables that have what their policies call -/

/-- Every policy that a policy of the table calls has an entry. -/
def Table.Closed (table : Table Policy) : Prop :=
  ∀ p ∈ table.values, ∀ callee ∈ Statement.calls p.statements, table.has callee = true

section

variable [Arithmetic]

/-- No call of a known policy fails with a cause if that is no complaint about the call, and if no
policy of the table fails with it except by a call of a known one. -/
theorem Execution.callsFrom_spared {table : Table Policy} {limit : Int} {cause : Cause}
    {K : String → Prop} (recursive : ∀ name, cause ≠ .evaluation (.recursiveCall name))
    (undefined : ∀ name, K name → table.get? name = none →
      cause ≠ .evaluation (.undefinedCall name))
    (inner : ∀ p ∈ table.values, ∀ (calls : Calls) (r : Record),
      (runPolicy calls limit [] p r).FailsWith cause →
        ∃ callee r', K callee ∧ (calls callee r').FailsWith cause)
    (stack : List String) {policy : String} (own : K policy) (r : Record) :
    ¬(callsFrom table limit stack policy r).FailsWith cause := by
  intro fails
  rw [callsFrom] at fails
  split at fails
  · exact recursive policy (Outcome.failsWith_error.mp fails).symm
  · rename_i fresh
    split at fails
    · rename_i missing
      exact undefined policy own missing (Outcome.failsWith_error.mp fails).symm
    · rename_i p found
      have smaller := idle_lt fresh found
      simp only [Outcome.failsWith_bind, Outcome.not_failsWith_ok, and_false, exists_false,
        or_false] at fails
      have value : p ∈ table.values := List.mem_map_of_mem (Table.mem_of_get? found)
      obtain ⟨callee, r', known, fails⟩ := inner p value _ r fails
      exact callsFrom_spared recursive undefined inner (stack ++ [policy]) known r' fails
termination_by (idle table stack).length
decreasing_by exact smaller

open Execution in
/-- A call of a policy that has an entry, in a closed table, does not come to one that has none. -/
theorem Table.Closed.callsFrom_defined {table : Table Policy} (closed : table.Closed) (limit : Int)
    (stack : List String) {policy : String} (known : table.has policy = true) (r : Record)
    (name : String) :
    ¬(callsFrom table limit stack policy r).FailsWith (.evaluation (.undefinedCall name)) := by
  refine callsFrom_spared (K := (table.has · = true)) (by simp) ?_ ?_ stack known r
  · intro other entry missing
    simp [Table.has, missing] at entry
  · intro p value calls r fails
    obtain ⟨callee, r', asks, fails⟩ :=
      (failsWith_runPolicy (Cause.not_own_undefinedCall name)).mp fails
    exact ⟨callee, r', closed p value callee asks.mem_calls, fails⟩

/-- A policy of a closed table does not come to a policy without an entry. -/
theorem Table.Closed.run_defined {table : Table Policy} (closed : table.Closed) (limit : Int)
    {e : Evaluation} (listed : e.policy ∈ table.values) (name : String) :
    ¬(e.run table limit).FailsWith (.evaluation (.undefinedCall name)) := by
  intro fails
  obtain ⟨callee, r, asks, fails⟩ :=
    (Execution.failsWith_runPolicy (Cause.not_own_undefinedCall name)).mp fails
  exact closed.callsFrom_defined limit e.stack (closed e.policy listed callee asks.mem_calls) r name
    fails

theorem Chain.Evaluates.mem {given : Assumed} {finished : List Path} {passed : List Thread}
    {policies : List Policy} {p : Policy} {t : Thread}
    (evaluates : Chain.Evaluates given finished passed policies p t) : p ∈ policies := by
  induction evaluates with
  | here earlier => exact List.mem_cons_self
  | later extended room further ih => exact List.mem_cons_of_mem _ ih

/-- A chain that fails for what a policy comes to fails as a policy of a node does. -/
theorem Topology.ChainFails.exists_run {t : Topology} {paths : Int} {cause : Cause}
    (notPlain : ¬cause.Plain) (fails : t.ChainFails paths cause) : ∃ n ∈ t.nodes,
      ∃ e : Evaluation, e.policy ∈ n.policies.values ∧ (e.run n.policies paths).FailsWith cause := by
  obtain ⟨e, names, assumptions, r, fails⟩ := fails
  obtain ⟨_, ⟨p, thread, evaluates, rfl⟩, fails⟩ := (failsWith_evaluateChain notPlain).mp fails
  obtain ⟨n, listed, same, value⟩ := Propagation.mem_chainOf evaluates.mem
  rw [same] at fails
  exact ⟨n, listed, _, value, fails⟩

/-- No chain of a topology comes to a policy that its node does not have. -/
theorem Topology.Resolved.not_chainFails {t : Topology} (resolved : t.Resolved) (paths : Int)
    (name : String) : ¬t.ChainFails paths (.evaluation (.undefinedCall name)) := by
  intro fails
  obtain ⟨n, listed, e, value, fails⟩ :=
    fails.exists_run (mt Cause.Plain.own (Cause.not_own_undefinedCall name))
  have closed : n.policies.Closed := (resolved.nodes n listed).calls
  exact closed.run_defined paths value name fails

theorem Topology.Resolved.ask_defined {t : Topology} (resolved : t.Resolved) (limits : Limits)
    (q : Query) (name : String) :
    ¬(t.ask limits q).FailsWith (.evaluation (.undefinedCall name)) := by
  intro fails
  rcases ask_failed fails with ⟨fault, other⟩ | ⟨bound, other⟩ | fails
  · cases other
  · cases other
  · exact resolved.not_chainFails limits.paths name fails

end

/-! ### Topologies -/

namespace Topology

variable {t : Topology}

/-- Names that all have an entry stand for as many policies, in order. -/
theorem chain_supplied {n : Node} {names : List String}
    (known : ∀ name ∈ names, n.policies.has name = true) :
    (n.chain names).map some = names.map n.policies.get? := by
  induction names with
  | nil => rfl
  | cons name rest ih =>
      obtain ⟨own, later⟩ := List.forall_mem_cons.mp known
      obtain ⟨p, found⟩ := Option.isSome_iff_exists.mp own
      have head : n.chain (name :: rest) = p :: n.chain rest := List.filterMap_cons_some found
      rw [head, List.map_cons, List.map_cons, ih later, found]

/-- The interface of an endpoint names chains, and the policies for routes that leave and enter
there are the ones of these names, as many and in order. -/
def Supplied (t : Topology) (e : Endpoint) : Prop :=
  ∃ n ∈ t.nodes, n.name = e.node ∧ ∃ chains, n.interfaces.get? e.interface = some chains ∧
    (t.exportChain e).map some = chains.exports.map n.policies.get? ∧
    (t.importChain e).map some = chains.imports.map n.policies.get?

theorem Resolved.supplied (resolved : t.Resolved) {e : Endpoint} (known : t.HasEnd e) :
    t.Supplied e := by
  obtain ⟨n, found, named⟩ := known
  obtain ⟨listed, name⟩ := (node?_iff resolved.distinct).mp found
  obtain ⟨chains, own⟩ := Option.isSome_iff_exists.mp named
  have bound := (resolved.nodes n listed).bound _ (Table.mem_of_get? own)
  have here : t.chains e = chains := by
    simp only [Topology.chains, found, Option.bind_some, own, Option.getD_some]
  refine ⟨n, listed, name, chains, own, ?_, ?_⟩
  · rw [exportChain, here, chainOf, found]
    exact chain_supplied fun policy member => bound policy (List.mem_append_right _ member)
  · rw [importChain, here, chainOf, found]
    exact chain_supplied fun policy member => bound policy (List.mem_append_left _ member)

/-- A topology that was put together from parts, that a document or analysis tables describe, or
that simplification made. -/
inductive Returned (t : Topology) : Prop
  | created {nodes : List Node} {edges : List Edge} (made : create nodes edges = .ok t)
  | loaded {keep : Bool} {document : Json} (read : ofJson keep document = .ok t)
  | drafted {keep : Bool} {tables : Json} (built : (ofTables keep tables).1 = .ok t)
  | simplified {before : Topology} (made : before.simplify = .ok t)

theorem Returned.resolved (returned : t.Returned) : t.Resolved := by
  cases returned with
  | created made => exact (create_iff.mp made).2
  | loaded read =>
      obtain ⟨made, -⟩ := ofJson_ok read
      exact (create_iff.mp made).2
  | drafted built =>
      obtain ⟨made, -⟩ := made_of_ofTables
        (Draft.each_invariant Expr.foldable_writable fun _ _ => Encoding.readExpr_foldable) trivial built
      exact (create_iff.mp made).2
  | simplified made => exact (create_iff.mp made).2

/-- What the references of a topology promise. -/
structure ReferencesHold (t : Topology) : Prop where
  ends : ∀ edge ∈ t.edges, ∀ e ∈ [edge.source, edge.target],
    ∃ n ∈ t.nodes, n.name = e.node ∧ n.interfaces.has e.interface = true
  bound : ∀ n ∈ t.nodes, ∀ entry ∈ n.interfaces, ∀ name ∈ entry.2.imports ++ entry.2.exports,
    n.policies.has name = true
  called : ∀ n ∈ t.nodes, ∀ entry ∈ n.policies, ∀ s ∈ entry.2.statements, ∀ callee,
    s.HasCall callee → n.policies.has callee = true
  supplied : ∀ edge ∈ t.edges, ∀ e ∈ [edge.source, edge.target], t.Supplied e
  defined : ∀ (i : Inquiry) (limits : Limits) (q : Query) (f : Failure),
    (i.ask t limits q).1 = .error f → ∀ name, f.cause ≠ .evaluation (.undefinedCall name)
  simplified : ∃ u, t.simplify = .ok u

theorem HasEnd.exists_node {e : Endpoint} (resolved : t.Resolved) (known : t.HasEnd e) :
    ∃ n ∈ t.nodes, n.name = e.node ∧ n.interfaces.has e.interface = true := by
  obtain ⟨n, found, named⟩ := known
  obtain ⟨listed, name⟩ := (node?_iff resolved.distinct).mp found
  exact ⟨n, listed, name, named⟩

theorem Resolved.hasEnd (resolved : t.Resolved) {edge : Edge} (member : edge ∈ t.edges)
    {e : Endpoint} (among : e ∈ [edge.source, edge.target]) : t.HasEnd e := by
  obtain ⟨source, target⟩ := resolved.ends edge member
  rcases List.mem_pair.mp among with rfl | rfl
  · exact source
  · exact target

/-- A query that is answered from what is stored, or anew, fails as it does anew. -/
theorem failed_of_inquiry {i : Inquiry} {limits : Limits} {q : Query} {f : Failure}
    (failed : (i.ask t limits q).1 = .error f) : t.ask limits q = .error f := by
  unfold Inquiry.ask at failed
  split at failed
  · cases failed
  · dsimp only at failed
    split at failed
    · exact failed
    · exact failed

/-- The references of a topology hold: the ends of edges, the names in chains and the called names
are there, chains are complete, no query comes to an undefined policy, and simplification
succeeds. -/
theorem references_hold (returned : t.Returned) : t.ReferencesHold := by
  have resolved := returned.resolved
  constructor
  case ends => exact fun edge member e among => (resolved.hasEnd member among).exists_node resolved
  case bound =>
    exact fun n listed entry member name named =>
      (resolved.nodes n listed).bound entry member name named
  case called =>
    intro n listed entry member s inside callee call
    have value : entry.2 ∈ n.policies.values := List.mem_map_of_mem member
    exact (resolved.nodes n listed).calls entry.2 value callee (call.mem_calls inside)
  case supplied => exact fun edge member e among => resolved.supplied (resolved.hasEnd member among)
  case defined =>
    intro i limits q f failed name undefined
    exact resolved.ask_defined limits q name ⟨f, failed_of_inquiry failed, undefined⟩
  case simplified => exact ⟨t.simplified, simplify_eq resolved⟩

end Topology

/-! ### A sender whose export policy calls another policy -/

namespace CallingPeers

def accepting : Statement := .finish none .accept

/-- Accepts what the policy `Q` does not accept. -/
def calling : Policy :=
  ⟨"P", [.branch none (.not none (.call none "Q")) [accepting] [.finish none .reject] .absent]⟩

def called : Policy :=
  ⟨"Q", [.branch none (.hasCommunity none (.ref .communities) "65000:1") [accepting] [] .absent]⟩

def sender : Node :=
  ⟨"a", none, ["10.0.0.0/8"], [("e", ⟨[], ["P"]⟩)], [("P", calling), ("Q", called)], false⟩

def receiver : Node := ⟨"b", none, [], [("e", ⟨["Q", "Q"], []⟩)], [("Q", called)], false⟩

def topology : Topology := ⟨[sender, receiver], [⟨⟨"a", "e"⟩, ⟨"b", "e"⟩⟩]⟩

theorem created : Topology.create topology.nodes topology.edges = .ok topology := by
  with_unfolding_all rfl

end CallingPeers

theorem calling_peers_references_hold :
    CallingPeers.topology.Returned ∧ CallingPeers.topology.ReferencesHold :=
  ⟨.created CallingPeers.created, Topology.references_hold (.created CallingPeers.created)⟩

end RoutePolicy
