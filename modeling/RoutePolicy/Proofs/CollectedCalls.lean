import Mathlib.Logic.Relation
import RoutePolicy.Proofs.Condensation
import RoutePolicy.Proofs.ResolvedCalls

/-!
Collecting the policies that are only called. What the chains of a node name is pending at first;
then the calls of one pending policy after another are noted, those of the policy that came last
first, and what is noted for the first time is pending too. Whatever calls whatever, this ends, and
what has been noted is what the chains reach by calls and do not name themselves.
-/

set_option autoImplicit false

namespace RoutePolicy

/-! ### Calls and where they stand -/

/-- The calls that are listed are those that stand somewhere in the expression. -/
theorem Expr.mem_calls_iff {callee : String} {e : Expr} : callee ∈ e.calls ↔ e.HasCall callee := by
  refine ⟨fun listed => ?_, HasCall.mem_calls⟩
  induction e using childrenInduction with
  | step e ih =>
    obtain ⟨node, inside, own⟩ := List.mem_filterMap.mp listed
    rw [nodes_eq] at inside
    rcases List.mem_cons.mp inside with rfl | deeper
    · cases node with
      | call cls policy =>
        cases own
        exact .here cls
      | _ => cases own
    · obtain ⟨child, member, within⟩ := List.mem_flatMap.mp deeper
      exact .part member (ih child member (List.mem_filterMap.mpr ⟨node, within, own⟩))

namespace Statement

variable {callee : String}

mutual

theorem hasCall_of_mem_exprs (s : Statement) {e : Expr} (among : e ∈ s.exprs)
    (call : e.HasCall callee) : s.HasCall callee := by
  cases s with
  | branch cls guard onTrue onFalse comment =>
    rw [exprs, List.mem_cons, List.mem_append] at among
    rcases among with rfl | inTrue | inFalse
    · exact .guard call
    · obtain ⟨s, member, inside⟩ := exists_hasCall_of_mem_exprsAll onTrue inTrue call
      exact .onTrue member inside
    · obtain ⟨s, member, inside⟩ := exists_hasCall_of_mem_exprsAll onFalse inFalse call
      exact .onFalse member inside
  | assign cls target value =>
    obtain rfl := List.mem_singleton.mp among
    exact .value call
  | finish cls disposition => cases among

theorem exists_hasCall_of_mem_exprsAll (block : List Statement) {e : Expr}
    (among : e ∈ exprsAll block) (call : e.HasCall callee) : ∃ s ∈ block, s.HasCall callee := by
  cases block with
  | nil => cases among
  | cons s rest =>
    rcases List.mem_append.mp among with own | later
    · exact ⟨s, List.mem_cons_self, hasCall_of_mem_exprs s own call⟩
    · obtain ⟨other, member, inside⟩ := exists_hasCall_of_mem_exprsAll rest later call
      exact ⟨other, List.mem_cons_of_mem _ member, inside⟩

end

/-- The calls of a block are those that stand in the guards and assigned values of its statements. -/
theorem mem_calls_iff {block : List Statement} :
    callee ∈ calls block ↔ ∃ s ∈ block, s.HasCall callee := by
  constructor
  · intro listed
    obtain ⟨e, among, called⟩ := mem_calls.mp listed
    exact exists_hasCall_of_mem_exprsAll block among (Expr.mem_calls_iff.mp called)
  · rintro ⟨s, member, call⟩
    exact call.mem_calls member

end Statement

namespace Node

variable {n : Node} {caller callee name : String}

/-- A call of one policy stands in another one. -/
def Calls (n : Node) (caller callee : String) : Prop :=
  ∃ p, (caller, p) ∈ n.policies ∧ ∃ s ∈ p.statements, s.HasCall callee

theorem mem_callees (distinct : n.policies.names.Nodup) :
    callee ∈ n.callees caller ↔ n.Calls caller callee := by
  unfold callees Calls
  constructor
  · intro called
    split at called
    · next p found => exact ⟨p, Table.mem_of_get? found, Statement.mem_calls_iff.mp called⟩
    · cases called
  · rintro ⟨p, member, call⟩
    rw [Table.get?_of_mem distinct member]
    exact Statement.mem_calls_iff.mpr call

/-- What known policies reach is known or comes by one or more calls. -/
theorem reaches_iff (distinct : n.policies.names.Nodup) {known : List String} :
    n.Reaches known name ↔ name ∈ known ∨ ∃ root ∈ known, Relation.TransGen n.Calls root name := by
  constructor
  · intro reaches
    induction reaches with
    | known member => exact .inl member
    | called _ call ih =>
      have calls := (mem_callees distinct).mp call
      rcases ih with member | ⟨root, member, path⟩
      · exact .inr ⟨_, member, .single calls⟩
      · exact .inr ⟨root, member, path.tail calls⟩
  · rintro (member | ⟨root, member, path⟩)
    · exact .known member
    · induction path with
      | single call => exact .called (.known member) ((mem_callees distinct).mpr call)
      | tail _ call ih => exact .called ih ((mem_callees distinct).mpr call)

/-! ### The collection -/

/-- A collection under way: the callees that have been noted, and the policies the calls of which
are still to be noted, the next one first. -/
structure Collection where
  reached : List String
  pending : List String

namespace Collection

def start (n : Node) : Collection := ⟨[], n.bound.eraseDups.reverse⟩

/-- Notes a callee, unless a chain names it or it has been noted before. -/
def note (n : Node) (c : Collection) (callee : String) : Collection :=
  if callee ∈ n.bound ∨ callee ∈ c.reached then c
  else ⟨c.reached ++ [callee], callee :: c.pending⟩

/-- Notes the calls of the next pending policy. -/
def step (n : Node) (c : Collection) : Option Collection :=
  match c.pending with
  | [] => none
  | name :: pending => some ((n.callees name).foldl (note n) ⟨c.reached, pending⟩)

/-- A name that need not be noted again. -/
def Known (n : Node) (c : Collection) (name : String) : Prop := name ∈ n.bound ∨ name ∈ c.reached

variable {c next final : Collection}

theorem step_eq_none : c.step n = none ↔ c.pending = [] := by
  unfold step
  cases c.pending <;> simp

theorem step_eq_some : c.step n = some next ↔ ∃ name pending, c.pending = name :: pending ∧
    next = (n.callees name).foldl (note n) ⟨c.reached, pending⟩ := by
  unfold step
  cases c.pending <;> simp [eq_comm]

theorem mem_reached_foldl (callees : List String) :
    name ∈ (callees.foldl (note n) c).reached ↔
      name ∈ c.reached ∨ name ∈ callees ∧ name ∉ n.bound := by
  induction callees generalizing c with
  | nil => simp
  | cons callee rest ih =>
    rw [List.foldl_cons, ih, note, List.mem_cons]
    split
    · next known =>
      constructor
      · tauto
      · rintro (noted | ⟨rfl | later, apart⟩)
        · exact .inl noted
        · exact .inl (known.resolve_left apart)
        · exact .inr ⟨later, apart⟩
    · next fresh =>
      rw [List.mem_append, List.mem_singleton]
      constructor
      · rintro ((noted | rfl) | ⟨later, apart⟩)
        · exact .inl noted
        · exact .inr ⟨.inl rfl, fun bound => fresh (.inl bound)⟩
        · exact .inr ⟨.inr later, apart⟩
      · tauto

theorem mem_pending_foldl (callees : List String) :
    name ∈ (callees.foldl (note n) c).pending ↔
      name ∈ c.pending ∨ name ∈ callees ∧ ¬c.Known n name := by
  induction callees generalizing c with
  | nil => simp
  | cons callee rest ih =>
    rw [List.foldl_cons, ih, note, List.mem_cons]
    split
    · next known =>
      constructor
      · tauto
      · rintro (waiting | ⟨rfl | later, fresh⟩)
        · exact .inl waiting
        · exact absurd known fresh
        · exact .inr ⟨later, fresh⟩
    · next fresh =>
      simp only [Known, List.mem_cons, List.mem_append, List.mem_nil_iff, or_false]
      by_cases same : name = callee
      · subst same
        exact ⟨fun _ => .inr ⟨.inl rfl, fresh⟩, fun _ => .inl (.inl rfl)⟩
      · simp [same]

/-! ### The collection ends -/

/-- A bound on the policies the calls of which are still to be noted. -/
def weight (n : Node) (c : Collection) : Nat :=
  c.pending.length + (n.allCallees.filter (· ∉ c.reached)).length

theorem weight_note (called : callee ∈ n.allCallees) :
    (c.note n callee).weight n ≤ c.weight n := by
  unfold note
  split
  · exact Nat.le_refl _
  · next fresh =>
    have unnoted : callee ∉ c.reached := fun noted => fresh (.inr noted)
    have smaller : n.allCallees.filter (· ∉ c.reached ++ [callee]) =
        (n.allCallees.filter (· ∉ c.reached)).filter (· ≠ callee) := by
      rw [List.filter_filter]
      apply List.filter_congr
      intro name _
      by_cases same : name = callee <;> simp [same]
    have less : (n.allCallees.filter (· ∉ c.reached ++ [callee])).length <
        (n.allCallees.filter (· ∉ c.reached)).length := by
      rw [smaller, List.length_filter_lt_length_iff_exists]
      exact ⟨callee, by simp [called, unnoted], by simp⟩
    simp only [weight, List.length_cons]
    omega

theorem weight_foldl {callees : List String} (called : ∀ callee ∈ callees, callee ∈ n.allCallees) :
    (callees.foldl (note n) c).weight n ≤ c.weight n := by
  induction callees generalizing c with
  | nil => exact Nat.le_refl _
  | cons callee rest ih =>
    obtain ⟨here, later⟩ := List.forall_mem_cons.mp called
    exact Nat.le_trans (ih later) (weight_note here)

theorem weight_step (steps : c.step n = some next) : next.weight n < c.weight n := by
  obtain ⟨name, pending, waiting, rfl⟩ := step_eq_some.mp steps
  have bounded : ((n.callees name).foldl (note n) ⟨c.reached, pending⟩).weight n ≤
      Collection.weight n ⟨c.reached, pending⟩ := weight_foldl fun _ called => mem_allCallees called
  have popped : c.pending.length = pending.length + 1 := by rw [waiting, List.length_cons]
  apply Nat.lt_of_le_of_lt bounded
  simp only [weight]
  omega

/-- There is no collection without an end. -/
theorem wellFounded_step (n : Node) :
    WellFounded fun next c : Collection => c.step n = some next :=
  Subrelation.wf weight_step (measure (weight n)).wf

/-- A collection goes on to another state and ends there. -/
def EndsIn (n : Node) (c final : Collection) : Prop :=
  Relation.ReflTransGen (fun c next : Collection => c.step n = some next) c final ∧
    final.step n = none

theorem exists_endsIn (n : Node) (c : Collection) : ∃ final, c.EndsIn n final := by
  induction c using (wellFounded_step n).induction with
  | _ c ih =>
    cases stepped : c.step n with
    | none => exact ⟨c, .refl, stepped⟩
    | some next =>
      obtain ⟨final, path, ended⟩ := ih next stepped
      exact ⟨final, .head stepped path, ended⟩

/-! ### What is collected -/

/-- Whatever has been noted or is pending is reached by the chains, and only the calls of what is
pending are not noted yet. -/
structure Faithful (n : Node) (c : Collection) : Prop where
  noted : ∀ name ∈ c.reached, name ∉ n.bound ∧ n.Reaches n.bound name
  pending : ∀ name ∈ c.pending, c.Known n name
  closed : ∀ name, c.Known n name → name ∉ c.pending → ∀ callee ∈ n.callees name, c.Known n callee

theorem faithful_start (n : Node) : (start n).Faithful n where
  noted := List.forall_mem_nil _
  pending name member := .inl (by simpa [start] using member)
  closed name known settled := by
    refine absurd ?_ settled
    simpa [start, Known] using known

theorem Faithful.reaches (faithful : c.Faithful n) (known : c.Known n name) :
    n.Reaches n.bound name := by
  rcases known with bound | noted
  · exact .known bound
  · exact (faithful.noted name noted).2

theorem Faithful.step (faithful : c.Faithful n) (steps : c.step n = some next) :
    next.Faithful n := by
  obtain ⟨caller, pending, waiting, rfl⟩ := step_eq_some.mp steps
  have known : ∀ name, Known n ((n.callees caller).foldl (note n) ⟨c.reached, pending⟩) name ↔
      c.Known n name ∨ name ∈ n.callees caller := by
    intro name
    simp only [Known, mem_reached_foldl]
    tauto
  have callerKnown : c.Known n caller :=
    faithful.pending caller (waiting ▸ List.mem_cons_self)
  refine ⟨fun name member => ?_, fun name member => ?_, fun name old settled callee call => ?_⟩
  · rcases (mem_reached_foldl _).mp member with noted | ⟨called, apart⟩
    · exact faithful.noted name noted
    · exact ⟨apart, .called (faithful.reaches callerKnown) called⟩
  · rw [known]
    rcases (mem_pending_foldl _).mp member with later | ⟨called, -⟩
    · exact .inl (faithful.pending name (waiting ▸ List.mem_cons_of_mem _ later))
    · exact .inr called
  · rw [known] at old ⊢
    rw [mem_pending_foldl, not_or, not_and_not_right] at settled
    obtain ⟨unqueued, called⟩ := settled
    have before : c.Known n name := old.elim id called
    by_cases same : name = caller
    · exact .inr (same ▸ call)
    · refine .inl (faithful.closed name before ?_ callee call)
      simp [waiting, same, unqueued]

theorem Faithful.endsIn (faithful : c.Faithful n) (ends : c.EndsIn n final) :
    final.Faithful n := by
  obtain ⟨path, -⟩ := ends
  induction path with
  | refl => exact faithful
  | tail _ steps ih => exact ih.step steps

/-- With nothing pending, what has been noted is what the chains reach and do not name. -/
theorem Faithful.mem_reached (faithful : c.Faithful n) (ended : c.step n = none) :
    name ∈ c.reached ↔ name ∉ n.bound ∧ n.Reaches n.bound name := by
  refine ⟨faithful.noted name, ?_⟩
  rintro ⟨apart, reaches⟩
  have known : c.Known n name := by
    clear apart
    induction reaches with
    | known member => exact .inl member
    | called _ call ih =>
      have settled := step_eq_none.mp ended
      exact faithful.closed _ ih (by simp [settled]) _ call
  exact known.resolve_left apart

end Collection

theorem calledOnly_eq_collected {final : Collection} (ends : (Collection.start n).EndsIn n final) :
    n.calledOnly = n.policies.values.filter fun p => p.name ∈ final.reached := by
  have faithful := (Collection.faithful_start n).endsIn ends
  unfold calledOnly
  apply List.filter_congr
  intro p _
  rw [List.contains_eq_mem]
  apply decide_eq_decide.mpr
  rw [faithful.mem_reached ends.2, List.mem_filter, mem_closure, decide_eq_true_eq, and_comm]

end Node

/-- In a topology whose policies all stand under their own names, no collection goes on for ever,
and the one that starts with the chains of a node ends with the policies that are written apart for
it: those of the table, in its order and once each, that no chain names and that policies of chains
reach by one or more calls. -/
theorem call_closure_collected {nodes : List Node} {edges : List Edge} {t : Topology} {n : Node}
    (created : Topology.create nodes edges = .ok t) (member : n ∈ t.nodes)
    (named : ∀ entry ∈ n.policies, entry.2.name = entry.1) (distinct : n.policies.names.Nodup) :
    (WellFounded fun next c : Node.Collection => c.step n = some next) ∧
    ∃ final, (Node.Collection.start n).EndsIn n final ∧
      n.calledOnly = n.policies.values.filter (fun p => p.name ∈ final.reached) ∧
      (n.calledOnly.map Policy.name).Nodup ∧
      ∀ name, name ∈ n.calledOnly.map Policy.name ↔
        (∀ entry ∈ n.interfaces, name ∉ entry.2.policies) ∧
          ∃ entry ∈ n.interfaces, ∃ root ∈ entry.2.policies,
            Relation.TransGen n.Calls root name := by
  refine ⟨Node.Collection.wellFounded_step n, ?_⟩
  obtain ⟨final, ends⟩ := Node.Collection.exists_endsIn n (.start n)
  refine ⟨final, ends, Node.calledOnly_eq_collected ends, Node.distinct_calledOnly distinct named,
    fun name => ?_⟩
  obtain ⟨rfl, resolved⟩ := Topology.create_iff.mp created
  have apart : name ∉ n.bound ↔ ∀ entry ∈ n.interfaces, name ∉ entry.2.policies := by
    simp [Node.mem_bound]
  have path : (∃ root ∈ n.bound, Relation.TransGen n.Calls root name) ↔
      ∃ entry ∈ n.interfaces, ∃ root ∈ entry.2.policies,
        Relation.TransGen n.Calls root name := by
    simp only [Node.mem_bound]
    constructor
    · rintro ⟨root, ⟨entry, member, named⟩, path⟩
      exact ⟨entry, member, root, named, path⟩
    · rintro ⟨entry, member, root, named, path⟩
      exact ⟨root, ⟨entry, member, named⟩, path⟩
  rw [Node.mem_calledOnly_names (resolved.nodes n member) named, Node.reaches_iff distinct, ← apart,
    ← path]
  tauto

/-! ### Policies that call each other and themselves -/

namespace LoopingCalls

/-- Accepts what one of the given policies accepts. -/
def asking (name : String) (callees : List String) : Policy :=
  ⟨name, [.branch none (.any (callees.map (.call none))) [.finish none .accept] [] .absent]⟩

def node : Node :=
  ⟨"a", none, [], [("e", ⟨["main"], []⟩)],
    [("main", asking "main" ["check"]), ("shared", asking "shared" ["check"]),
      ("unused", asking "unused" ["shared"]),
      ("check", asking "check" ["check", "shared", "main"])], false⟩

theorem created : Topology.create [node] [] = .ok ⟨[node], []⟩ := by
  with_unfolding_all rfl

theorem named : ∀ entry ∈ node.policies, entry.2.name = entry.1 := by
  simp [node, asking]

theorem calls_check : node.Calls "main" "check" :=
  (Node.mem_callees (by decide)).mp (by with_unfolding_all decide)

theorem calls_shared : node.Calls "check" "shared" :=
  (Node.mem_callees (by decide)).mp (by with_unfolding_all decide)

end LoopingCalls

open LoopingCalls in
theorem looping_calls_collected :
    (Topology.create [node] [] = .ok ⟨[node], []⟩ ∧ node ∈ [node] ∧
      (∀ entry ∈ node.policies, entry.2.name = entry.1) ∧ node.policies.names.Nodup) ∧
    (∃ final, (Node.Collection.start node).EndsIn node final) ∧
      "shared" ∈ node.calledOnly.map Policy.name ∧ "main" ∉ node.calledOnly.map Policy.name := by
  have distinct : node.policies.names.Nodup := by decide
  have own : node ∈ [node] := List.mem_singleton_self node
  obtain ⟨-, final, ends, -, -, names⟩ := call_closure_collected created own named distinct
  refine ⟨⟨created, own, named, distinct⟩, ⟨final, ends⟩, (names _).mpr ⟨by decide, ?_⟩, ?_⟩
  · exact ⟨("e", ⟨["main"], []⟩), List.mem_singleton_self _, "main", by decide,
      .tail (.single calls_check) calls_shared⟩
  · intro listed
    exact ((names _).mp listed).1 ("e", ⟨["main"], []⟩) (List.mem_singleton_self _) (by decide)

end RoutePolicy
