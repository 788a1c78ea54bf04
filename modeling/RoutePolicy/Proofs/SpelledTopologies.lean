import RoutePolicy.Proofs.PropagatedKinds
import RoutePolicy.Proofs.ReachabilityComplete
import RoutePolicy.Proofs.SpelledConditions
import RoutePolicy.Proofs.SpelledRuns

/-!
Spellings of class names in topologies. Conditions are compared by the text they are written as,
which holds the spellings; where all that can get into a condition is written with short names,
propagation commutes with erasing them, so no answer depends on them.
-/

set_option autoImplicit false

namespace RoutePolicy

/-- The nodes that evaluation passes on are written with short names. -/
def Policy.Plain (p : Policy) : Prop :=
  Statement.EveryAll (fun _ e => e.Each Expr.Plain) p.statements

/-- The node with every class name of its policies short. -/
def Node.bare (n : Node) : Node := { n with policies := n.policies.bare }

namespace Topology

/-- The topology with every class name short. -/
def bare (t : Topology) : Topology := ⟨t.nodes.map Node.bare, t.edges⟩

/-- Policies are written with short names where evaluation passes the spelling on. -/
def Plain (t : Topology) : Prop := ∀ n ∈ t.nodes, n.policies.All Policy.Plain

section

variable (t : Topology)

theorem node?_bare (name : String) : t.bare.node? name = (t.node? name).map Node.bare := by
  unfold node? bare
  rw [List.find?_map]
  rfl

theorem chains_bare (e : Endpoint) : t.bare.chains e = t.chains e := by
  unfold chains
  rw [node?_bare]
  cases t.node? e.node <;> rfl

theorem policies_bare (node : String) : t.bare.policies node = (t.policies node).bare := by
  unfold policies
  rw [node?_bare]
  cases t.node? node <;> rfl

theorem chainOf_bare (e : Endpoint) (names : List String) :
    t.bare.chainOf e names = (t.chainOf e names).map Policy.bare := by
  unfold chainOf
  rw [node?_bare]
  cases t.node? e.node with
  | none => rfl
  | some n =>
      change names.filterMap n.policies.bare.get? =
        (names.filterMap n.policies.get?).map Policy.bare
      rw [List.map_filterMap]
      congr 1
      funext name
      exact Table.get?_bare n.policies name

theorem exportChain_bare (e : Endpoint) :
    t.bare.exportChain e = (t.exportChain e).map Policy.bare := by
  rw [exportChain, chains_bare, chainOf_bare, exportChain]

theorem importChain_bare (e : Endpoint) :
    t.bare.importChain e = (t.importChain e).map Policy.bare := by
  rw [importChain, chains_bare, chainOf_bare, importChain]

end

end Topology

/-! ### Crossings -/

/-- The variant with every class name short. -/
def Variant.bare (v : Variant) : Variant := ⟨v.node, v.condition.bare, v.record.bare, v.hops⟩

/-- A condition written with short names and slots that add no others. -/
structure Variant.Plain (v : Variant) : Prop where
  condition : v.condition.Each Expr.Short
  record : v.record.Holds fun _ => Expr.Clean

theorem Variant.Plain.key {v : Variant} (plain : v.Plain) : v.bare.key = v.key :=
  congrArg Json.canonical (Expr.writeExpr_bare plain.condition)

theorem Expr.isFalse_bare (e : Expr) : e.bare.isFalse = e.isFalse := by
  rw [isFalse, bool?_bare, isFalse]

theorem Expr.conjuncts_bare (e : Expr) : e.bare.conjuncts = e.conjuncts.map Expr.bare := by
  cases e with
  | lit _ value =>
      cases value with
      | bool value => cases value <;> rfl
      | _ => rfl
  | junction _ op operands =>
      cases op with
      | all => exact bareAll_eq operands
      | any => rfl
  | _ => rfl

theorem Expr.short_conjuncts {e : Expr} (short : e.Each Short) :
    ∀ c ∈ e.conjuncts, c.Each Short := by
  unfold conjuncts
  split
  · exact fun c member => short.child member
  · exact List.forall_mem_nil _
  · exact List.forall_mem_singleton.mpr short

/-- Conditions are taken apart and joined without names of their own. -/
theorem Expr.short_joins : Joins (·.Each Short) where
  bool value := (short_stable.eachOf_bool value).1
  conjuncts _ := short_conjuncts
  junction op _ short := short_simplify (short_junction op short)

namespace Propagation

/-- What crosses an edge, with every class name short. -/
def Crossing.bare : Crossing → Crossing
  | refused hop => refused hop
  | arrival v => arrival v.bare

section

variable [Arithmetic] (t : Topology) (paths : Int) (v : Variant) (edge : Edge)

theorem pass_bare (e : Endpoint) (chain : List Policy) (assumptions : List Expr) (r : Record) :
    pass t.bare paths e (chain.map Policy.bare) (assumptions.map Expr.bare) r.bare =
      (pass t paths e chain assumptions r).map (List.map Path.bare) := by
  have run := evaluateChain_bare ⟨assumptions, paths, t.policies e.node⟩ chain r
  rw [pass, pass, t.policies_bare, ← Outcome.inContext_map, ← run]
  rfl

omit [Arithmetic] in
theorem hop_bare (direction : Direction) (chain : List Policy) (path : Path) :
    hop edge direction (chain.map Policy.bare) path.bare = hop edge direction chain path := by
  rw [hop, List.map_map]
  rfl

omit [Arithmetic] in
theorem enter_bare (chain : List Policy) (left : Hop) (path : Path) :
    enter v.bare edge (chain.map Policy.bare) left path.bare =
      (enter v edge chain left path).map Crossing.bare := by
  have condition : (Expr.all path.bare.condition).simplify =
      (Expr.all path.condition).simplify.bare := by
    rw [← Expr.simplify_bare, Expr.all, Expr.all, Expr.bare, Expr.bareAll_eq]
    rfl
  have disposition : path.bare.disposition = path.disposition := rfl
  unfold enter
  simp only [hop_bare, condition, disposition, Expr.isFalse_bare]
  split
  · rfl
  · split <;> rfl

theorem leave_bare (path : Path) :
    leave t.bare paths v.bare edge path.bare =
      (leave t paths v edge path).map (List.map Crossing.bare) := by
  have disposition : path.bare.disposition = path.disposition := rfl
  unfold leave
  simp only [t.exportChain_bare, t.importChain_bare, hop_bare, disposition]
  split
  · rfl
  · have entered := pass_bare t paths edge.target (t.importChain edge.target) path.condition
      path.record
    refine (congrArg (· >>= _) entered).trans (Outcome.map_bind fun found _ => ?_)
    simp only [Except.map, List.filterMap_map, List.map_filterMap, Function.comp_def, enter_bare]

theorem leaveAll_bare (left : List Path) :
    leaveAll t.bare paths v.bare edge (left.map Path.bare) =
      (leaveAll t paths v edge left).map (List.map Crossing.bare) := by
  induction left with
  | nil => rfl
  | cons path rest ih =>
      rw [List.map_cons, leaveAll, leaveAll, leave_bare, ih]
      refine Outcome.map_bind fun first _ => ?_
      refine Outcome.map_bind fun others _ => ?_
      exact congrArg Except.ok List.map_append.symm

theorem crossings_bare :
    crossings t.bare paths v.bare edge =
      (crossings t paths v edge).map (List.map Crossing.bare) := by
  have left := pass_bare t paths edge.source (t.exportChain edge.source) v.condition.conjuncts
    v.record
  unfold crossings
  rw [t.exportChain_bare]
  have conjuncts : v.bare.condition.conjuncts = v.condition.conjuncts.map Expr.bare :=
    v.condition.conjuncts_bare
  rw [conjuncts]
  refine (congrArg (· >>= _) left).trans (Outcome.map_bind fun found _ => ?_)
  exact leaveAll_bare t paths v edge found

end

section

variable [Arithmetic] {t : Topology} {paths : Int} {v : Variant} {edge : Edge}

/-- What a plain variant sends arrives as a plain variant. -/
theorem arrival_plain (plain : t.Plain) (own : v.Plain) {cs : List Crossing}
    (crossed : crossings t paths v edge = .ok cs) {w : Variant} (arrived : .arrival w ∈ cs) :
    w.Plain := by
  have kept := arrival_holds Expr.clean_kinds Expr.short_joins plain ⟨own.condition, own.record⟩
    crossed arrived
  exact ⟨kept.condition, kept.record⟩

end

/-! ### The work list -/

namespace State

/-- The state with every class name short. -/
def bare (s : State) : State :=
  ⟨s.settled.map Variant.bare, s.waiting.map Variant.bare, s.refused, s.steps⟩

theorem variants_bare (s : State) : s.bare.variants = s.variants.map Variant.bare :=
  List.map_append.symm

theorem bare_waiting {s : State} {v : Variant} {rest : List Variant}
    (waits : s.waiting = v :: rest) :
    s.bare.waiting = v.bare :: rest.map Variant.bare ∧
      bare { s with settled := s.settled ++ [v], waiting := rest } =
        { s.bare with settled := s.bare.settled ++ [v.bare], waiting := rest.map Variant.bare } :=
  ⟨congrArg (List.map Variant.bare) waits, by simp [bare]⟩

variable {s : State} (all : ∀ w ∈ s.variants, w.Plain)

include all

theorem plain_waiting {v : Variant} {rest : List Variant} (waits : s.waiting = v :: rest) :
    v.Plain ∧
      ∀ w ∈ variants { s with settled := s.settled ++ [v], waiting := rest }, w.Plain := by
  rw [variants, waits] at all
  exact ⟨all v (by simp), by simpa [variants] using all⟩

theorem knows_bare {v : Variant} (plain : v.Plain) : s.bare.knows v.bare = s.knows v := by
  unfold knows
  rw [variants_bare, List.any_map, Bool.eq_iff_iff, List.any_eq_true, List.any_eq_true]
  refine exists_congr fun w => and_congr_right fun member => ?_
  rw [Function.comp_apply, (all w member).key, plain.key]
  rfl

theorem add_bare {v : Variant} (plain : v.Plain) : s.bare.add v.bare = (s.add v).bare := by
  unfold add
  rw [knows_bare all plain]
  split
  · rfl
  · simp [bare]

theorem adds_bare {vs : List Variant} (plain : ∀ v ∈ vs, v.Plain) :
    (vs.map Variant.bare).foldl add s.bare = (vs.foldl add s).bare := by
  induction vs generalizing s with
  | nil => rfl
  | cons v rest ih =>
      obtain ⟨here, later⟩ := List.forall_mem_cons.mp plain
      rw [List.map_cons, List.foldl_cons, List.foldl_cons, add_bare all here,
        ih (forall_add all here) later]

theorem records_bare {cs : List Crossing} (plain : ∀ w, .arrival w ∈ cs → w.Plain) :
    (cs.map Crossing.bare).foldl record s.bare = (cs.foldl record s).bare := by
  induction cs generalizing s with
  | nil => rfl
  | cons c rest ih =>
      have later := fun w member => plain w (List.mem_cons_of_mem c member)
      rw [List.map_cons, List.foldl_cons, List.foldl_cons]
      cases c with
      | refused hop => exact ih (s := s.record (.refused hop)) all later
      | arrival v =>
          have here := plain v List.mem_cons_self
          have added : s.bare.record (Crossing.bare (.arrival v)) = (s.record (.arrival v)).bare :=
            add_bare all here
          rw [added]
          exact ih (forall_add all here) later

end State

section

variable [Arithmetic] {t : Topology} (plain : t.Plain) (limits : Limits)

include plain

theorem cross_bare {v : Variant} (own : v.Plain) (edge : Edge) {s : State}
    (all : ∀ w ∈ s.variants, w.Plain) :
    cross t.bare limits v.bare edge s.bare = (cross t limits v edge s).map State.bare := by
  unfold cross
  have steps : s.bare.steps = s.steps := rfl
  rw [steps]
  split
  · rfl
  · rw [crossings_bare]
    refine Outcome.map_bind fun cs crossed => ?_
    exact congrArg Except.ok (State.records_bare (s := { s with steps := s.steps + 1 }) all
      fun w arrived => arrival_plain plain own crossed arrived)

theorem crossAll_bare {v : Variant} (own : v.Plain) (edges : List Edge) {s : State}
    (all : ∀ w ∈ s.variants, w.Plain) :
    crossAll t.bare limits v.bare edges s.bare = (crossAll t limits v edges s).map State.bare := by
  induction edges generalizing s with
  | nil => rfl
  | cons edge rest ih =>
      rw [crossAll, crossAll, cross_bare plain limits own edge all]
      refine Outcome.map_bind fun next crossed => ih ?_
      have single : crossAll t limits v [edge] s = .ok next := by
        rw [crossAll, crossed]
        rfl
      exact forall_crossAll (fun _ _ cs found w => arrival_plain plain own found) all single

/-- Runs of the work list go on in the same way with the class names erased. -/
theorem settle_bare {s : State} (all : ∀ w ∈ s.variants, w.Plain) :
    settle t.bare limits s.bare = (settle t limits s).map State.bare := by
  fun_induction settle t limits s with
  | case1 s rests =>
      have empty : s.bare.waiting = [] := congrArg (List.map Variant.bare) rests
      exact settle_of_rest empty
  | case2 s v rest waits f crossed =>
      obtain ⟨own, others⟩ := State.plain_waiting all waits
      obtain ⟨more, state⟩ := State.bare_waiting waits
      have same := crossAll_bare plain limits own (edgesFrom t v.node) others
      rw [crossed, state] at same
      exact settle_of_failed more same
  | case3 s v rest waits next crossed ih =>
      obtain ⟨own, others⟩ := State.plain_waiting all waits
      obtain ⟨more, state⟩ := State.bare_waiting waits
      have same := crossAll_bare plain limits own (edgesFrom t v.node) others
      rw [crossed, state] at same
      rw [settle_of_sent more same]
      exact ih (forall_crossAll (fun _ _ cs found w => arrival_plain plain own found) others
        crossed)

end

end Propagation

/-! ### Answers -/

namespace Record

variable {values : List Given} {openSlots : Bool}

/-- The record of given values holds no spelled class names. -/
theorem bare_ofGiven {r : Record} (given : ofGiven values openSlots = .ok r) :
    r.bare = r ∧ r.Holds fun _ => Expr.Clean := by
  have kinds := mem_ofGiven given
  constructor
  · have same : r.slots.map (fun slot => (slot.1, slot.2.bare)) = r.slots.map id := by
      apply List.map_congr_left
      intro slot member
      refine Prod.ext rfl ?_
      rcases kinds slot member with ⟨l, own, -⟩ | ⟨-, own⟩
      · exact own ▸ rfl
      · exact own ▸ rfl
    rw [bare, same, List.map_id]
  · intro slot member
    rcases kinds slot member with ⟨l, own, -⟩ | ⟨-, own⟩
    · exact own ▸ .inl (Expr.each_leaf (Expr.short_of_plain rfl rfl rfl) rfl)
    · exact own ▸ .inl (Expr.each_leaf (Expr.short_of_plain rfl rfl rfl) rfl)

end Record

namespace Query

variable {t : Topology} {q : Query}

theorem checkSource_bare : q.checkSource t.bare = q.checkSource t := by
  unfold checkSource
  simp only [t.node?_bare, Option.isSome_map]

/-- The same variants start from a topology with short names. -/
theorem origins_bare : q.origins t.bare = q.origins t := by
  have nodes : ∀ target announced originated,
      t.bare.nodes.filterMap (origin? target announced originated) =
        t.nodes.filterMap (origin? target announced originated) := by
    intro target announced originated
    rw [Topology.bare, List.filterMap_map]
    rfl
  unfold origins
  simp only [checkSource_bare, nodes]

/-- No class name is spelled out in the variants that start. -/
theorem plain_origins {vs : List Variant} (starts : q.origins t = .ok vs) :
    vs.map Variant.bare = vs ∧ ∀ v ∈ vs, v.Plain := by
  obtain ⟨-, -, starts⟩ := Outcome.bind_ok.mp starts
  obtain ⟨target, -, starts⟩ := Outcome.bind_ok.mp starts
  obtain ⟨originated, given, starts⟩ := Outcome.bind_ok.mp starts
  obtain ⟨announced, arbitrary, same⟩ := Outcome.bind_ok.mp starts
  cases same
  have own : ∀ v ∈ t.nodes.filterMap (origin? target announced originated),
      v.bare = v ∧ v.Plain := by
    intro v member
    obtain ⟨n, -, origin⟩ := List.mem_filterMap.mp member
    have begins : ∀ {r : Record}, (r.bare = r ∧ r.Holds fun _ => Expr.Clean) →
        v = ⟨n.name, .bool true, r, []⟩ → v.bare = v ∧ v.Plain := by
      rintro r ⟨bare, holds⟩ rfl
      exact ⟨by rw [Variant.bare, bare]; rfl, ⟨(Expr.short_stable.eachOf_bool true).1, holds⟩⟩
    unfold origin? at origin
    split at origin
    · exact begins (Record.bare_ofGiven arbitrary) (Option.some.inj origin).symm
    · split at origin
      · exact begins (Record.bare_ofGiven given) (Option.some.inj origin).symm
      · cases origin
  constructor
  · exact (List.map_congr_left fun v member => (own v member).1).trans (List.map_id _)
  · exact fun v member => (own v member).2

end Query

/-- The answer with every class name short. -/
def Answer.bare (a : Answer) : Answer :=
  { a with
    witness := a.witness.bare
    predicates := a.predicates.map fun entry => (entry.1, entry.2.bare) }

namespace Propagation

variable (t : Topology) (q : Query) (s : State)

theorem reached_bare (node : String) :
    reached s.bare node = (reached s node).map Variant.bare := by
  rw [reached, State.variants_bare, List.filter_map]
  rfl

theorem predicate_bare (node : String) : predicate s.bare node = (predicate s node).bare := by
  rw [predicate, reached_bare, predicate, ← Expr.simplify_bare, Expr.any, Expr.any, Expr.bare,
    Expr.bareAll_eq, List.map_map, List.map_map]
  rfl

theorem predicates_bare :
    predicates t.bare s.bare = (predicates t s).map fun entry => (entry.1, entry.2.bare) := by
  rw [predicates, predicates, Topology.bare, List.map_map, List.map_map]
  apply List.map_congr_left
  intro n _
  exact Prod.ext rfl (predicate_bare s n.name)

theorem witness_bare (predicates : Table Expr) :
    witness q (predicates.map fun entry => (entry.1, entry.2.bare)) =
      (witness q predicates).bare := by
  unfold witness
  split
  · rename_i node _
    have found : Table.get? (predicates.map fun entry => (entry.1, entry.2.bare)) node =
        (predicates.get? node).map Expr.bare := Table.get?_map predicates Expr.bare
    rw [found]
    cases predicates.get? node <;> rfl
  · rw [← Expr.simplify_bare, Expr.all, Expr.all, Expr.bare, Expr.bareAll_eq, Table.values,
      Table.values, List.map_map, List.map_map]
    rfl

theorem walk_bare (node : String) : walk s.bare node = walk s node := by
  unfold walk
  rw [reached_bare, List.head?_map]
  cases (reached s node).head? <;> rfl

theorem trace_bare (accepted : Bool) : trace s.bare q accepted = trace s q accepted := by
  have nodes : reachedNodes s.bare = reachedNodes s := by
    rw [reachedNodes, State.variants_bare, List.map_map]
    rfl
  unfold trace
  simp only [nodes, funext (walk_bare s)]
  rfl

theorem answer_bare : answer t.bare q s.bare = (answer t q s).bare := by
  unfold answer
  simp only [predicates_bare, witness_bare, Expr.isFalse_bare, trace_bare]
  rfl

end Propagation

section

variable [Arithmetic] {t u : Topology}

/-- Asking commutes with erasing class names. -/
theorem Topology.ask_bare (plain : t.Plain) (limits : Limits) (q : Query) :
    t.bare.ask limits q = (t.ask limits q).map Answer.bare := by
  unfold ask
  rw [Query.origins_bare]
  cases starts : q.origins t with
  | error f => rfl
  | ok vs =>
      obtain ⟨same, own⟩ := Query.plain_origins starts
      have started : (Propagation.start vs).bare = Propagation.start vs := by
        have empty : ∀ w ∈ Propagation.State.variants ⟨[], [], [], 0⟩, w.Plain :=
          List.forall_mem_nil _
        have added := Propagation.State.adds_bare empty own
        rw [same] at added
        exact added.symm
      have settled := Propagation.settle_bare plain limits (Propagation.forall_start own)
      rw [started] at settled
      change (Propagation.settle t.bare limits (Propagation.start vs) >>= fun s =>
        .ok (Propagation.answer t.bare q s)) =
          (Propagation.settle t limits (Propagation.start vs) >>= fun s =>
            .ok (Propagation.answer t q s)).map Answer.bare
      rw [settled]
      exact Outcome.map_bind fun s _ => congrArg Except.ok (Propagation.answer_bare t q s)

/-- Topologies that are equal but for the spelling of class names give the same answers but for the
spelling of class names, or fail in the same way, if comparisons, integers and malformed networks
are written with short names. -/
theorem Topology.ask_eq_of_bare (same : t.bare = u.bare) (plain : t.Plain) (other : u.Plain)
    (limits : Limits) (q : Query) :
    (t.ask limits q).map Answer.bare = (u.ask limits q).map Answer.bare := by
  rw [← ask_bare plain, same, ask_bare other]

end

namespace SpelledLinks

open TwoLinks (links checking)

/-- Asks for a community, under a name for the class of the match. -/
def matching (cls : Spelling) : Expr := .hasCommunity cls (.ref .communities) "65000:1"

/-- Asks for a tag, under a name for the class of the comparison. -/
def comparing (cls : Spelling) : Expr := .compare cls .eq (.ref .tag) (.lit none (.int 1))

def guarded (name : String) (before : List Statement) (guard : Expr) : Policy :=
  ⟨name, before ++ [.branch none guard [.finish none .accept] [.finish none .reject] .absent]⟩

/-- Two links with guards. What comes over the second one has the metric that is announced on. -/
def topology (first second : Expr) : Topology :=
  links (guarded "P" [] first) (guarded "Q" [.assign none .metric (.lit none (.int 5))] second)
    checking

theorem plain_topology {first second : Expr} (plain : first.Each Expr.Plain)
    (other : second.Each Expr.Plain) : (topology first second).Plain := by
  have number : (Expr.lit none (.int 5)).Each Expr.Plain := Expr.plain_bare (.lit none (.int 5))
  have check : (Expr.compare none .eq (.ref .metric) (.lit none (.int 5))).Each Expr.Plain :=
    Expr.plain_bare (.compare none .eq (.ref .metric) (.lit none (.int 5)))
  have ends : ∀ cls disposition, Statement.EveryAll (fun _ e => e.Each Expr.Plain)
      [.finish cls disposition] := fun _ _ => ⟨trivial, trivial⟩
  refine List.forall_mem_cons.mpr ⟨?_, List.forall_mem_cons.mpr ⟨?_, ?_⟩⟩
  · refine List.forall_mem_cons.mpr ⟨?_, List.forall_mem_singleton.mpr ?_⟩
    · exact ⟨⟨plain, ends _ _, ends _ _⟩, trivial⟩
    · exact ⟨number, ⟨other, ends _ _, ends _ _⟩, trivial⟩
  · exact Table.All.single ⟨⟨check, ends _ _, ends _ _⟩, trivial⟩
  · exact List.forall_mem_singleton.mpr Table.All.nil

theorem plain_matching (cls : Spelling) : (matching cls).Each Expr.Plain :=
  Expr.each_unary (by intro impossible; cases impossible)
    (Expr.plain_bare (.ref .communities)) rfl

end SpelledLinks

open SpelledLinks in
theorem matching_links_same_answer :
    (topology (matching (some "net.MatchCommunity")) (matching none)).bare =
        (topology (matching none) (matching none)).bare ∧
      (topology (matching (some "net.MatchCommunity")) (matching none)).Plain ∧
      (topology (matching none) (matching none)).Plain ∧
      (@Topology.ask .binary64 (topology (matching (some "net.MatchCommunity")) (matching none))
          .default TwoLinks.query).map Answer.bare =
        (@Topology.ask .binary64 (topology (matching none) (matching none)) .default
          TwoLinks.query).map Answer.bare := by
  have same : (topology (matching (some "net.MatchCommunity")) (matching none)).bare =
      (topology (matching none) (matching none)).bare := rfl
  have spelled := plain_topology (plain_matching (some "net.MatchCommunity")) (plain_matching none)
  have short := plain_topology (plain_matching none) (plain_matching none)
  exact ⟨same, spelled, short,
    @Topology.ask_eq_of_bare .binary64 _ _ same spelled short .default TwoLinks.query⟩

namespace SpelledLinks

open Propagation
open TwoLinks (origin query first second onward emissions_links emissions_onward settle_links)

/-! Two names for the class of the comparison keep both variants at `b`, of which only the second
one is announced to `d`. -/

/-- The originated record with the metric five. -/
def priced : Record :=
  ⟨origin.record.slots.map fun slot =>
    (slot.1, if slot.1 = .metric then .lit none (.int 5) else slot.2)⟩

theorem comparing_sends (cls : Spelling) : ∃ w x left right,
    @crossings .binary64 (topology (comparing none) (comparing cls)) 1024 origin first =
      .ok [.arrival w, .refused left] ∧
    @crossings .binary64 (topology (comparing none) (comparing cls)) 1024 origin second =
      .ok [.arrival x, .refused right] ∧
    standing w = ("b", comparing none) ∧ standing x = ("b", comparing cls) ∧
    w.record = origin.record ∧ x.record = priced :=
  ⟨_, _, _, _, by with_unfolding_all rfl, by with_unfolding_all rfl, by with_unfolding_all rfl,
    by with_unfolding_all rfl, by with_unfolding_all rfl, by with_unfolding_all rfl⟩

theorem comparing_refused {cls : Spelling} {w : Variant} (here : standing w = ("b", comparing none))
    (record : w.record = origin.record) : ∃ hop,
    @crossings .binary64 (topology (comparing none) (comparing cls)) 1024 w onward =
      .ok [.refused hop] := by
  obtain ⟨node, condition, r, hops⟩ := w
  cases here
  subst record
  exact ⟨_, by with_unfolding_all rfl⟩

theorem comparing_announced {cls : Spelling} {x : Variant}
    (here : standing x = ("b", comparing cls)) (record : x.record = priced) : ∃ z,
    @crossings .binary64 (topology (comparing none) (comparing cls)) 1024 x onward =
      .ok [.arrival z] ∧ standing z = ("d", comparing cls) := by
  obtain ⟨node, condition, r, hops⟩ := x
  cases here
  subst record
  exact ⟨_, by with_unfolding_all rfl, by with_unfolding_all rfl⟩

/-- With two names, `b` keeps and sends both variants. -/
theorem comparing_flows (cls : Spelling) : ∃ all hops,
    @Flows .binary64 (topology (comparing none) (comparing cls)) .default [origin] all hops 4 ∧
      all.map standing = [("a", .bool true), ("b", comparing none), ("b", comparing cls),
        ("d", comparing cls)] := by
  obtain ⟨w, x, left, right, sent, sentAgain, standW, standX, ofW, ofX⟩ := comparing_sends cls
  obtain ⟨hop, refused⟩ := @comparing_refused cls _ standW ofW
  obtain ⟨z, announced, standZ⟩ := comparing_announced standX ofX
  have nodes : w.node = "b" ∧ x.node = "b" ∧ z.node = "d" :=
    ⟨congrArg Prod.fst standW, congrArg Prod.fst standX, congrArg Prod.fst standZ⟩
  have quiet : ∀ v ∈ [z], edgesFrom (topology (comparing none) (comparing cls)) v.node = [] := by
    rw [List.forall_mem_singleton, nodes.2.2]
    rfl
  have fromX := @Flows.send .binary64 _ _ _ [] _ _ _ _
    (@emissions_onward .binary64 _ _ _ _ _ nodes.2.1 announced) (@Flows.quiet .binary64 _ _ _ quiet)
  have fromW := @Flows.send .binary64 _ _ _ [x] _ _ _ _
    (@emissions_onward .binary64 _ _ _ _ _ nodes.1 refused) fromX
  have flows := @Flows.send .binary64 _ _ _ [] _ _ _ _
    (@emissions_links .binary64 _ _ _ _ _ _ rfl sent sentAgain) fromW
  rw [nodes.1, nodes.2.1] at flows
  refine ⟨[origin, w, x, z], _, flows, ?_⟩
  simp only [List.map_cons, standW, standX, standZ]
  rfl

theorem printed_comparing (cls : Spelling) : (comparing cls).Each Expr.Printed := by
  refine Expr.each_iff.mpr ⟨⟨rfl, List.forall_mem_nil _⟩, List.forall_mem_cons.mpr ⟨by decide, ?_⟩⟩
  exact List.forall_mem_singleton.mpr (by decide)

theorem origins_comparing (cls : Spelling) :
    query.origins (topology (comparing none) (comparing cls)) = .ok [origin] := by
  with_unfolding_all rfl

theorem comparing_accepted {cls : Spelling}
    (long : Encoding.spelled cls "IntComparison" ≠ .str "IntComparison") : ∃ a,
    @Topology.ask .binary64 (topology (comparing none) (comparing cls)) .default query = .ok a ∧
      a.accepted = true ∧ a.iterations = 4 := by
  obtain ⟨all, hops, flows, stand⟩ := comparing_flows cls
  have differ : Variant.conditionKey (comparing none) ≠ Variant.conditionKey (comparing cls) := by
    intro same
    exact long (Expr.spelled_of_key (printed_comparing none) (printed_comparing cls) same).symm
  have apart : Apart all := by
    have keys : (all.map standing).Pairwise fun c d =>
        c.1 = d.1 → Variant.conditionKey c.2 ≠ Variant.conditionKey d.2 := by
      rw [stand]
      simp [differ]
    exact List.pairwise_map.mp keys
  have ran := @Topology.propagates_of_flows .binary64 _ _ _ _ _ _ _ (origins_comparing cls) flows
    apart (by decide)
  obtain ⟨a, asked, counted, -, accepted⟩ := ran.ask_of_standing stand
  exact ⟨a, asked, accepted.trans rfl, counted⟩

/-- With one name, `b` keeps the first variant only. -/
theorem comparing_rejected : ∃ a,
    @Topology.ask .binary64 (topology (comparing none) (comparing none)) .default query = .ok a ∧
      a.accepted = false ∧ a.iterations = 3 := by
  obtain ⟨w, x, left, right, sent, sentAgain, standW, standX, ofW, -⟩ := comparing_sends none
  obtain ⟨hop, refused⟩ := @comparing_refused none _ standW ofW
  have here : w.node = "b" := congrArg Prod.fst standW
  have there : x.node = "b" := congrArg Prod.fst standX
  have same : w.condition = x.condition :=
    (congrArg Prod.snd standW).trans (congrArg Prod.snd standX).symm
  obtain ⟨hops, rests⟩ : ∃ hops, @settle .binary64 (topology (comparing none) (comparing none))
      .default (start [origin]) = .ok ⟨[origin, w], [], hops, 3⟩ :=
    ⟨_, @settle_links .binary64 _ _ _ _ _ _ _ _ _ rfl here there same sent rfl sentAgain rfl refused
      (List.forall_mem_nil _) .nil⟩
  have ran := @Topology.Propagates.mk .binary64 _ _ _ _ _ (origins_comparing none) rests
  have stand : [origin, w].map standing = [("a", .bool true), ("b", w.condition)] := by
    simp [standing, origin, here]
  obtain ⟨a, asked, counted, -, accepted⟩ := ran.ask_of_standing stand
  exact ⟨a, asked, accepted.trans rfl, counted⟩

end SpelledLinks

open SpelledLinks in
/-- The name for the class of a comparison can decide an answer. -/
theorem comparing_links_differ :
    (∀ cls, Topology.create (topology (comparing none) (comparing cls)).nodes
        (topology (comparing none) (comparing cls)).edges =
          .ok (topology (comparing none) (comparing cls))) ∧
      (topology (comparing none) (comparing (some "net.IntComparison"))).bare =
        (topology (comparing none) (comparing none)).bare ∧
      (∃ a, @Topology.ask .binary64
        (topology (comparing none) (comparing (some "net.IntComparison"))) .default TwoLinks.query =
          .ok a ∧ a.accepted = true ∧ a.iterations = 4) ∧
      ∃ a, @Topology.ask .binary64 (topology (comparing none) (comparing none)) .default
        TwoLinks.query = .ok a ∧ a.accepted = false ∧ a.iterations = 3 := by
  have long : Encoding.spelled (some "net.IntComparison") "IntComparison" ≠
      .str "IntComparison" := by
    intro same
    exact absurd (Json.str.inj same) (by decide)
  refine ⟨fun cls => ?_, rfl, comparing_accepted long, comparing_rejected⟩
  with_unfolding_all rfl

end RoutePolicy
