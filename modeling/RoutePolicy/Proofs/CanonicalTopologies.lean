import RoutePolicy.Proofs.AlikeTopologies
import RoutePolicy.Proofs.Condensation
import RoutePolicy.Proofs.ReachabilityComplete
import RoutePolicy.Proofs.Restoration

/-!
Topologies with one canonical text answer all queries alike, as long as they list their nodes in one
order. The text keeps all that answers depend on, but for that order: of two nodes that own the
destination the one that is listed first decides which record a node keeps.
-/

set_option autoImplicit false

namespace RoutePolicy

open Encoding RoutePolicy.Condensed

namespace Json

/-- Objects that are equal once sorted hold equal values once sorted. -/
theorem object_member_eq {left right : Table Json} (leftDistinct : left.names.Nodup)
    (rightDistinct : right.names.Nodup) (same : (object left).sorted = (object right).sorted)
    (key : String) : (left.get? key).map sorted = (right.get? key).map sorted := by
  have first := (Table.perm_arrange leftDistinct).2.distinct
  have second := (Table.perm_arrange rightDistinct).2.distinct
  rw [← Table.get?_arrange leftDistinct, ← Table.get?_arrange rightDistinct]
  exact member_eq first second same key

theorem arr_map_eq {α : Type} {write : α → Json} {xs ys : List α}
    (same : (arr (xs.map write)).sorted = (arr (ys.map write)).sorted) :
    List.Forall₂ (fun x y => (write x).sorted = (write y).sorted) xs ys := by
  simp only [sorted, sortedItems_eq, List.map_map, arr.injEq] at same
  rwa [map_eq_iff_forall₂] at same

end Json

/-! ### Nodes -/

namespace Node

variable {n m : Node}

theorem member_eq (same : (writeNode n).sorted = (writeNode m).sorted) (key : String) :
    ((writeNode n).get? key).map Json.sorted = ((writeNode m).get? key).map Json.sorted := by
  obtain ⟨members, written, plain⟩ := writeNode_object n
  obtain ⟨members', written', plain'⟩ := writeNode_object m
  rw [written, written'] at same ⊢
  exact Json.member_eq plain.1 plain'.1 same key

theorem networks_eq (same : (writeNode n).sorted = (writeNode m).sorted) :
    n.networks = m.networks := by
  have found := member_eq same "prefixes"
  rw [get?_prefixes, get?_prefixes] at found
  exact Expr.strs_inj (Option.some.inj found)

theorem external_eq (same : (writeNode n).sorted = (writeNode m).sorted) :
    n.external = m.external := by
  have found := member_eq same "external"
  rw [get?_external, get?_external] at found
  cases own : n.external <;> cases other : m.external <;> simp [own, other] at found ⊢

theorem names_writeChains (legible : n.Legible) :
    (Table.names (n.interfaces.map fun (name, c) => (name, writeChains n c))).Nodup := by
  rw [Table.names, List.map_map]
  exact legible.interfaces

/-- The chains of interfaces are written alike. -/
theorem chains_eq (left : n.Legible) (right : m.Legible)
    (same : (writeNode n).sorted = (writeNode m).sorted) (name : String) :
    Option.Rel (fun c d => (writeChains n c).sorted = (writeChains m d).sorted)
      (n.interfaces.get? name) (m.interfaces.get? name) := by
  have found := member_eq same "interfaces"
  rw [get?_interfaces, get?_interfaces] at found
  have values := Json.object_member_eq (names_writeChains left) (names_writeChains right)
    (Option.some.inj found) name
  rw [Table.get?_map, Table.get?_map, Option.map_map, Option.map_map] at values
  generalize n.interfaces.get? name = own at values ⊢
  generalize m.interfaces.get? name = other at values ⊢
  cases own <;> cases other <;> simp at values
  · exact .none
  · exact .some values

theorem writtenAlike_of_chains {c d : Chains}
    (same : (writeChains n c).sorted = (writeChains m d).sorted) :
    List.Forall₂ Policy.WrittenAlike (n.chain c.imports) (m.chain d.imports) ∧
      List.Forall₂ Policy.WrittenAlike (n.chain c.exports) (m.chain d.exports) := by
  have fields := Json.member_eq (by simp [Table.names]) (by simp [Table.names]) same
  exact ⟨Json.arr_map_eq (Option.some.inj (fields "import")),
    Json.arr_map_eq (Option.some.inj (fields "export"))⟩

/-- The policies that are only called are written alike. -/
theorem calledOnly_eq (left : n.Legible) (right : m.Legible)
    (same : (writeNode n).sorted = (writeNode m).sorted) {p : Policy} (member : p ∈ n.calledOnly) :
    ∃ q ∈ m.calledOnly, q.name = p.name ∧ p.WrittenAlike q := by
  have found := member_eq same "policies"
  have filled : n.calledOnly.isEmpty = false := by
    rw [List.isEmpty_eq_false_iff]
    exact List.ne_nil_of_mem member
  rw [get?_policies, get?_policies, filled] at found
  have distinct : ∀ {k : Node}, k.Legible →
      (Table.names (k.calledOnly.map fun p => (p.name, writePolicy p))).Nodup := by
    intro k legible
    rw [Table.names, List.map_map]
    exact legible.distinct_calledOnly
  cases empty : m.calledOnly.isEmpty with
  | true =>
    rw [empty] at found
    cases found
  | false =>
    rw [empty] at found
    have values := Json.object_member_eq (distinct left) (distinct right) (Option.some.inj found) p.name
    have own : (p.name, writePolicy p) ∈ n.calledOnly.map fun p => (p.name, writePolicy p) :=
      List.mem_map_of_mem member
    rw [Table.get?_of_mem (distinct left) own, Option.map_some, eq_comm,
      Option.map_eq_some_iff] at values
    obtain ⟨value, there, alike⟩ := values
    obtain ⟨q, listed, same⟩ := List.mem_map.mp (Table.mem_of_get? there)
    obtain ⟨names, rfl⟩ := Prod.mk.inj same
    exact ⟨q, listed, names, alike.symm⟩

/-- Policies of both nodes under one name that are written alike. -/
def Twins (n m : Node) (name : String) : Prop :=
  ∃ p q, n.policies.get? name = some p ∧ m.policies.get? name = some q ∧ p.WrittenAlike q

theorem twins_of_chain (left : n.Legible) (right : m.Legible) {names others : List String}
    (related : List.Forall₂ Policy.WrittenAlike (n.chain names) (m.chain others)) {name : String}
    (named : name ∈ names) (known : n.policies.has name = true) : n.Twins m name := by
  obtain ⟨p, found⟩ := Option.isSome_iff_exists.mp known
  obtain ⟨q, listed, alike⟩ := exists_of_forall₂ related (mem_chain.mpr ⟨name, named, found⟩)
  obtain ⟨other, -, there⟩ := mem_chain.mp listed
  have same : name = other := by
    rw [← left.name_of_get? found, ← right.name_of_get? there, alike.name]
  exact ⟨p, q, found, same ▸ there, alike⟩

/-- Whatever the chains of a node reach is written alike. -/
theorem twins_of_reached (left : n.Legible) (right : m.Legible) (resolved : n.Resolved)
    (same : (writeNode n).sorted = (writeNode m).sorted) {name : String}
    (reaches : n.Reaches n.bound name) : n.Twins m name := by
  have known := resolved.reached reaches
  by_cases bound : name ∈ n.bound
  · obtain ⟨⟨interface, c⟩, listed, named⟩ := mem_bound.mp bound
    have chains := chains_eq left right same interface
    rw [Table.get?_of_mem left.interfaces listed] at chains
    generalize m.interfaces.get? interface = other at chains
    cases chains with
    | some alike =>
      obtain ⟨imports, exports⟩ := writtenAlike_of_chains alike
      rcases List.mem_append.mp named with entering | leaving
      · exact twins_of_chain left right imports entering known
      · exact twins_of_chain left right exports leaving known
  · obtain ⟨p, found⟩ := Option.isSome_iff_exists.mp known
    have value : p ∈ n.policies.values := List.mem_map.mpr ⟨_, Table.mem_of_get? found, rfl⟩
    have own := left.name_of_get? found
    have called : p ∈ n.calledOnly := mem_calledOnly.mpr ⟨value, own ▸ reaches, own ▸ bound⟩
    obtain ⟨q, there, sameName, alike⟩ := calledOnly_eq left right same called
    have other := right.get?_name (mem_calledOnly.mp there).1
    rw [sameName, own] at other
    exact ⟨p, q, found, other, alike⟩

/-- A policy that a reached one is written like runs like it, and calls what is reached. -/
theorem resembles_of_writtenAlike (left : n.Legible) (right : m.Legible) {name other : String}
    (reaches : n.Reaches n.bound name) {p q : Policy} (found : n.policies.get? name = some p)
    (there : m.policies.get? other = some q) (alike : p.WrittenAlike q) :
    p.Resembles (n.Reaches n.bound) q := by
  refine ⟨Policy.outline_of_writtenAlike (left.texts.get? found) (right.texts.get? there) alike, ?_⟩
  intro callee called
  apply Reaches.called reaches
  unfold callees
  rw [found]
  exact called

theorem resembles_chain (left : n.Legible) (right : m.Legible) {names others : List String}
    (bound : ∀ name ∈ names, name ∈ n.bound)
    (related : List.Forall₂ Policy.WrittenAlike (n.chain names) (m.chain others)) :
    List.Forall₂ (Policy.Resembles (n.Reaches n.bound)) (n.chain names) (m.chain others) := by
  apply forall₂_of_mem related
  intro p inside q there alike
  obtain ⟨name, named, found⟩ := mem_chain.mp inside
  obtain ⟨other, -, found'⟩ := mem_chain.mp there
  exact resembles_of_writtenAlike left right (.known (bound name named)) found found' alike

/-- Nodes of one name that are written alike send and receive alike. -/
theorem alike_of_written (left : n.Legible) (right : m.Legible) (resolved : n.Resolved)
    (named : n.name = m.name) (same : (writeNode n).sorted = (writeNode m).sorted) :
    n.Alike m := by
  refine ⟨named, external_eq same, networks_eq same, ?_, ?_⟩
  · intro name reaches
    obtain ⟨p, q, found, there, alike⟩ := twins_of_reached left right resolved same reaches
    exact ⟨p, q, found, there, resembles_of_writtenAlike left right reaches found there alike⟩
  · intro name
    have chains := chains_eq left right same name
    have listed : ∀ {c}, n.interfaces.get? name = some c → ∀ policy ∈ c.policies, policy ∈ n.bound :=
      fun own policy member => mem_bound.mpr ⟨_, Table.mem_of_get? own, member⟩
    generalize n.interfaces.get? name = own at chains listed ⊢
    generalize m.interfaces.get? name = other at chains ⊢
    cases chains with
    | none => exact .none
    | some alike =>
      obtain ⟨imports, exports⟩ := writtenAlike_of_chains alike
      have within := listed rfl
      exact .some ⟨resembles_chain left right
          (fun name member => within name (List.mem_append_left _ member)) imports,
        resembles_chain left right
          (fun name member => within name (List.mem_append_right _ member)) exports⟩

end Node

/-! ### Topologies -/

namespace Topology

variable {t u : Topology}

theorem edge_eq {a b : Edge} (same : (writeEdge a).sorted = (writeEdge b).sorted) : a = b := by
  obtain ⟨⟨node, interface⟩, ⟨other, end'⟩⟩ := a
  obtain ⟨⟨node', interface'⟩, ⟨other', end''⟩⟩ := b
  simp only [writeEdge, writeEndpoint, Json.strs, Json.sorted, Json.sortedItems, List.map_cons,
    List.map_nil, Json.arr.injEq, List.cons.injEq, Json.str.injEq, and_true] at same
  obtain ⟨⟨rfl, rfl⟩, rfl, rfl⟩ := same
  rfl

/-- Topologies that are written alike and list their nodes in one order send and receive alike. -/
theorem alike_of_written (left : t.Resolved) (right : u.Resolved)
    (legible : ∀ n ∈ t.nodes, n.Legible) (legible' : ∀ n ∈ u.nodes, n.Legible)
    (order : t.nodes.map Node.name = u.nodes.map Node.name)
    (same : t.toJson.sorted = u.toJson.sorted) : t.Alike u := by
  have fields := Json.member_eq (by simp [Table.names]) (by simp [Table.names]) same
  have distinct : ∀ {k : Topology}, k.Resolved →
      (Table.names (k.nodes.map fun n => (n.name, writeNode n))).Nodup := by
    intro k resolved
    rw [Table.names, List.map_map]
    exact resolved.distinct
  have nodes := Json.object_member_eq (distinct left) (distinct right) (Option.some.inj (fields "nodes"))
  have found : ∀ {k : Topology}, k.Resolved → ∀ n ∈ k.nodes,
      Table.get? (k.nodes.map fun n => (n.name, writeNode n)) n.name = some (writeNode n) :=
    fun resolved n member => Table.get?_of_mem (distinct resolved) (List.mem_map_of_mem member)
  constructor
  · have names : List.Forall₂ (fun n m => n.name = m.name) t.nodes u.nodes := by
      rwa [map_eq_iff_forall₂] at order
    apply forall₂_of_mem names
    intro n inside m there named
    have values := nodes n.name
    rw [found left n inside, named, found right m there] at values
    exact Node.alike_of_written (legible n inside) (legible' m there) (left.nodes n inside) named
      (Option.some.inj values)
  · have edges := Json.arr_map_eq (Option.some.inj (fields "edges"))
    rw [← List.forall₂_eq_eq_eq]
    exact edges.imp fun _ _ => edge_eq

variable [Arithmetic]

end Topology

/-! ### Two drafts of one topology -/

/-- A policy that leaves the decision to another one. -/
def deferring : Policy := ⟨"P", [.branch none (.call none "Q") [.finish none .accept] [] .absent]⟩

def deciding : Policy := ⟨"Q", [.finish none .accept]⟩

/-- A policy that nothing refers to. -/
def spare : Policy := ⟨"R", [.finish none .reject]⟩

/-- A node that sends its network over one of its interfaces. -/
def sender (interfaces : Table Chains) (policies : Table Policy) : Node :=
  ⟨"b", none, ["10.0.0.0/8"], interfaces, policies, false⟩

def tidySender : Node :=
  sender [("out", ⟨[], ["P"]⟩), ("up", .empty)] [("P", deferring), ("Q", deciding)]

/-- The same with interfaces and policies in another order, and with a policy out of reach. -/
def untidySender : Node :=
  sender [("up", .empty), ("out", ⟨[], ["P"]⟩)] [("R", spare), ("Q", deciding), ("P", deferring)]

/-- A topology in which a node sends to a second one. -/
def sendingTo (n : Node) : Topology where
  nodes := [n, ⟨"a", some 65000, [], [("in", .empty)], [], false⟩]
  edges := [⟨⟨"b", "out"⟩, ⟨"a", "in"⟩⟩]

/-- The value that both senders are written as, given the order of their interfaces. -/
def sentValue (interfaces : Table Json) : Json :=
  .obj [("prefixes", .strs ["10.0.0.0/8"]), ("interfaces", .obj interfaces),
    ("policies", .obj [("Q", writePolicy deciding)])]

def sentChains : Json :=
  .obj [("import", .arr []), ("export", .arr [writePolicy deferring])]

def noChains : Json := .obj [("import", .arr []), ("export", .arr [])]

theorem writeNode_senders :
    writeNode tidySender = sentValue [("out", sentChains), ("up", noChains)] ∧
      writeNode untidySender = sentValue [("up", noChains), ("out", sentChains)] := by
  constructor <;> with_unfolding_all rfl

theorem sendingTo_sorted :
    (sendingTo tidySender).toJson.sorted = (sendingTo untidySender).toJson.sorted := by
  have swapped : (Json.obj [("out", sentChains), ("up", noChains)]).sorted =
      (Json.obj [("up", noChains), ("out", sentChains)]).sorted :=
    Json.sorted_perm (by decide) (List.Perm.swap _ _ _)
  have senders : (writeNode tidySender).sorted = (writeNode untidySender).sorted := by
    rw [writeNode_senders.1, writeNode_senders.2]
    exact Json.sorted_obj_congr (.cons ⟨rfl, rfl⟩ (.cons ⟨rfl, swapped⟩ (.cons ⟨rfl, rfl⟩ .nil)))
  have plain : Table.PlainNames ["b", "a"] := by decide
  have nodes : ∀ n : Node, n.name = "b" →
      Json.object ((sendingTo n).nodes.map fun n => (n.name, writeNode n)) =
        .obj ((sendingTo n).nodes.map fun n => (n.name, writeNode n)) := by
    intro n named
    apply Json.object_plain
    simpa [sendingTo, Table.names, named] using plain
  unfold Topology.toJson
  rw [nodes tidySender rfl, nodes untidySender rfl]
  refine Json.sorted_obj_congr (.cons ⟨rfl, rfl⟩ (.cons ⟨rfl, ?_⟩ (.cons ⟨rfl, rfl⟩ .nil)))
  exact Json.sorted_obj_congr (.cons ⟨rfl, senders⟩ (.cons ⟨rfl, rfl⟩ .nil))

open TwoLinks (plain marking checking) in
theorem legible_samples :
    ∀ p ∈ [deferring, deciding, spare, plain, marking, checking], p.Legible := by
  intro p member
  have formed : p.WellFormed fun _ => true := by
    constructor
    · simp only [List.mem_cons, List.not_mem_nil, or_false] at member
      rcases member with rfl | rfl | rfl | rfl | rfl | rfl <;>
        simp [deferring, deciding, spare, plain, marking, checking, Statement.SpelledAll,
          Statement.Spelled, Spelling.suits_none]
    · simp only [List.mem_cons, List.not_mem_nil, or_false] at member
      rcases member with rfl | rfl | rfl | rfl | rfl | rfl <;>
        simp only [deferring, deciding, spare, plain, marking, checking, Statement.EveryAll,
          Statement.Every] <;> decide
  apply formed.legible_of_supported
  simp only [List.mem_cons, List.not_mem_nil, or_false] at member
  rcases member with rfl | rfl | rfl | rfl | rfl | rfl <;>
    simp only [deferring, deciding, spare, plain, marking, checking, Statement.EveryAll,
      Statement.Every] <;> decide

theorem legible_sendingTo {n : Node} (legible : n.Legible) :
    ∀ k ∈ (sendingTo n).nodes, k.Legible := by
  refine List.forall_mem_cons.mpr ⟨legible, List.forall_mem_singleton.mpr ?_⟩
  refine ⟨by decide, by decide, nofun, nofun, ?_⟩
  rintro asn ⟨⟩
  exact Number.ofInt_safe (by decide)

theorem legible_senders : tidySender.Legible ∧ untidySender.Legible := by
  constructor
  · refine ⟨by decide, by decide, by simp [tidySender, sender, deferring, deciding], ?_, by rintro _ ⟨⟩⟩
    simp [tidySender, sender, Table.All, legible_samples]
  · refine ⟨by decide, by decide, by simp [untidySender, sender, deferring, deciding, spare], ?_,
      by rintro _ ⟨⟩⟩
    simp [untidySender, sender, Table.All, legible_samples]

namespace TwoOwners

open Propagation
open TwoLinks (plain marking checking query)

/-! Two nodes own the destination and announce it to `c`, the second one with another metric. Only
with this metric `c` announces it to `d`; but `c` keeps what comes from the owner that is listed
first, since both arrive under the condition true. -/

def owner (name : String) (p : Policy) : Node :=
  ⟨name, none, ["10.0.0.0/8"], [("e", ⟨[], [p.name]⟩)], [(p.name, p)], false⟩

def receiver : Node :=
  ⟨"c", none, [], [("a", .empty), ("b", .empty), ("g", ⟨[], ["R"]⟩)], [("R", checking)], false⟩

/-- The owners in some order, before the other nodes. -/
def listing (owners : List Node) : Topology :=
  ⟨owners ++ [receiver, TwoLinks.d],
    [⟨⟨"a", "e"⟩, ⟨"c", "a"⟩⟩, ⟨⟨"b", "e"⟩, ⟨"c", "b"⟩⟩, ⟨⟨"c", "g"⟩, ⟨"d", "g"⟩⟩]⟩

def inOrder : Topology := listing [owner "a" plain, owner "b" marking]

def swapped : Topology := listing [owner "b" marking, owner "a" plain]

theorem canonical_swapped : inOrder.canonical = swapped.canonical := by
  have distinct : (inOrder.nodes.map Node.name).Nodup := by decide
  have others : (swapped.nodes.map Node.name).Nodup := by decide
  have nodes : inOrder.nodes.Perm swapped.nodes := .swap _ _ _
  refine congrArg Json.compact (Topology.sorted_toJson distinct others rfl fun name => ?_)
  have same : inOrder.node? name = swapped.node? name := Option.ext fun n => by
    rw [Topology.node?_iff distinct, Topology.node?_iff others, nodes.mem_iff]
  rw [same]
  cases swapped.node? name with
  | none => exact .none
  | some n => exact .some rfl

/-- The variant that an owner starts with. -/
def origin (name : String) : Variant := { TwoLinks.origin with node := name }

/-- Two variants that send the same condition to a node: what the second one sends is dropped, and
what the first one sends goes on. -/
theorem propagates_first [Arithmetic] {t : Topology} {v v' w x : Variant} {all : List Variant}
    {hops : List Hop} {n : Nat} (starts : query.origins t = .ok [v, v'])
    (sends : emissions t .default v = .ok [.arrival w]) (once : (edgesFrom t v.node).length = 1)
    (sends' : emissions t .default v' = .ok [.arrival x]) (once' : (edgesFrom t v'.node).length = 1)
    (same : standing w = standing x) (flows : Flows t .default [w] (w :: all) hops n)
    (apart : Apart (v :: v' :: w :: all))
    (room : ((2 + n : Nat) : Int) ≤ Limits.default.iterations) :
    t.Propagates .default query [v, v'] ⟨v :: v' :: w :: all, [], hops, 2 + n⟩ := by
  have origins : Apart [v, v'] := apart.sublist (by simp)
  have taken : (⟨[v], [v'], [], 1⟩ : State).add w = ⟨[v], [v', w], [], 1⟩ := by
    apply State.add_new
    intro u member
    have near : Apart ([v, v'] ++ w :: all) := apart
    exact (List.pairwise_append.mp near).2.2 u member w List.mem_cons_self
  have dropped : (⟨[v, v'], [w], [], 2⟩ : State).add x = ⟨[v, v'], [w], [], 2⟩ :=
    State.add_known ⟨w, by simp [State.variants], congrArg Prod.fst same,
      congrArg Variant.conditionKey (congrArg Prod.snd same)⟩
  refine ⟨starts, ?_⟩
  calc
    _ = settle t .default ⟨[], [v, v'], [], 0⟩ := by rw [start_apart origins]
    _ = settle t .default ((⟨[v], [v'], [], 1⟩ : State).add w) := by
      rw [settle_of_emissions sends (by rw [once]; decide), once]
      rfl
    _ = settle t .default ((⟨[v, v'], [w], [], 2⟩ : State).add x) := by
      rw [taken, settle_of_emissions sends' (by rw [once']; decide), once']
      rfl
    _ = .ok ⟨v :: v' :: w :: all, [], hops, 2 + n⟩ := by
      rw [dropped]
      exact flows.settle [v, v'] [] 2 apart room

/-- What the owners send, and what the receiver makes of it. -/
theorem sends_inOrder : ∃ w x,
    @emissions .binary64 inOrder .default (origin "a") = .ok [.arrival w] ∧
    @emissions .binary64 inOrder .default (origin "b") = .ok [.arrival x] ∧
    standing w = ("c", .bool true) ∧ standing x = ("c", .bool true) ∧
    ∃ hop, @emissions .binary64 inOrder .default w = .ok [.refused hop] :=
  ⟨_, _, by with_unfolding_all rfl, by with_unfolding_all rfl, by with_unfolding_all rfl,
    by with_unfolding_all rfl, _, by with_unfolding_all rfl⟩

theorem sends_swapped : ∃ w x z,
    @emissions .binary64 swapped .default (origin "b") = .ok [.arrival x] ∧
    @emissions .binary64 swapped .default (origin "a") = .ok [.arrival w] ∧
    standing w = ("c", .bool true) ∧ standing x = ("c", .bool true) ∧
    @emissions .binary64 swapped .default x = .ok [.arrival z] ∧ standing z = ("d", .bool true) :=
  ⟨_, _, _, by with_unfolding_all rfl, by with_unfolding_all rfl, by with_unfolding_all rfl,
    by with_unfolding_all rfl, by with_unfolding_all rfl, by with_unfolding_all rfl⟩

theorem inOrder_rejected : ∃ a, @Topology.ask .binary64 inOrder .default query = .ok a ∧
    a.accepted = false := by
  obtain ⟨w, x, sends, sends', standW, standX, hop, refused⟩ := sends_inOrder
  have here : w.node = "c" := congrArg Prod.fst standW
  have flows := @Flows.send .binary64 inOrder .default w [] [] _ _ _ refused
    (@Flows.rest .binary64 _ _)
  have apart : Apart [origin "a", origin "b", w] := by
    simp [Apart, origin, here]
  rw [here] at flows
  have ran := @propagates_first .binary64 _ _ _ _ _ _ _ _ (by with_unfolding_all rfl) sends rfl sends'
    rfl (standW.trans standX.symm) flows apart (by decide)
  have stand : [origin "a", origin "b", w].map standing =
      [("a", .bool true), ("b", .bool true), ("c", .bool true)] := by
    rw [List.map_cons, List.map_cons, List.map_singleton, standW]
    rfl
  obtain ⟨a, asked, -, -, accepted⟩ := ran.ask_of_standing stand
  exact ⟨a, asked, accepted.trans rfl⟩

theorem swapped_accepted : ∃ a, @Topology.ask .binary64 swapped .default query = .ok a ∧
    a.accepted = true := by
  obtain ⟨w, x, z, sends, sends', standW, standX, announced, standZ⟩ := sends_swapped
  have here : x.node = "c" := congrArg Prod.fst standX
  have there : z.node = "d" := congrArg Prod.fst standZ
  have quiet : ∀ v ∈ [z], edgesFrom swapped v.node = [] := by
    rw [List.forall_mem_singleton, there]
    rfl
  have flows := @Flows.send .binary64 swapped .default x [] _ _ _ _ announced
    (@Flows.quiet .binary64 _ _ [z] quiet)
  have apart : Apart [origin "b", origin "a", x, z] := by
    simp [Apart, origin, here, there]
  rw [here] at flows
  have ran := @propagates_first .binary64 _ _ _ _ _ _ _ _ (by with_unfolding_all rfl) sends rfl sends'
    rfl (standX.trans standW.symm) flows apart (by decide)
  have stand : [origin "b", origin "a", x, z].map standing =
      [("b", .bool true), ("a", .bool true), ("c", .bool true), ("d", .bool true)] := by
    rw [List.map_cons, List.map_cons, List.map_cons, List.map_singleton, standX, standZ]
    rfl
  obtain ⟨a, asked, -, -, accepted⟩ := ran.ask_of_standing stand
  exact ⟨a, asked, accepted.trans rfl⟩

theorem legible_owner (name : String) {p : Policy} (legible : p.Legible) :
    (owner name p).Legible :=
  ⟨List.nodup_singleton _, List.nodup_singleton _, by simp [owner], Table.All.single legible,
    by rintro _ ⟨⟩⟩

theorem legible_nodes :
    ∀ n ∈ [owner "a" plain, owner "b" marking, receiver, TwoLinks.d], n.Legible := by
  intro n member
  simp only [List.mem_cons, List.not_mem_nil, or_false] at member
  rcases member with rfl | rfl | rfl | rfl
  · exact legible_owner "a" (legible_samples plain (by simp))
  · exact legible_owner "b" (legible_samples marking (by simp))
  · exact ⟨by decide, List.nodup_singleton _, by simp [receiver, checking],
      Table.All.single (legible_samples checking (by simp)), by rintro _ ⟨⟩⟩
  · exact ⟨List.nodup_singleton _, List.nodup_nil, List.forall_mem_nil _, Table.All.nil,
      by rintro _ ⟨⟩⟩

end TwoOwners

end RoutePolicy
