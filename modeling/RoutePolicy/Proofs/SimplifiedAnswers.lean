import RoutePolicy.Proofs.ReachabilityComplete
import RoutePolicy.Proofs.SimplifiedTopologies
import RoutePolicy.Proofs.Undisturbed

/-!
Answers before and after a topology is simplified. Where no record is overtaken they say the same of
a route; that they are accepted alike is sure only if their witnesses are true of it.
-/

set_option autoImplicit false

namespace RoutePolicy

namespace Propagation

variable {route : Route}

theorem residualOf_predicate {s : State}
    (all : ∀ v ∈ s.variants, v.condition.ResidualOf .boolean) (node : String) :
    (predicate s node).ResidualOf .boolean := by
  refine Expr.residualOf_simplify (Expr.residualOf_junction .any ?_)
  rw [List.forall_mem_map]
  intro v member
  exact all v (List.mem_filter.mp member).1

theorem get?_predicates (t : Topology) (s : State) (node : String) :
    (predicates t s).get? node =
      if t.nodes.any (·.name = node) then some (predicate s node) else none := by
  unfold predicates
  induction t.nodes with
  | nil => rfl
  | cons n rest ih =>
      rw [List.map_cons, Table.get?, ih, List.any_cons]
      by_cases here : n.name = node
      · simp [here]
      · simp [here]

/-- The condition of every node is reported. -/
theorem reported {t : Topology} {n : Node} (listed : n ∈ t.nodes) (q : Query) (s : State) :
    (n.name, predicate s n.name) ∈ (answer t q s).predicates :=
  List.mem_map.mpr ⟨n, listed, rfl⟩

/-- The witness is true of a route if the condition of the deciding node is, or those of all
nodes. -/
theorem holdsAt_witness {t : Topology} {s : State} {q : Query}
    (residuals : ∀ e ∈ (predicates t s).values, e.ResidualOf .boolean) :
    (witness q (predicates t s)).holdsAt route =
      match q.source with
      | some node => t.nodes.any (·.name = node) && (predicate s node).holdsAt route
      | none => t.nodes.all fun n => (predicate s n.name).holdsAt route := by
  unfold witness
  cases q.source with
  | some node =>
      dsimp only
      rw [get?_predicates]
      split
      · rename_i listed
        rw [listed]
        rfl
      · rename_i missing
        rw [Bool.eq_false_iff.mpr missing]
        rfl
  | none =>
      dsimp only
      rw [Expr.holdsAt_simplify (e := Expr.all _) (Expr.residualOf_junction .all residuals),
        Expr.holdsAt_all, Table.values, predicates, List.map_map, List.all_map]
      rfl

/-- Of witnesses that say the same about a route only one may be the constant false, if they are not
true of it. -/
theorem accepted_or_fails {a b : Expr} (same : a.holdsAt route = b.holdsAt route) :
    (!a.isFalse) = (!b.isFalse) ∨ a.holdsAt route = false := by
  cases holds : a.holdsAt route with
  | false => exact .inr rfl
  | true =>
      rw [holds] at same
      rw [Expr.isFalse_of_holdsAt holds, Expr.isFalse_of_holdsAt same.symm]
      exact .inl rfl

end Propagation

/-- All conditions that are reported are residuals. -/
theorem Topology.Propagates.residualOf_predicates [Arithmetic]
    (exact : ∀ i : Int, Arithmetic.round i = i) {t : Topology} (usable : t.Usable) {q : Query}
    {limits : Limits} {origins : List Variant} {s : Propagation.State}
    (ran : t.Propagates limits q origins s) :
    ∀ e ∈ (Propagation.predicates t s).values, e.ResidualOf .boolean := by
  obtain ⟨target, found⟩ := ran.network
  have justified := Propagation.settle_justified exact usable found ran.starts ran.rests
  unfold Propagation.predicates Table.values
  rw [List.map_map, List.forall_mem_map]
  intro n _
  exact Propagation.residualOf_predicate (fun v member => (justified v member).condition) n.name

/-- The nodes that decide a query. -/
def Query.Decides (q : Query) (node : String) : Prop := q.source = none ∨ q.source = some node

/-- Answers that say the same about a route where it is clear. They may be accepted and rejected
only because of conditions that are not true of the route. -/
structure Answer.AgreesAt (route : Route) (clear : String → Prop) (a b : Answer) : Prop where
  names : a.predicates.names = b.predicates.names
  predicates : ∀ node e e', (node, e) ∈ a.predicates → (node, e') ∈ b.predicates → clear node →
    e.holdsAt route = e'.holdsAt route
  witness : (∀ node, a.query.Decides node → clear node) →
    a.witness.holdsAt route = b.witness.holdsAt route
  accepted : (∀ node, a.query.Decides node → clear node) →
    a.accepted = b.accepted ∨ a.witness.holdsAt route = false

namespace RaisingPeer

open Propagation

/-- The constant zero is below the value of an attribute. -/
def positive (name : Attribute) : Expr := .compare none .gt (.ref name) (.lit none (.int 0))

def positiveDocument (word : String) : Json :=
  .obj [("class", .str "IntComparison"), ("comparator", .str "GT"), ("left", ref word),
    ("right", .obj [("class", .str "LiteralLong"), ("value", .int 0)])]

def splitDocument (guard : Json) (onTrue onFalse : List Json) : Json :=
  .obj [("class", .str "If"), ("guard", guard), ("trueStatements", .arr onTrue),
    ("falseStatements", .arr onFalse)]

/-- A statement that asks for the tag but accepts all routes. -/
def fork : Statement :=
  .branch none (positive .tag) [.finish none .accept] [.finish none .accept] .absent

def forkDocument : Json :=
  splitDocument (positiveDocument "tag") [ending "ExitAccept"] [ending "ExitAccept"]

/-- A policy that forks. -/
def forking : Policy := ⟨"P", [fork]⟩

def forkingDocument : Json := .obj [("name", .str "P"), ("statements", .arr [forkDocument])]

theorem forking_emits : ∃ cs, @emissions .exact (topology forking) .default origin = .ok cs ∧
    (arrivals cs).map standing =
      [("b", positive .tag), ("b", .not none (positive .tag))] :=
  ⟨_, by with_unfolding_all rfl, by with_unfolding_all rfl⟩

theorem plain_emits : ∃ cs, @emissions .exact (topology TwoLinks.plain) .default origin = .ok cs ∧
    (arrivals cs).map standing = [("b", .bool true)] :=
  ⟨_, by with_unfolding_all rfl, by with_unfolding_all rfl⟩

end RaisingPeer

/-- Simplification keeps answers at a route: whether they are accepted, and every condition. -/
def Topology.KeepsAnswers [Arithmetic] (t : Topology) (q : Query) (route : Route) : Prop :=
  ∀ (limits : Limits) (u : Topology) (a b : Answer), t.simplify = .ok u →
    t.ask limits q = .ok a → u.ask limits q = .ok b → a.accepted = b.accepted ∧
    ∀ node e e', (node, e) ∈ a.predicates → (node, e') ∈ b.predicates →
      e.holdsAt route = e'.holdsAt route

/-- No record is overtaken before simplification or after it. -/
def Topology.StaysClear [Arithmetic] (t : Topology) (q : Query) (route : Route) : Prop :=
  ∀ u node, t.simplify = .ok u →
    t.ClearAt .default q route node ∧ u.ClearAt .default q route node

/-- What two runs say of a kept answer. -/
theorem Topology.KeepsAnswers.runs [Arithmetic] {t u : Topology} {q : Query} {route : Route}
    {limits : Limits} {origins others : List Variant} {s s' : Propagation.State}
    (keeps : t.KeepsAnswers q route) (simplified : t.simplify = .ok u)
    (ran : t.Propagates limits q origins s) (ranAgain : u.Propagates limits q others s') :
    (Propagation.answer t q s).accepted = (Propagation.answer u q s').accepted ∧
    ∀ n ∈ t.nodes, (Propagation.predicate s n.name).holdsAt route =
      (Propagation.predicate s' n.name).holdsAt route := by
  obtain rfl := simplify_ok simplified
  obtain ⟨accepted, same⟩ := keeps limits _ _ _ simplified (ask_ok.mpr ⟨_, s, ran, rfl⟩)
    (ask_ok.mpr ⟨_, s', ranAgain, rfl⟩)
  refine ⟨accepted, fun n listed => ?_⟩
  have again : n.simplified ∈ t.simplified.nodes := List.mem_map_of_mem listed
  exact same n.name _ _ (Propagation.reported listed q s) (Propagation.reported again q s')

namespace TwoLinks

open Propagation
open RaisingPeer (ref ending branching assignment fork forkDocument forking positive
  positiveDocument splitDocument)

def linksDocument (p q r : List Json) : Json :=
  .obj [("version", .nat 1),
    ("nodes", .obj [
      ("a", node ["10.0.0.0/8"] [("e", [policyDocument "P" p]), ("f", [policyDocument "Q" q])]),
      ("b", node [] [("e", []), ("f", []), ("g", [policyDocument "R" r])]),
      ("d", node [] [("g", [])])]),
    ("edges", .arr [.arr [.strs ["a", "e"], .strs ["b", "e"]],
      .arr [.strs ["a", "f"], .strs ["b", "f"]], .arr [.strs ["b", "g"], .strs ["d", "g"]]])]

/-- A document whose first link forks. -/
def forkedDocument : Json :=
  linksDocument [forkDocument]
    [assignment "SetMetric" "metric" five, ending "ExitAccept"]
    [branching (.obj [("class", .str "IntComparison"), ("comparator", .str "EQ"),
      ("left", ref "metric"), ("right", five)])]

/-! If the first link forks, then `b` keeps what comes over the second one, which reaches `d`. -/

/-- The originated record with the metric five. -/
def marked : Record :=
  ⟨origin.record.slots.map fun (name, e) =>
    (name, if name = .metric then .lit none (.int 5) else e)⟩

theorem forked_sends : ∃ w x y,
    @emissions .exact (links forking marking checking) .default origin =
      .ok [.arrival w, .arrival x, .arrival y] ∧
    standing w = ("b", positive .tag) ∧ standing x = ("b", .not none (positive .tag)) ∧
    standing y = ("b", .bool true) ∧
    w.record = origin.record ∧ x.record = origin.record ∧ y.record = marked :=
  ⟨_, _, _, by with_unfolding_all rfl, by with_unfolding_all rfl, by with_unfolding_all rfl,
    by with_unfolding_all rfl, by with_unfolding_all rfl, by with_unfolding_all rfl,
    by with_unfolding_all rfl⟩

/-- Without its metric nothing is announced to `d`. -/
theorem forked_refuses {w : Variant} {c : Expr} (here : standing w = ("b", c))
    (either : c = positive .tag ∨ c = .not none (positive .tag)) (record : w.record = origin.record) :
    ∃ hop, @emissions .exact (links forking marking checking) .default w = .ok [.refused hop] := by
  obtain ⟨node, condition, r, hops⟩ := w
  cases here
  subst record
  rcases either with rfl | rfl
  · exact ⟨_, by with_unfolding_all rfl⟩
  · exact ⟨_, by with_unfolding_all rfl⟩

theorem forked_announces {y : Variant} (here : standing y = ("b", .bool true))
    (record : y.record = marked) : ∃ z,
    @emissions .exact (links forking marking checking) .default y = .ok [.arrival z] ∧
      standing z = ("d", .bool true) := by
  obtain ⟨node, condition, r, hops⟩ := y
  cases here
  subst record
  exact ⟨_, by with_unfolding_all rfl, by with_unfolding_all rfl⟩

theorem forked_flows : ∃ all hops,
    @Flows .exact (links forking marking checking) .default [origin] all hops 5 ∧
    all.map standing = [("a", .bool true), ("b", positive .tag), ("b", .not none (positive .tag)),
      ("b", .bool true), ("d", .bool true)] := by
  obtain ⟨w, x, y, emits, standW, standX, standY, ofW, ofX, ofY⟩ := forked_sends
  obtain ⟨hop, refuses⟩ := forked_refuses standW (.inl rfl) ofW
  obtain ⟨hopToo, refusesToo⟩ := forked_refuses standX (.inr rfl) ofX
  obtain ⟨z, announces, standZ⟩ := forked_announces standY ofY
  have quiet : ∀ v ∈ [z], edgesFrom (links forking marking checking) v.node = [] := by
    have there : z.node = "d" := congrArg Prod.fst standZ
    simp only [List.forall_mem_cons, there]
    exact ⟨rfl, nofun⟩
  have fromY := @Flows.send .exact _ _ _ [] _ _ _ _ announces (@Flows.quiet .exact _ _ _ quiet)
  have fromX := @Flows.send .exact _ _ _ [y] _ _ _ _ refusesToo fromY
  have fromW := @Flows.send .exact _ _ _ [x, y] _ _ _ _ refuses fromX
  have flows := @Flows.send .exact _ _ _ [] _ _ _ _ emits fromW
  have nodes : w.node = "b" ∧ x.node = "b" ∧ y.node = "b" :=
    ⟨congrArg Prod.fst standW, congrArg Prod.fst standX, congrArg Prod.fst standY⟩
  rw [nodes.1, nodes.2.1, nodes.2.2] at flows
  refine ⟨[origin, w, x, y, z], _, flows, ?_⟩
  simp only [List.map_cons, standW, standX, standY, standZ]
  rfl

theorem forked_not_keepsAnswers :
    ¬@Topology.KeepsAnswers .exact (links forking marking checking) query RaisingPeer.route := by
  intro keeps
  obtain ⟨all, hops, flows, stand⟩ := forked_flows
  obtain ⟨ran, -⟩ := @Topology.undisturbed .exact _ _ query _ _ _ _ _ (by with_unfolding_all rfl)
    flows (by decide) stand (by decide) (by decide)
  obtain ⟨w, hop, rests, here⟩ := settled
  have simplified : (links forking marking checking).simplify = .ok topology := by
    with_unfolding_all rfl
  have ranAgain := @Topology.Propagates.mk .exact _ _ _ _ _ origins rests
  obtain ⟨-, same⟩ :=
    @Topology.KeepsAnswers.runs .exact _ _ _ _ _ _ _ _ _ keeps simplified ran ranAgain
  have differ := same d (by simp [links])
  have known : (State.mk all [] hops 5).variants.map standing = _ :=
    (congrArg _ (List.append_nil all)).trans stand
  have missed : (State.mk [origin, w] [] [hop] 3).variants.map standing =
      [("a", .bool true), ("b", w.condition)] := by
    simp [State.variants, standing, origin, here]
  have nothing : predicateOf [("a", .bool true), ("b", w.condition)] d.name = .bool false := rfl
  rw [predicate_standing, predicate_standing, known, missed, nothing] at differ
  exact absurd differ (by decide)

/-! Sums may be rounded. Then what comes over the second link may say the same of a route as what
comes over the first one, so that nothing is overtaken, and yet say something else after further
sums. -/

def shift (op : Shift) (amount : Int) : Statement :=
  .assign none .localPreference (.adjust none op amount)

def shiftDocument (tag amount : String) (i : Int) : Json :=
  assignment "SetLocalPreference" "localPreference" (.obj [("class", .str tag), (amount, .int i)])

/-- The largest local preference from which on sums are rounded. -/
def most : Int := 9007199254740991

/-- Adds the bound and one to the local preference. -/
def raising (last : Statement) : Policy := ⟨"P", [shift .increment most, shift .increment 1, last]⟩

/-- Sets the local preference to the bound and three. -/
def setting : Policy :=
  ⟨"Q", [.assign none .localPreference (.lit none (.int most)), shift .increment 3,
    .finish none .accept]⟩

/-- Adds one, takes back the bound and compares the rest. -/
def lowering : Policy :=
  ⟨"R", [shift .increment 1, shift .decrement most,
    .branch none (.compare none .gt (.ref .localPreference) (.ref .metric)) [.finish none .accept]
      [.finish none .reject] .absent]⟩

def shiftsDocument : Json :=
  linksDocument
    [shiftDocument "IncrementLocalPreference" "addend" most,
      shiftDocument "IncrementLocalPreference" "addend" 1, forkDocument]
    [assignment "SetLocalPreference" "localPreference"
        (.obj [("class", .str "LiteralLong"), ("value", .int most)]),
      shiftDocument "IncrementLocalPreference" "addend" 3, ending "ExitAccept"]
    [shiftDocument "IncrementLocalPreference" "addend" 1,
      shiftDocument "DecrementLocalPreference" "subtrahend" most,
      branching (.obj [("class", .str "IntComparison"), ("comparator", .str "GT"),
        ("left", ref "localPreference"), ("right", ref "metric")])]

def bare : Query := ⟨"10.0.0.0/8", some "d", none, none, []⟩

/-- The route whose local preference is two and whose metric is three. -/
def low : Route := { RaisingPeer.route with localPreference := 2, metric := 3 }

/-- The rest of the local preference is above the metric. -/
def above : Expr := .compare none .gt (.adjust none .increment 1) (.ref .metric)

/-- The originated record with another local preference. -/
def preferring (e : Expr) : Record :=
  ⟨RaisingPeer.origin.record.slots.map fun (name, own) =>
    (name, if name = .localPreference then e else own)⟩

def raised : Expr := .adjust none .increment 9007199254740992

def stated : Expr := .lit none (.int 9007199254740994)

theorem shifts_sends : ∃ w x y,
    @emissions .binary64 (links (raising fork) setting lowering) .default RaisingPeer.origin =
      .ok [.arrival w, .arrival x, .arrival y] ∧
    standing w = ("b", positive .tag) ∧ standing x = ("b", .not none (positive .tag)) ∧
    standing y = ("b", .bool true) ∧
    w.record = preferring raised ∧ x.record = preferring raised ∧ y.record = preferring stated :=
  ⟨_, _, _, by with_unfolding_all rfl, by with_unfolding_all rfl, by with_unfolding_all rfl,
    by with_unfolding_all rfl, by with_unfolding_all rfl, by with_unfolding_all rfl,
    by with_unfolding_all rfl⟩

/-- After simplification both links bring one variant, under the same condition. -/
theorem merged_sends : ∃ w x,
    @crossings .binary64 (links (raising (.finish none .accept)) setting lowering) 1024
      RaisingPeer.origin first = .ok [.arrival w] ∧
    @crossings .binary64 (links (raising (.finish none .accept)) setting lowering) 1024
      RaisingPeer.origin second = .ok [.arrival x] ∧
    standing w = ("b", .bool true) ∧ standing x = ("b", .bool true) ∧
    w.record = preferring raised ∧ x.record = preferring stated :=
  ⟨_, _, by with_unfolding_all rfl, by with_unfolding_all rfl, by with_unfolding_all rfl,
    by with_unfolding_all rfl, by with_unfolding_all rfl, by with_unfolding_all rfl⟩

theorem lowers_raised {p q : Policy} {w : Variant} {c : Expr} (here : standing w = ("b", c))
    (known : c = .bool true ∨ c = positive .tag ∨ c = .not none (positive .tag))
    (record : w.record = preferring raised) : ∃ z hop,
    @crossings .binary64 (links p q lowering) 1024 w onward = .ok [.arrival z, .refused hop] ∧
      standing z = ("d", (Expr.all [c, above]).simplify) := by
  obtain ⟨node, condition, r, hops⟩ := w
  cases here
  subst record
  rcases known with rfl | rfl | rfl
  · exact ⟨_, _, by with_unfolding_all rfl, by with_unfolding_all rfl⟩
  · exact ⟨_, _, by with_unfolding_all rfl, by with_unfolding_all rfl⟩
  · exact ⟨_, _, by with_unfolding_all rfl, by with_unfolding_all rfl⟩

theorem lowers_stated {p q : Policy} {y : Variant} (here : standing y = ("b", .bool true))
    (record : y.record = preferring stated) : ∃ z hop,
    @crossings .binary64 (links p q lowering) 1024 y onward = .ok [.arrival z, .refused hop] ∧
      standing z = ("d", .compare none .gt (.lit none (.int 5)) (.ref .metric)) := by
  obtain ⟨node, condition, r, hops⟩ := y
  cases here
  subst record
  exact ⟨_, _, by with_unfolding_all rfl, by with_unfolding_all rfl⟩

theorem shifts_flows : ∃ all hops,
    @Flows .binary64 (links (raising fork) setting lowering) .default [RaisingPeer.origin] all hops
      5 ∧
    all.map standing = [("a", .bool true), ("b", positive .tag), ("b", .not none (positive .tag)),
      ("b", .bool true), ("d", .junction none .all [positive .tag, above]),
      ("d", .junction none .all [.not none (positive .tag), above]),
      ("d", .compare none .gt (.lit none (.int 5)) (.ref .metric))] := by
  obtain ⟨w, x, y, emits, standW, standX, standY, ofW, ofX, ofY⟩ := shifts_sends
  have nodes : w.node = "b" ∧ x.node = "b" ∧ y.node = "b" :=
    ⟨congrArg Prod.fst standW, congrArg Prod.fst standX, congrArg Prod.fst standY⟩
  obtain ⟨z₁, hop₁, sends₁, stand₁⟩ := @lowers_raised (raising fork) setting _ _ standW
    (.inr (.inl rfl)) ofW
  obtain ⟨z₂, hop₂, sends₂, stand₂⟩ := @lowers_raised (raising fork) setting _ _ standX
    (.inr (.inr rfl)) ofX
  obtain ⟨z₃, hop₃, sends₃, stand₃⟩ := @lowers_stated (raising fork) setting _ standY ofY
  have quiet : ∀ v ∈ [z₁, z₂, z₃],
      edgesFrom (links (raising fork) setting lowering) v.node = [] := by
    have there₁ : z₁.node = "d" := congrArg Prod.fst stand₁
    have there₂ : z₂.node = "d" := congrArg Prod.fst stand₂
    have there₃ : z₃.node = "d" := congrArg Prod.fst stand₃
    simp only [List.forall_mem_cons, there₁, there₂, there₃]
    exact ⟨rfl, rfl, rfl, nofun⟩
  have fromY := @Flows.send .binary64 _ _ _ [z₁, z₂] _ _ _ _
    (@emissions_onward .binary64 _ _ _ _ _ nodes.2.2 sends₃) (@Flows.quiet .binary64 _ _ _ quiet)
  have fromX := @Flows.send .binary64 _ _ _ [y, z₁] _ _ _ _
    (@emissions_onward .binary64 _ _ _ _ _ nodes.2.1 sends₂) fromY
  have fromW := @Flows.send .binary64 _ _ _ [x, y] _ _ _ _
    (@emissions_onward .binary64 _ _ _ _ _ nodes.1 sends₁) fromX
  have flows := @Flows.send .binary64 _ _ _ [] _ _ _ _ emits fromW
  rw [nodes.1, nodes.2.1, nodes.2.2] at flows
  refine ⟨[RaisingPeer.origin, w, x, y, z₁, z₂, z₃], _, flows, ?_⟩
  simp only [List.map_cons, standW, standX, standY, stand₁, stand₂, stand₃]
  rfl

/-- What arrives anywhere, when both links bring a variant of which `b` keeps the first one. -/
theorem arrives_cases [Arithmetic] {p q r : Policy} {v w x z u : Variant} {hop : Hop} {state : State}
    (home : v.node = "a") (here : w.node = "b") (there : z.node = "d")
    (sent : crossings (links p q r) 1024 v first = .ok [.arrival w])
    (sentAgain : crossings (links p q r) 1024 v second = .ok [.arrival x])
    (onwards : crossings (links p q r) 1024 w onward = .ok [.arrival z, .refused hop])
    (kept : state.variants = [v, w, z])
    (arrives : Arrives (links p q r) .default [v] state u) : u ∈ [v, w, x, z] := by
  have fromA : edgesFrom (links p q r) v.node = [first, second] := by
    rw [home]
    rfl
  have fromB : edgesFrom (links p q r) w.node = [onward] := by
    rw [here]
    rfl
  have fromD : edgesFrom (links p q r) z.node = [] := by
    rw [there]
    rfl
  rcases arrives with origin | ⟨y, member, edge, leaves, cs, crossed, arrived⟩
  · rw [List.mem_singleton] at origin
    simp [origin]
  · rw [show Limits.default.paths = 1024 from rfl] at crossed
    rw [kept] at member
    simp only [List.mem_cons, List.not_mem_nil, or_false] at member
    rcases member with rfl | rfl | rfl
    · rw [fromA, List.mem_cons, List.mem_singleton] at leaves
      rcases leaves with rfl | rfl
      · rw [sent] at crossed
        cases crossed
        cases List.mem_singleton.mp arrived
        simp
      · rw [sentAgain] at crossed
        cases crossed
        cases List.mem_singleton.mp arrived
        simp
    · rw [fromB, List.mem_singleton] at leaves
      subst leaves
      rw [onwards] at crossed
      cases crossed
      have last : u = z := by simpa using arrived
      simp [last]
    · rw [fromD] at leaves
      cases leaves

/-- After simplification nothing is overtaken: of the route, what is dropped says the same as what is
kept. -/
theorem merged_runs : ∃ w z hop,
    @Topology.Propagates .binary64 (links (raising (.finish none .accept)) setting lowering) .default
      bare [RaisingPeer.origin] ⟨[RaisingPeer.origin, w, z], [], [hop], 3⟩ ∧
    [RaisingPeer.origin, w, z].map standing =
      [("a", .bool true), ("b", .bool true), ("d", above)] ∧
    ∀ node, @Topology.ClearAt .binary64 (links (raising (.finish none .accept)) setting lowering)
      .default bare low node := by
  obtain ⟨w, x, sent, sentAgain, standW, standX, ofW, ofX⟩ := merged_sends
  obtain ⟨z, hop, onwards, standZ⟩ := @lowers_raised (raising (.finish none .accept)) setting _ _
    standW (.inl rfl) ofW
  have here : w.node = "b" := congrArg Prod.fst standW
  have there : x.node = "b" := congrArg Prod.fst standX
  have last : z.node = "d" := congrArg Prod.fst standZ
  have same : w.condition = x.condition :=
    (congrArg Prod.snd standW).trans (congrArg Prod.snd standX).symm
  have only : ∀ y ∈ arrivals [.arrival z, .refused hop], y.node = "d" := by
    simpa [arrivals] using last
  have rests := @settle_links .binary64 _ _ _ _ _ _ _ _ _ rfl here there same sent rfl sentAgain rfl
    onwards only (List.pairwise_singleton _ _)
  have ran := @Topology.Propagates.mk .binary64 _ _ bare _ _
    (show bare.origins (links (raising (.finish none .accept)) setting lowering) =
      .ok [RaisingPeer.origin] by with_unfolding_all rfl) rests
  refine ⟨w, z, hop, ran, ?_, @Topology.Propagates.clearAt .binary64 _ _ _ _ _ ran _ ?_⟩
  · simp only [List.map_cons, standW, standZ]
    rfl
  · intro u arrives r describes
    have cases := @arrives_cases .binary64 _ _ _ _ _ x _ _ _ _ rfl here last sent sentAgain onwards
      rfl arrives
    simp only [List.mem_cons, List.not_mem_nil, or_false] at cases
    rcases cases with rfl | rfl | rfl | rfl
    · exact ⟨_, by simp [State.variants], rfl, describes⟩
    · exact ⟨_, by simp [State.variants], rfl, describes⟩
    · refine ⟨w, by simp [State.variants], here.trans there.symm, ?_, ?_⟩
      · rw [same]
        exact describes.holds
      · have comes := describes.comes
        rw [ofX] at comes
        rw [ofW]
        exact comes.congr (by with_unfolding_all rfl)
    · exact ⟨_, by simp [State.variants, arrivals], rfl, describes⟩

theorem shifts_simplify : (links (raising fork) setting lowering).simplify =
    .ok (links (raising (.finish none .accept)) setting lowering) := by with_unfolding_all rfl

theorem rounded_not_keepsAnswers :
    @Topology.StaysClear .binary64 (links (raising fork) setting lowering) bare low ∧
      ¬@Topology.KeepsAnswers .binary64 (links (raising fork) setting lowering) bare low := by
  obtain ⟨all, hops, flows, stand⟩ := shifts_flows
  obtain ⟨ran, clear⟩ := @Topology.undisturbed .binary64 _ _ bare _ _ _ _ _
    (by with_unfolding_all rfl) flows (by decide) stand (by decide) (by decide)
  obtain ⟨w, z, hop, ranAgain, standAgain, clearToo⟩ := merged_runs
  constructor
  · intro u node simplified
    rw [shifts_simplify] at simplified
    cases simplified
    exact ⟨clear low node, clearToo node⟩
  · intro keeps
    obtain ⟨-, same⟩ :=
      @Topology.KeepsAnswers.runs .binary64 _ _ _ _ _ _ _ _ _ keeps shifts_simplify ran ranAgain
    have differ := same d (by simp [links])
    have known : (State.mk all [] hops 5).variants.map standing = _ :=
      (congrArg _ (List.append_nil all)).trans stand
    have merged : (State.mk [RaisingPeer.origin, w, z] [] [hop] 3).variants.map standing = _ :=
      standAgain
    rw [predicate_standing, predicate_standing, known, merged] at differ
    exact absurd differ (by decide)

/-! Whether an answer is accepted depends on what the witness is written as. Where two nodes have
opposite conditions, that is only seen if the conditions have not been forked. -/

def aside : Edge := ⟨⟨"a", "f"⟩, ⟨"d", "g"⟩⟩

/-- The same nodes, the second link leading to `d`. -/
def fan (p q : Policy) : Topology :=
  ⟨[⟨"a", none, ["10.0.0.0/8"], [("e", ⟨[], ["P"]⟩), ("f", ⟨[], ["Q"]⟩)], [("P", p), ("Q", q)],
      false⟩,
    ⟨"b", none, [], [("e", ⟨[], []⟩)], [], false⟩, d], [first, aside]⟩

def fanDocument (p q : List Json) : Json :=
  .obj [("version", .nat 1),
    ("nodes", .obj [
      ("a", node ["10.0.0.0/8"] [("e", [policyDocument "P" p]), ("f", [policyDocument "Q" q])]),
      ("b", node [] [("e", [])]), ("d", node [] [("g", [])])]),
    ("edges", .arr [.arr [.strs ["a", "e"], .strs ["b", "e"]],
      .arr [.strs ["a", "f"], .strs ["d", "g"]]])]

/-- Accepts routes with a metric above zero. -/
def metered : Statement :=
  .branch none (positive .metric) [.finish none .accept] [.finish none .reject] .absent

def meteredDocument : Json := branching (positiveDocument "metric")

/-- The same after a question for the tag. -/
def divided : Policy := ⟨"P", [.branch none (positive .tag) [metered] [metered] .absent]⟩

def undivided : Policy := ⟨"P", [metered]⟩

def opposite : Policy :=
  ⟨"Q", [.branch none (positive .metric) [.finish none .reject] [.finish none .accept] .absent]⟩

def opposed : Json :=
  fanDocument [splitDocument (positiveDocument "tag") [meteredDocument] [meteredDocument]]
    [splitDocument (positiveDocument "metric") [ending "ExitReject"] [ending "ExitAccept"]]

def anywhere : Query := ⟨"10.0.0.0/8", none, none, none, []⟩

theorem divided_emits : ∃ cs,
    @emissions .exact (fan divided opposite) .default RaisingPeer.origin = .ok cs ∧
    (arrivals cs).map standing =
      [("b", .junction none .all [positive .tag, positive .metric]),
        ("b", .junction none .all [.not none (positive .tag), positive .metric]),
        ("d", .not none (positive .metric))] :=
  ⟨_, by with_unfolding_all rfl, by with_unfolding_all rfl⟩

theorem undivided_emits : ∃ cs,
    @emissions .exact (fan undivided opposite) .default RaisingPeer.origin = .ok cs ∧
    (arrivals cs).map standing = [("b", positive .metric), ("d", .not none (positive .metric))] :=
  ⟨_, by with_unfolding_all rfl, by with_unfolding_all rfl⟩

theorem fan_simplify : (fan divided opposite).simplify = .ok (fan undivided opposite) := by
  with_unfolding_all rfl

theorem opposite_not_keepsAnswers (route : Route) :
    @Topology.StaysClear .exact (fan divided opposite) anywhere route ∧
      ¬@Topology.KeepsAnswers .exact (fan divided opposite) anywhere route := by
  obtain ⟨cs, emits, stand⟩ := divided_emits
  obtain ⟨ran, clear⟩ := @Topology.undisturbed_single .exact _ _ anywhere _ _ _
    (by with_unfolding_all rfl) emits stand (by decide) (by decide) (by decide) (by decide)
  obtain ⟨cs', emitsAgain, standAgain⟩ := undivided_emits
  obtain ⟨ranAgain, clearToo⟩ := @Topology.undisturbed_single .exact _ _ anywhere _ _ _
    (by with_unfolding_all rfl) emitsAgain standAgain (by decide) (by decide) (by decide) (by decide)
  constructor
  · intro u node simplified
    rw [fan_simplify] at simplified
    cases simplified
    exact ⟨clear route node, clearToo route node⟩
  · intro keeps
    obtain ⟨accepted, -⟩ :=
      @Topology.KeepsAnswers.runs .exact _ _ _ _ _ _ _ _ _ keeps fan_simplify ran ranAgain
    have known : (State.mk (RaisingPeer.origin :: arrivals cs) [] (refusals cs) 2).variants.map
        standing = standing RaisingPeer.origin :: _ :=
      (congrArg _ (List.append_nil _)).trans (congrArg _ stand)
    have knownAgain : (State.mk (RaisingPeer.origin :: arrivals cs') [] (refusals cs')
        2).variants.map standing = standing RaisingPeer.origin :: _ :=
      (congrArg _ (List.append_nil _)).trans (congrArg _ standAgain)
    have edges : (edgesFrom (fan divided opposite) RaisingPeer.origin.node).length = 2 ∧
        (edgesFrom (fan undivided opposite) RaisingPeer.origin.node).length = 2 := ⟨rfl, rfl⟩
    rw [edges.1, edges.2, accepted_standing, accepted_standing, known, knownAgain] at accepted
    exact absurd accepted (by decide)

end TwoLinks

end RoutePolicy
