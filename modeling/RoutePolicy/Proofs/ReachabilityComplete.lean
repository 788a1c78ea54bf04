import RoutePolicy.Proofs.ReachabilitySound
import RoutePolicy.Proofs.Undisturbed

/-!
Completeness of reachability. A node keeps one variant a condition, so a route that walks to a node
is missed only if on its way another record has taken its place under the same condition.
-/

set_option autoImplicit false

namespace RoutePolicy

namespace RaisingPeer

/-- The values of `route` as `a` starts with them. -/
def start : Record := route.overridden [.network "10.0.0.0/8"]

/-- What `a` starts with is not overtaken at `a`. -/
theorem not_overtaken [Arithmetic] {p : Policy} {ws : List Variant} {hops : List Hop}
    (ran : (topology p).Propagates .default (query none) [origin] ⟨origin :: ws, [], hops, 1⟩) :
    ¬(topology p).Overtaken .default (query none) route "a" start := by
  rintro ⟨others, s, other, _, nothing⟩
  obtain ⟨rfl, rfl⟩ := ran.unique other
  have describes : origin.Describes route start := by
    refine ⟨rfl, ?_⟩
    have given : Record.ofGiven [.network "10.0.0.0/8"] true = .ok origin.record := by
      with_unfolding_all rfl
    exact (Record.ofGiven_ok given).2 route
  exact nothing origin List.mem_cons_self rfl describes

/-- Only the origin and what it sends arrive. -/
theorem arrives_cases [Arithmetic] {p : Policy} {w x : Variant} {hop : Hop} {hops : List Hop}
    (there : w.node = "b")
    (sent : Propagation.crossings (topology p) 1024 origin edge = .ok [.arrival w, .refused hop])
    (ran : (topology p).Propagates .default (query none) [origin] ⟨[origin, w], [], hops, 1⟩)
    (arrives : (topology p).Arrives .default (query none) x) : x = origin ∨ x = w := by
  obtain ⟨others, s, other, arrives⟩ := arrives
  obtain ⟨rfl, rfl⟩ := ran.unique other
  rcases arrives with first | ⟨v, member, found, leaves, cs, crossed, arrived⟩
  · exact .inl (List.mem_singleton.mp first)
  · have either : v = origin ∨ v = w := by simpa [Propagation.State.variants] using member
    rcases either with rfl | rfl
    · cases List.mem_singleton.mp (show found ∈ [edge] from leaves)
      rw [show Limits.default.paths = 1024 from rfl, sent] at crossed
      cases crossed
      exact .inr (by simpa using arrived)
    · rw [there] at leaves
      cases leaves

/-- What `a` announces crosses the edge. -/
theorem crosses : ∃ last, @Topology.Crosses .exact (topology policy) Execution.defaultLimit edge
    start last :=
  ⟨_, _, _, by with_unfolding_all rfl, by with_unfolding_all rfl, by with_unfolding_all rfl,
    by with_unfolding_all rfl, rfl⟩

end RaisingPeer

/-- Completeness for all walks, where sums are whatever they are, and where the route of an owner
takes every attribute that the query gives, the network included. -/
def Topology.LiterallyComplete [Arithmetic] (t : Topology) (q : Query) : Prop :=
  ∀ (limits : Limits) (answer : Answer) (target : Network) (node : String) (e : Expr)
    (route : Route), t.ask limits q = .ok answer → q.network = .ok target →
    (node, e) ∈ answer.predicates → route.network = target.text →
    ∀ n ∈ t.nodes, ∀ start last,
      ((n.external = true ∧ start = route.record) ∨
        (n.external = false ∧ Query.owns n target = true ∧
          start = route.overridden (q.route.getD []))) →
      t.Walk Execution.defaultLimit n.name start node last → e.holdsAt route = true

namespace RaisingPeer

/-- The policy of `a`, but it announces only routes whose last value is not above the copy. -/
def lowering : Policy :=
  ⟨"P", [raised, .assign none .metric (.ref .localPreference), raised, raised,
    .branch none (.compare none .le (.ref .localPreference) (.ref .metric))
      [.finish none .accept] [.finish none .reject] .absent]⟩

def loweringDocument : Json :=
  .obj [("name", .str "P"), ("statements", .arr [
    assignment "SetLocalPreference" "localPreference" raise,
    assignment "SetMetric" "metric" (ref "localPreference"),
    assignment "SetLocalPreference" "localPreference" raise,
    assignment "SetLocalPreference" "localPreference" raise,
    branching (.obj [("class", .str "IntComparison"), ("comparator", .str "LE"),
      ("left", ref "localPreference"), ("right", ref "metric")])])]

/-- A policy that announces only routes into the network that is not the destination. -/
def outside : Policy :=
  ⟨"P", [.branch none (.inRanges none (.ref .network) ["192.168.0.0/16"] none) [.finish none .accept]
    [.finish none .reject] .absent]⟩

def outsideDocument : Json :=
  .obj [("name", .str "P"), ("statements", .arr [
    branching (.obj [("class", .str "MatchPrefixSet"), ("prefix", ref "prefix"),
      ("prefixSet", .obj [("class", .str "ExplicitPrefixSet"),
        ("prefixSpace", .strs ["192.168.0.0/16"])])])])]

/-- If the chain of `a` accepts what the query literally makes of a route, then a condition of `b`
that is false of this route is not complete. -/
theorem not_literallyComplete [Arithmetic] {p : Policy} {q : Query} {answer : Answer} {e : Expr}
    (asked : (topology p).ask .default q = .ok answer) (found : q.network = .ok ⟨167772160, 8⟩)
    (reported : ("b", e) ∈ answer.predicates) (fails : e.holdsAt route = false)
    (crosses : ∃ last, (topology p).Crosses Execution.defaultLimit edge
      (route.overridden (q.route.getD [])) last) : ¬(topology p).LiterallyComplete q := by
  intro complete
  obtain ⟨last, crosses⟩ := crosses
  have walk : (topology p).Walk Execution.defaultLimit "a" (route.overridden (q.route.getD [])) "b"
      last := .hop .here List.mem_cons_self rfl crosses
  have holds := complete .default answer _ "b" e route asked found reported rfl (sender p)
    List.mem_cons_self _ last (.inr ⟨rfl, by rfl, rfl⟩) walk
  rw [fails] at holds
  cases holds

theorem rounded_not_literallyComplete :
    ¬@Topology.LiterallyComplete .binary64 (topology lowering) (query none) := by
  have sends : ∃ w hop, @Propagation.crossings .binary64 (topology lowering) 1024 origin edge =
      .ok [.arrival w, .refused hop] ∧ w.node = "b" ∧
        ((Expr.any [w.condition]).simplify).holdsAt route = false :=
    ⟨_, _, by with_unfolding_all rfl, by with_unfolding_all rfl, by with_unfolding_all rfl⟩
  obtain ⟨w, hop, sent, there, fails⟩ := sends
  have only : ∀ x ∈ [w], x.node = "b" := by simpa using there
  have origins : (query none).origins (topology lowering) = .ok [origin] := by with_unfolding_all rfl
  have rests := @settled .binary64 _ _ _ _ _ rfl only sent (gathered there [hop])
  obtain ⟨answer, asked, reported⟩ := @answered .binary64 _ _ _ _ _ origins rests rfl only
  refine @not_literallyComplete .binary64 _ _ _ _ asked rfl reported fails ?_
  exact ⟨_, _, _, by with_unfolding_all rfl, by with_unfolding_all rfl, by with_unfolding_all rfl,
    by with_unfolding_all rfl, rfl⟩

theorem elsewhere_not_literallyComplete :
    ¬@Topology.LiterallyComplete .exact (topology outside) (query (some elsewhere)) := by
  have sends : ∃ hop, @Propagation.crossings .exact (topology outside) 1024 origin edge =
      .ok [.refused hop] := ⟨_, by with_unfolding_all rfl⟩
  obtain ⟨hop, sent⟩ := sends
  have nothing : ∀ x ∈ ([] : List Variant), x.node = "b" := nofun
  have origins : (query (some elsewhere)).origins (topology outside) = .ok [origin] := by
    with_unfolding_all rfl
  have rests := @settled .exact _ _ _ _ _ rfl nothing sent rfl
  obtain ⟨answer, asked, reported⟩ := @answered .exact _ _ _ _ _ origins rests rfl nothing
  refine @not_literallyComplete .exact _ _ _ _ asked rfl reported (by decide) ?_
  exact ⟨_, _, _, by with_unfolding_all rfl, by with_unfolding_all rfl, by with_unfolding_all rfl,
    by with_unfolding_all rfl, rfl⟩

end RaisingPeer

namespace TwoLinks

/-! A node `a` that owns the destination announces it to `b` over two links, over the second one
with another metric. Only with this metric `b` announces it to `d`; but `b` keeps only what came over
the first link, since both arrive under the condition true. -/

open RaisingPeer (ref ending branching assignment)

def interface (exports : List Json) : Json := .obj [("import", .arr []), ("export", .arr exports)]

def node (networks : List String) (interfaces : List (String × List Json)) : Json :=
  .obj [("prefixes", .strs networks),
    ("interfaces", .obj (interfaces.map fun (name, exports) => (name, interface exports)))]

def policyDocument (name : String) (statements : List Json) : Json :=
  .obj [("name", .str name), ("statements", .arr statements)]

def five : Json := .obj [("class", .str "LiteralLong"), ("value", .int 5)]

def document : Json :=
  .obj [("version", .nat 1),
    ("nodes", .obj [
      ("a", node ["10.0.0.0/8"] [("e", [policyDocument "P" [ending "ExitAccept"]]),
        ("f", [policyDocument "Q" [assignment "SetMetric" "metric" five, ending "ExitAccept"]])]),
      ("b", node [] [("e", []), ("f", []),
        ("g", [policyDocument "R" [branching (.obj [("class", .str "IntComparison"),
          ("comparator", .str "EQ"), ("left", ref "metric"), ("right", five)])]])]),
      ("d", node [] [("g", [])])]),
    ("edges", .arr [.arr [.strs ["a", "e"], .strs ["b", "e"]],
      .arr [.strs ["a", "f"], .strs ["b", "f"]], .arr [.strs ["b", "g"], .strs ["d", "g"]]])]

def plain : Policy := ⟨"P", [.finish none .accept]⟩

def marking : Policy := ⟨"Q", [.assign none .metric (.lit none (.int 5)), .finish none .accept]⟩

def checking : Policy :=
  ⟨"R", [.branch none (.compare none .eq (.ref .metric) (.lit none (.int 5)))
    [.finish none .accept] [.finish none .reject] .absent]⟩

def a : Node :=
  ⟨"a", none, ["10.0.0.0/8"], [("e", ⟨[], ["P"]⟩), ("f", ⟨[], ["Q"]⟩)],
    [("P", plain), ("Q", marking)], false⟩

def b : Node :=
  ⟨"b", none, [], [("e", ⟨[], []⟩), ("f", ⟨[], []⟩), ("g", ⟨[], ["R"]⟩)], [("R", checking)], false⟩

def d : Node := ⟨"d", none, [], [("g", ⟨[], []⟩)], [], false⟩

def first : Edge := ⟨⟨"a", "e"⟩, ⟨"b", "e"⟩⟩

def second : Edge := ⟨⟨"a", "f"⟩, ⟨"b", "f"⟩⟩

def onward : Edge := ⟨⟨"b", "g"⟩, ⟨"d", "g"⟩⟩

def topology : Topology := ⟨[a, b, d], [first, second, onward]⟩

/-- The route that is originated has the metric one. -/
def query : Query := ⟨"10.0.0.0/8", some "d", some [.metric 1], none, []⟩

theorem loaded : topology.Loaded := .inl ⟨false, document, by with_unfolding_all rfl⟩

theorem wellTyped : topology.WellTyped := by
  unfold Topology.WellTyped
  decide

def origin : Variant :=
  ⟨"a", .bool true, ⟨[(.network, .lit none (.network "10.0.0.0/8")), (.nextHop, .ref .nextHop),
    (.communities, .ref .communities), (.localPreference, .ref .localPreference),
    (.metric, .lit none (.int 1)), (.weight, .ref .weight), (.tag, .ref .tag),
    (.asPath, .ref .asPath)]⟩, []⟩

theorem origins : query.origins topology = .ok [origin] := by with_unfolding_all rfl

/-- What arrives over the first link. -/
theorem sends_first : ∃ w, @Propagation.crossings .exact topology 1024 origin first =
    .ok [.arrival w] ∧ w.node = "b" ∧ w.condition = .bool true ∧ w.record = origin.record :=
  ⟨_, by with_unfolding_all rfl, by with_unfolding_all rfl, by with_unfolding_all rfl,
    by with_unfolding_all rfl⟩

/-- What arrives over the second link. -/
theorem sends_second : ∃ w, @Propagation.crossings .exact topology 1024 origin second =
    .ok [.arrival w] ∧ w.node = "b" ∧ w.condition = .bool true :=
  ⟨_, by with_unfolding_all rfl, by with_unfolding_all rfl, by with_unfolding_all rfl⟩

/-- What came over the first link is not announced to `d`. -/
theorem sends_onward {w : Variant} (here : w.node = "b") (condition : w.condition = .bool true)
    (record : w.record = origin.record) : ∃ hop,
    @Propagation.crossings .exact topology 1024 w onward = .ok [.refused hop] := by
  obtain ⟨node, c, r, hops⟩ := w
  subst here condition record
  exact ⟨_, by with_unfolding_all rfl⟩

/-- The same links with any policies. -/
def links (p q r : Policy) : Topology :=
  ⟨[⟨"a", none, ["10.0.0.0/8"], [("e", ⟨[], ["P"]⟩), ("f", ⟨[], ["Q"]⟩)], [("P", p), ("Q", q)],
      false⟩,
    ⟨"b", none, [], [("e", ⟨[], []⟩), ("f", ⟨[], []⟩), ("g", ⟨[], ["R"]⟩)], [("R", r)], false⟩, d],
    [first, second, onward]⟩

/-- What `a` sends over both links. -/
theorem emissions_links [Arithmetic] {p q r : Policy} {v : Variant}
    {ws xs : List Propagation.Crossing} (home : v.node = "a")
    (sent : Propagation.crossings (links p q r) 1024 v first = .ok ws)
    (sentAgain : Propagation.crossings (links p q r) 1024 v second = .ok xs) :
    Propagation.emissions (links p q r) .default v = .ok (ws ++ xs) := by
  have edges : Propagation.edgesFrom (links p q r) v.node = [first, second] := by
    rw [home]
    rfl
  rw [Propagation.emissions, edges, ← List.append_nil xs]
  exact Outcome.bind_ok.mpr ⟨_, sent, Outcome.bind_ok.mpr ⟨_, Outcome.bind_ok.mpr
    ⟨_, sentAgain, rfl⟩, rfl⟩⟩

/-- `b` sends over one edge only. -/
theorem emissions_onward [Arithmetic] {p q r : Policy} {w : Variant}
    {cs : List Propagation.Crossing} (here : w.node = "b")
    (crossed : Propagation.crossings (links p q r) 1024 w onward = .ok cs) :
    Propagation.emissions (links p q r) .default w = .ok cs := by
  have edges : Propagation.edgesFrom (links p q r) w.node = [onward] := by
    rw [here]
    rfl
  rw [Propagation.emissions, edges, ← List.append_nil cs]
  exact Outcome.bind_ok.mpr ⟨cs, crossed, rfl⟩

/-- If both links bring a variant under the same condition, `b` keeps the first one. -/
theorem settle_links [Arithmetic] {p q r : Policy} {v w x : Variant}
    {ws xs cs : List Propagation.Crossing} (home : v.node = "a") (here : w.node = "b")
    (there : x.node = "b") (same : w.condition = x.condition)
    (sent : Propagation.crossings (links p q r) 1024 v first = .ok ws)
    (brings : Propagation.arrivals ws = [w])
    (sentAgain : Propagation.crossings (links p q r) 1024 v second = .ok xs)
    (bringsAgain : Propagation.arrivals xs = [x])
    (onwards : Propagation.crossings (links p q r) 1024 w onward = .ok cs)
    (last : ∀ y ∈ Propagation.arrivals cs, y.node = "d")
    (apart : Propagation.Apart (Propagation.arrivals cs)) :
    Propagation.settle (links p q r) .default (Propagation.start [v]) =
      .ok ⟨v :: w :: Propagation.arrivals cs, [],
        Propagation.refusals ws ++ Propagation.refusals xs ++ Propagation.refusals cs, 3⟩ := by
  have fromA : Propagation.edgesFrom (links p q r) v.node = [first, second] := by rw [home]; rfl
  have fromB : Propagation.edgesFrom (links p q r) w.node = [onward] := by rw [here]; rfl
  have emits := emissions_links home sent sentAgain
  -- `b` takes the first variant and knows the condition of the second one
  have merged : (ws ++ xs).foldl Propagation.State.record ⟨[v], [], [], 2⟩ =
      ⟨[v], [w], Propagation.refusals ws ++ Propagation.refusals xs, 2⟩ := by
    have new : Propagation.Apart
        ((⟨[v], [], [], 2⟩ : Propagation.State).variants ++ Propagation.arrivals ws) := by
      simp [Propagation.Apart, Propagation.State.variants, brings, home, here]
    rw [List.foldl_append, Propagation.State.records_apart new, brings]
    apply Propagation.State.records_known
    rw [bringsAgain, List.forall_mem_singleton]
    exact ⟨w, by simp [Propagation.State.variants], here.trans there.symm,
      congrArg Variant.conditionKey same⟩
  have turn : Propagation.settle (links p q r) .default ⟨[], [v], [], 0⟩ =
      Propagation.settle (links p q r) .default
        ⟨[v], [w], Propagation.refusals ws ++ Propagation.refusals xs, 2⟩ := by
    rw [Propagation.settle_of_emissions emits (by rw [fromA]; decide), fromA]
    exact congrArg _ merged
  have flows : Propagation.Flows (links p q r) .default [w] (w :: Propagation.arrivals cs)
      (Propagation.refusals cs) 1 := by
    have further : Propagation.Flows (links p q r) .default (Propagation.arrivals cs)
        (Propagation.arrivals cs) [] 0 := .quiet fun y member => by rw [last y member]; rfl
    have sends : Propagation.Flows (links p q r) .default [w] (w :: Propagation.arrivals cs)
        (Propagation.refusals cs ++ []) ((Propagation.edgesFrom (links p q r) w.node).length + 0) :=
      .send (emissions_onward here onwards) further
    simpa [fromB] using sends
  have all : Propagation.Apart (v :: w :: Propagation.arrivals cs) := by
    refine .cons (List.forall_mem_cons.mpr ⟨?_, fun y member => ?_⟩)
      (.cons (fun y member => ?_) apart)
    · simp [home, here]
    · simp [home, last y member]
    · simp [here, last y member]
  exact turn.trans (flows.settle [v] _ 2 all (by decide))

/-- Propagation rests with one variant at `b` and none at `d`. -/
theorem settled : ∃ w hop, @Propagation.settle .exact topology .default
    (Propagation.start [origin]) = .ok ⟨[origin, w], [], [hop], 3⟩ ∧ w.node = "b" := by
  obtain ⟨w, sent, here, condition, record⟩ := sends_first
  obtain ⟨x, sentAgain, there, again⟩ := sends_second
  obtain ⟨hop, refused⟩ := sends_onward here condition record
  have same : w.condition = x.condition := condition.trans again.symm
  exact ⟨w, hop, @settle_links .exact plain marking checking _ _ _ _ _ _ rfl here there same sent rfl
    sentAgain rfl refused (List.forall_mem_nil _) .nil, here⟩

/-- Yet what comes over the second link is announced to `d`. -/
theorem crosses : ∃ mid last,
    @Topology.Crosses .exact topology Execution.defaultLimit second
      (RaisingPeer.route.overridden [.metric 1]) mid ∧
    @Topology.Crosses .exact topology Execution.defaultLimit onward mid last :=
  ⟨_, _, ⟨_, _, by with_unfolding_all rfl, by with_unfolding_all rfl, by with_unfolding_all rfl,
      by with_unfolding_all rfl, rfl⟩,
    _, _, by with_unfolding_all rfl, by with_unfolding_all rfl, by with_unfolding_all rfl,
    by with_unfolding_all rfl, rfl⟩

theorem not_literallyComplete : ¬@Topology.LiterallyComplete .exact topology query := by
  intro complete
  obtain ⟨w, hop, rests, here⟩ := settled
  have asked : @Topology.ask .exact topology .default query =
      .ok (Propagation.answer topology query ⟨[origin, w], [], [hop], 3⟩) :=
    Outcome.bind_ok.mpr ⟨_, origins, Outcome.bind_ok.mpr ⟨_, rests, rfl⟩⟩
  have missed : Propagation.predicate ⟨[origin, w], [], [hop], 3⟩ "d" = .bool false := by
    have nothing : Propagation.reached ⟨[origin, w], [], [hop], 3⟩ "d" = [] := by
      simp [Propagation.reached, Propagation.State.variants, origin, here]
    rw [Propagation.predicate, nothing]
    rfl
  have reported : ("d", Expr.bool false) ∈
      (Propagation.answer topology query ⟨[origin, w], [], [hop], 3⟩).predicates := by
    rw [← missed]
    exact List.mem_map.mpr ⟨d, by simp [topology], rfl⟩
  obtain ⟨mid, last, overSecond, onwards⟩ := crosses
  have toB := @Topology.Walk.hop .exact topology Execution.defaultLimit "a" _ _ _ mid second
    (@Topology.Walk.here .exact _ _ _ _) (by simp [topology]) rfl overSecond
  have toD := @Topology.Walk.hop .exact topology Execution.defaultLimit "a" _ _ mid last onward
    toB (by simp [topology]) rfl onwards
  have holds := complete .default _ ⟨167772160, 8⟩ "d" _ RaisingPeer.route asked rfl reported rfl a
    List.mem_cons_self _ _ (.inr ⟨rfl, by decide, rfl⟩) toD
  exact absurd holds (by decide)

end TwoLinks

end RoutePolicy
