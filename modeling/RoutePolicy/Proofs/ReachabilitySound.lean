import RoutePolicy.Proofs.Drafting
import RoutePolicy.Proofs.Reachability

/-!
Reachability of nodes in topologies of documents and of analysis tables. With exact sums a node is
reached by every route that its condition is true of; rounded sums of large local preferences can
tell a shift of the incoming value from shifts one after another.
-/

set_option autoImplicit false

namespace RoutePolicy

/-- A topology of a condensed document or of analysis tables. -/
def Topology.Loaded (t : Topology) : Prop :=
  (∃ keep j, Topology.ofJson keep j = .ok t) ∨ ∃ keep raw, (Topology.ofTables keep raw).1 = .ok t

/-- No policy of a topology has a type error. -/
def Topology.WellTyped (t : Topology) : Prop :=
  ∀ n ∈ t.nodes, ∀ p ∈ n.policies.values, p.wellTyped = true

/-- Policies have what all expressions that are read have, if written out definitions keep it. -/
theorem Topology.Loaded.each {Q R : Expr → Prop} {t : Topology} (loaded : t.Loaded)
    (writable : Expr.Writable Q R)
    (reads : ∀ keep j e, Encoding.readExpr keep j = .ok e → e.Each Q) :
    ∀ n ∈ t.nodes,
      n.policies.All fun p => Statement.EveryAll (fun _ e => e.Each Q) p.statements := by
  rcases loaded with ⟨keep, j, read⟩ | ⟨keep, raw, drafted⟩
  · exact each_of_ofJson (reads keep) read
  · exact each_of_ofTables writable (reads keep) drafted

theorem Topology.Loaded.foldable {t : Topology} (loaded : t.Loaded) : t.Foldable :=
  loaded.each Expr.foldable_writable fun _ _ _ => Encoding.readExpr_foldable

theorem Topology.usable_of_loaded {t : Topology} (loaded : t.Loaded) (typed : t.WellTyped) :
    t.Usable := by
  intro n listed name p found
  have member := Table.mem_of_get? found
  exact (loaded.foldable n listed _ member).usable
    (typed n listed p (List.mem_map_of_mem member))

namespace RaisingPeer

/-! A node `a` that owns the destination raises the local preference three times, keeps a copy of
the first raised value, and announces only routes whose last value is above the copy. -/

def raise : Json := .obj [("class", .str "IncrementLocalPreference"), ("addend", .int 1)]

def ref (word : String) : Json := .obj [("class", .str "RouteAttribute"), ("attribute", .str word)]

def assignment (tag key : String) (value : Json) : Json := .obj [("class", .str tag), (key, value)]

def ending (word : String) : Json := .obj [("class", .str "StaticStatement"), ("type", .str word)]

def branching (guard : Json) : Json :=
  .obj [("class", .str "If"), ("guard", guard), ("trueStatements", .arr [ending "ExitAccept"]),
    ("falseStatements", .arr [ending "ExitReject"])]

def policyDocument : Json :=
  .obj [("name", .str "P"), ("statements", .arr [
    assignment "SetLocalPreference" "localPreference" raise,
    assignment "SetMetric" "metric" (ref "localPreference"),
    assignment "SetLocalPreference" "localPreference" raise,
    assignment "SetLocalPreference" "localPreference" raise,
    branching (.obj [("class", .str "IntComparison"), ("comparator", .str "GT"),
      ("left", ref "localPreference"), ("right", ref "metric")])])]

def node (networks : List String) (exports : List Json) : Json :=
  .obj [("prefixes", .strs networks),
    ("interfaces", .obj [("e", .obj [("import", .arr []), ("export", .arr exports)])])]

/-- Two nodes and an edge from `a` to `b`, where `a` has an export policy. -/
def document (policy : Json) : Json :=
  .obj [("version", .nat 1),
    ("nodes", .obj [("a", node ["10.0.0.0/8"] [policy]), ("b", node [] [])]),
    ("edges", .arr [.arr [.strs ["a", "e"], .strs ["b", "e"]]])]

def raised : Statement := .assign none .localPreference (.adjust none .increment 1)

def policy : Policy :=
  ⟨"P", [raised, .assign none .metric (.ref .localPreference), raised, raised,
    .branch none (.compare none .gt (.ref .localPreference) (.ref .metric))
      [.finish none .accept] [.finish none .reject] .absent]⟩

def edge : Edge := ⟨⟨"a", "e"⟩, ⟨"b", "e"⟩⟩

def sender (policy : Policy) : Node :=
  ⟨"a", none, ["10.0.0.0/8"], [("e", ⟨[], ["P"]⟩)], [("P", policy)], false⟩

def receiver : Node := ⟨"b", none, [], [("e", ⟨[], []⟩)], [], false⟩

def topology (policy : Policy) : Topology := ⟨[sender policy, receiver], [edge]⟩

def query (route : Option (List Given)) : Query := ⟨"10.0.0.0/8", some "b", route, none, []⟩

/-- The largest integer up to which sums of ones are not rounded, as local preference. -/
def route : Route :=
  { Expr.communityRoute with communities := [], localPreference := 9007199254740991 }

/-- A policy that announces only routes into a network. -/
def within : Policy :=
  ⟨"P", [.branch none (.inRanges none (.ref .network) ["10.0.0.0/8"] none) [.finish none .accept]
    [.finish none .reject] .absent]⟩

def withinDocument : Json :=
  .obj [("name", .str "P"), ("statements", .arr [
    branching (.obj [("class", .str "MatchPrefixSet"), ("prefix", ref "prefix"),
      ("prefixSet", .obj [("class", .str "ExplicitPrefixSet"),
        ("prefixSpace", .strs ["10.0.0.0/8"])])])])]

/-- A network that is given for the route but is not the destination. -/
def elsewhere : List Given := [.network "192.168.0.0/16"]

/-- The condition that is reported for `b`. -/
def grown : Expr :=
  .compare none .gt (.adjust none .increment 3) (.adjust none .increment 1)

theorem loaded : (topology policy).Loaded :=
  .inl ⟨false, document policyDocument, by with_unfolding_all rfl⟩

theorem wellTyped : (topology policy).WellTyped := by
  unfold Topology.WellTyped
  decide

/-- The variant that `a` starts with: only the network is known. -/
def origin : Variant :=
  ⟨"a", .bool true, ⟨[(.network, .lit none (.network "10.0.0.0/8")), (.nextHop, .ref .nextHop),
    (.communities, .ref .communities), (.localPreference, .ref .localPreference),
    (.metric, .ref .metric), (.weight, .ref .weight), (.tag, .ref .tag),
    (.asPath, .ref .asPath)]⟩, []⟩

theorem origins : (query none).origins (topology policy) = .ok [origin] := by with_unfolding_all rfl

/-- Nothing leaves `b`. -/
theorem settle_there [Arithmetic] {p : Policy} {sent waiting : List Variant} {hops : List Hop}
    (there : ∀ w ∈ waiting, w.node = "b") :
    Propagation.settle (topology p) .default ⟨sent, waiting, hops, 1⟩ =
      .ok ⟨sent ++ waiting, [], hops, 1⟩ := by
  induction waiting generalizing sent with
  | nil => simpa using Propagation.settle_of_rest rfl
  | cons w rest ih =>
      obtain ⟨here, further⟩ := List.forall_mem_cons.mp there
      have quiet : Propagation.crossAll (topology p) .default w
          (Propagation.edgesFrom (topology p) w.node) ⟨sent ++ [w], rest, hops, 1⟩ =
            .ok ⟨sent ++ [w], rest, hops, 1⟩ := by
        rw [here]
        rfl
      rw [Propagation.settle_of_sent rfl quiet, ih further, List.append_assoc]
      rfl

/-- What the only origin sends over the only edge decides the state in which propagation rests. -/
theorem settled [Arithmetic] {p : Policy} {v : Variant} {ws : List Variant}
    {cs : List Propagation.Crossing} {hops : List Hop} (home : v.node = "a")
    (there : ∀ w ∈ ws, w.node = "b")
    (sent : Propagation.crossings (topology p) 1024 v edge = .ok cs)
    (gathered : cs.foldl Propagation.State.record ⟨[v], [], [], 1⟩ = ⟨[v], ws, hops, 1⟩) :
    Propagation.settle (topology p) .default (Propagation.start [v]) =
      .ok ⟨v :: ws, [], hops, 1⟩ := by
  have crossed : Propagation.crossAll (topology p) .default v
      (Propagation.edgesFrom (topology p) v.node) ⟨[v], [], [], 0⟩ = .ok ⟨[v], ws, hops, 1⟩ := by
    have edges : Propagation.edgesFrom (topology p) "a" = [edge] := rfl
    have within : ((0 : Nat) : Int) + 1 ≤ Limits.default.iterations := by decide
    have carried : Propagation.cross (topology p) .default v edge ⟨[v], [], [], 0⟩ =
        .ok ⟨[v], ws, hops, 1⟩ :=
      (Propagation.cross_of_crossings within sent).trans (congrArg Except.ok gathered)
    rw [home, edges, Propagation.crossAll, carried]
    rfl
  exact (Propagation.settle_of_sent rfl crossed).trans (settle_there there)

/-- The conditions of what was sent are those that are reported for `b`. -/
theorem reports (p : Policy) (q : Query) (hops : List Hop) {v : Variant} {ws : List Variant}
    (home : v.node = "a") (there : ∀ w ∈ ws, w.node = "b") :
    ("b", (Expr.any (ws.map Variant.condition)).simplify) ∈
      (Propagation.answer (topology p) q ⟨v :: ws, [], hops, 1⟩).predicates := by
  have all : ws.filter (·.node = "b") = ws := by
    rw [List.filter_eq_self]
    intro w member
    simpa using there w member
  have reached : Propagation.reached ⟨v :: ws, [], hops, 1⟩ "b" = ws := by
    simp [Propagation.reached, Propagation.State.variants, home, all]
  have predicate : Propagation.predicate ⟨v :: ws, [], hops, 1⟩ "b" =
      (Expr.any (ws.map Variant.condition)).simplify := by
    rw [Propagation.predicate, reached]
  exact List.mem_cons_of_mem _ (predicate ▸ List.mem_cons_self)

/-- The query is answered once it is known what the only origin sends. -/
theorem answered [Arithmetic] {p : Policy} {q : Query} {v : Variant} {ws : List Variant}
    {hops : List Hop} (origins : q.origins (topology p) = .ok [v])
    (rests : Propagation.settle (topology p) .default (Propagation.start [v]) =
      .ok ⟨v :: ws, [], hops, 1⟩) (home : v.node = "a") (there : ∀ w ∈ ws, w.node = "b") :
    ∃ answer, (topology p).ask .default q = .ok answer ∧
      ("b", (Expr.any (ws.map Variant.condition)).simplify) ∈ answer.predicates :=
  ⟨_, Outcome.bind_ok.mpr ⟨_, origins, Outcome.bind_ok.mpr ⟨_, rests, rfl⟩⟩,
    reports p q hops home there⟩

/-- What `a` sends: under the condition `grown` a route that is announced, otherwise nothing. -/
theorem sends {a : Arithmetic} (known : a = .exact ∨ a = .binary64) :
    ∃ w hop, @Propagation.crossings a (topology policy) 1024 origin edge =
      .ok [.arrival w, .refused hop] ∧ w.node = "b" ∧ w.condition = grown := by
  rcases known with rfl | rfl
  · exact ⟨_, _, by with_unfolding_all rfl, by with_unfolding_all rfl, by with_unfolding_all rfl⟩
  · exact ⟨_, _, by with_unfolding_all rfl, by with_unfolding_all rfl, by with_unfolding_all rfl⟩

theorem gathered {w : Variant} (there : w.node = "b") (hops : List Hop) :
    (.arrival w :: hops.map .refused).foldl Propagation.State.record ⟨[origin], [], [], 1⟩ =
      ⟨[origin], [w], hops, 1⟩ := by
  have other : "a" ≠ w.node := by simp [there]
  have added : (⟨[origin], [], [], 1⟩ : Propagation.State).add w = ⟨[origin], [w], [], 1⟩ := by
    simp [Propagation.State.add, Propagation.State.knows, Propagation.State.variants, origin, other]
  rw [List.foldl_cons, Propagation.State.record, added]
  suffices general : ∀ before, (hops.map .refused).foldl Propagation.State.record
      ⟨[origin], [w], before, 1⟩ = ⟨[origin], [w], before ++ hops, 1⟩ from general []
  induction hops with
  | nil => simp
  | cons hop rest ih =>
      intro before
      simp [Propagation.State.record, ih]

theorem reported {a : Arithmetic} (known : a = .exact ∨ a = .binary64) :
    ∃ answer, @Topology.ask a (topology policy) .default (query none) = .ok answer ∧
      ("b", grown) ∈ answer.predicates := by
  obtain ⟨w, hop, sent, there, condition⟩ := sends known
  have only : ∀ x ∈ [w], x.node = "b" := by simpa using there
  have rests := @settled a _ _ _ _ _ rfl only sent (gathered there [hop])
  obtain ⟨answer, asked, reported⟩ := @answered a _ _ _ _ _ origins rests rfl only
  rw [List.map_singleton, condition] at reported
  exact ⟨answer, asked, reported⟩

/-- Without an accepting export chain no walk leads from `a` to `b`. -/
theorem unreachable {a : Arithmetic} {p : Policy} {start last : Record} {path : Path}
    (refused : @evaluateChain a ⟨[], 1024, (topology p).policies "a"⟩
      ((topology p).exportChain ⟨"a", "e"⟩) start = .ok [path])
    (rejects : path.disposition ≠ .accept) :
    ¬@Topology.Walk a (topology p) Execution.defaultLimit "a" start "b" last := by
  intro walk
  rcases @Topology.Walk.last a _ _ _ _ _ _ walk with
    ⟨impossible, _⟩ | ⟨e, known, _, r, before, crosses⟩
  · simp at impossible
  · cases List.mem_singleton.mp known
    rcases @Topology.Walk.last a _ _ _ _ _ _ before with ⟨_, rfl⟩ | ⟨e, known, there, _⟩
    · obtain ⟨left, _, exported, accepted, _⟩ := crosses
      have same := refused.symm.trans exported
      cases same
      exact rejects accepted
    · cases List.mem_singleton.mp known
      simp [edge] at there

end RaisingPeer

/-- Soundness where sums are whatever they are, and where the route of an owner takes every
attribute that the query gives, the network included. -/
def Topology.LiterallySound [Arithmetic] (t : Topology) (q : Query) : Prop :=
  ∀ (limits : Limits) (answer : Answer) (target : Network) (node : String) (e : Expr)
    (route : Route), t.ask limits q = .ok answer → q.network = .ok target →
    (node, e) ∈ answer.predicates →
    route.network = target.text → e.holdsAt route = true →
    ∃ n ∈ t.nodes, ∃ start last,
      ((n.external = true ∧ start = route.record) ∨
        (n.external = false ∧ Query.owns n target = true ∧
          start = route.overridden (q.route.getD []))) ∧
      t.Walk Execution.defaultLimit n.name start node last

namespace RaisingPeer

/-- If the chain of `a` refuses what the query literally makes of a route, then a condition of `b`
that is true of this route is not sound. -/
theorem not_literallySound [Arithmetic] {p : Policy} {q : Query} {answer : Answer} {e : Expr}
    {path : Path} (asked : (topology p).ask .default q = .ok answer)
    (found : q.network = .ok ⟨167772160, 8⟩) (reported : ("b", e) ∈ answer.predicates)
    (holds : e.holdsAt route = true)
    (refused : evaluateChain ⟨[], 1024, (topology p).policies "a"⟩
      ((topology p).exportChain ⟨"a", "e"⟩) (route.overridden (q.route.getD [])) = .ok [path])
    (rejects : path.disposition ≠ .accept) : ¬(topology p).LiterallySound q := by
  intro sound
  obtain ⟨n, listed, start, last, starts, walk⟩ :=
    sound .default answer _ "b" e route asked found reported rfl holds
  have either : n = sender p ∨ n = receiver := by simpa [topology] using listed
  rcases either with rfl | rfl
  · rcases starts with ⟨external, _⟩ | ⟨_, _, rfl⟩
    · cases external
    · exact unreachable refused rejects walk
  · rcases starts with ⟨external, _⟩ | ⟨_, owned, _⟩
    · cases external
    · exact absurd owned (by decide)

theorem rounded_not_literallySound :
    ¬@Topology.LiterallySound .binary64 (topology policy) (query none) := by
  obtain ⟨answer, asked, reported⟩ := reported (.inr rfl)
  exact @not_literallySound .binary64 _ _ _ _ _ asked rfl reported (by decide)
    (by with_unfolding_all rfl) (by decide)

/-- The destination stays the network of the route that is originated. -/
theorem elsewhere_not_literallySound :
    ¬@Topology.LiterallySound .exact (topology within) (query (some elsewhere)) := by
  have sends : ∃ w, @Propagation.crossings .exact (topology within) 1024 origin edge =
      .ok [.arrival w] ∧ w.node = "b" ∧ (Expr.any [w.condition]).simplify = .bool true :=
    ⟨_, by with_unfolding_all rfl, by with_unfolding_all rfl, by with_unfolding_all rfl⟩
  obtain ⟨w, sent, there, condition⟩ := sends
  have only : ∀ x ∈ [w], x.node = "b" := by simpa using there
  have origins : (query (some elsewhere)).origins (topology within) = .ok [origin] := by
    with_unfolding_all rfl
  have rests := @settled .exact _ _ _ _ _ rfl only sent (gathered there [])
  obtain ⟨answer, asked, reported⟩ := @answered .exact _ _ _ _ _ origins rests rfl only
  rw [List.map_singleton, condition] at reported
  exact @not_literallySound .exact _ _ _ _ _ asked rfl reported (by decide)
    (by with_unfolding_all rfl) (by decide)

end RaisingPeer

end RoutePolicy
