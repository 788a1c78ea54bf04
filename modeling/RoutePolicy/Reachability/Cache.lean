import RoutePolicy.Log
import RoutePolicy.Reachability.Propagation
import RoutePolicy.Topology.Condensed

/-!
Answers kept for later, by the fingerprint of the topology and the canonical text of the query; and
the log of a question.
-/

set_option autoImplicit false

namespace RoutePolicy

/-- What a stored answer answers. -/
structure CacheKey where
  fingerprint : String
  query : String
deriving DecidableEq

/-- Stored answers. No key is stored twice. -/
structure Cache where
  entries : List (CacheKey × Answer)

namespace Cache

def empty : Cache := ⟨[]⟩

def get? (c : Cache) (fingerprint : String) (q : Query) : Option Answer :=
  (c.entries.find? (·.1 = ⟨fingerprint, q.canonical⟩)).map Prod.snd

def set (c : Cache) (fingerprint : String) (q : Query) (a : Answer) : Cache :=
  let key : CacheKey := ⟨fingerprint, q.canonical⟩
  ⟨c.entries.filter (·.1 ≠ key) ++ [(key, a)]⟩

/-- Drops the answers of one topology. -/
def invalidate (c : Cache) (fingerprint : String) : Cache :=
  ⟨c.entries.filter (·.1.fingerprint ≠ fingerprint)⟩

def size (c : Cache) : Nat := c.entries.length

end Cache

namespace Query

/-- The destination with its length, as far as it is a network at all. -/
def target (q : Query) : String :=
  match Network.parse? q.destination with
  | some n => n.text
  | none => q.destination

def originsEntry (q : Query) (origins : List Variant) : LogEntry :=
  .debug "Query origins" [("destination", .str q.target),
    ("origins", .strs (Propagation.reachedNodes (Propagation.start origins)))]

def finishedEntry (q : Query) (a : Answer) : LogEntry :=
  .debug "Query finished" [("destination", .str q.target),
    ("disposition", .str a.disposition.name), ("iterations", .nat a.iterations)]

def hitEntry (q : Query) : LogEntry := .debug "Query cache hit" [("destination", .str q.destination)]

def failedEntry (q : Query) (f : Failure) : LogEntry :=
  .warn "Query failed" [("destination", .str q.destination), ("code", .str f.code.text)]

/-- What there is to tell about answering a query: where routes start, and how it ended. -/
def log (t : Topology) (q : Query) (result : Outcome Answer) : List LogEntry :=
  match q.origins t with
  | .error _ => []
  | .ok origins =>
    q.originsEntry origins ::
      match result with
      | .ok a => [finishedEntry q a]
      | .error _ => []

end Query

/-- The state of a series of questions: the stored answers, if any are kept, and the log. -/
structure Inquiry where
  cache : Option Cache
  log : List LogEntry

namespace Inquiry

def tell (i : Inquiry) (entries : List LogEntry) : Inquiry := { i with log := i.log ++ entries }

/-- Answers a query, from the stored answers where possible; a new answer is stored. -/
def ask (i : Inquiry) (t : Topology) (limits : Limits) (q : Query) : Outcome Answer × Inquiry :=
  match i.cache.bind (·.get? t.fingerprint q) with
  | some answer => (.ok answer, i.tell [q.hitEntry])
  | none =>
    let result := t.ask limits q
    let i := i.tell (q.log t result)
    match result with
    | .ok answer => (result, { i with cache := i.cache.map (·.set t.fingerprint q answer) })
    | .error _ => (result, i)

/-- Answers queries one after another. A query that fails does not stop the others. -/
def askAll (i : Inquiry) (t : Topology) (limits : Limits) : List Query → List BatchEntry × Inquiry
  | [] => ([], i)
  | q :: rest =>
    let (result, i) := i.ask t limits q
    let i := match result with
      | .ok _ => i
      | .error f => i.tell [q.failedEntry f]
    let (others, i) := askAll i t limits rest
    (⟨q, result⟩ :: others, i)

end Inquiry

end RoutePolicy
