import RoutePolicy.Proofs.Evaluation
import RoutePolicy.Settings

/-!
The settings that a document is read to: exactly what the document has for each setting, once that
has been checked, and the default where it has nothing. The keys of the document itself are checked;
the names that every mapping answers to pass that check, and the keys within a section have none.
-/

set_option autoImplicit false

namespace RoutePolicy

/-- A number that stands for a natural number is that number. -/
theorem Number.toNat?_eq_some {x : Number} {n : Nat} : x.toNat? = some n ↔ x = .finite n := by
  constructor
  · intro stands
    rcases x with q | _ | _
    · simp only [toNat?, toInt?, Option.bind_eq_some_iff, Option.ite_none_right_eq_some,
        Option.some.injEq] at stands
      obtain ⟨i, ⟨integral, rfl⟩, nonneg, rfl⟩ := stands
      have whole : ((q.num.toNat : Int) : Rat) = q := by
        rw [Int.toNat_of_nonneg nonneg]
        exact Rat.ext rfl integral.symm
      exact congrArg finite whole.symm
    · cases stands
    · cases stands
  · rintro rfl
    simp [toNat?, toInt?]

theorem LogLevel.ofName?_eq_some {word : String} {level : LogLevel} :
    ofName? word = some level ↔ word = level.name := by
  constructor
  · intro found
    have named := List.find?_some found
    exact (of_decide_eq_true named).symm
  · rintro rfl
    cases level <;> rfl

namespace Settings

/-- A key that a document may have, the names that every mapping answers to among them. -/
def Known (key : String) : Prop := key ∈ keys ∨ key ∈ inheritedNames

theorem isKnown_iff {key : String} : isKnown key = true ↔ Known key := by
  simp [isKnown, Known]

theorem isUrl_iff {text : String} :
    isUrl text = true ↔ ∃ rest, text = "http://" ++ rest ∨ text = "https://" ++ rest := by
  have begins : ∀ start : String, start.toList.isPrefixOf text.toList = true ↔
      ∃ rest, text = start ++ rest := by
    intro start
    rw [List.isPrefixOf_iff_prefix]
    constructor
    · rintro ⟨rest, whole⟩
      exact ⟨String.ofList rest, String.ext (by simp [← whole])⟩
    · rintro ⟨rest, rfl⟩
      exact ⟨rest.toList, by simp⟩
  simp only [isUrl, Bool.or_eq_true, begins, exists_or]

/-- The value of a setting: the meaning of what a document has for it, or else its default. -/
inductive Taken {α : Type} (Means : Json → α → Prop) (fallback : α) : Option Json → α → Prop
  | stated {j : Json} {a : α} (means : Means j a) : Taken Means fallback (some j) a
  | missing : Taken Means fallback none fallback

namespace Taken

variable {α : Type} {Means : Json → α → Prop} {fallback a : α}

@[simp] theorem some_iff {j : Json} : Taken Means fallback (some j) a ↔ Means j a :=
  ⟨fun taken => by cases taken; assumption, .stated⟩

@[simp] theorem none_iff : Taken Means fallback none a ↔ a = fallback :=
  ⟨fun taken => by cases taken; rfl, fun same => same ▸ .missing⟩

end Taken

/-- A mapping with its members. -/
def MeansMapping (j : Json) (members : Table Json) : Prop := j = .obj members

/-- A URL of the web. -/
def MeansUrl (j : Json) (url : String) : Prop :=
  j = .str url ∧ ∃ rest, url = "http://" ++ rest ∨ url = "https://" ++ rest

/-- An integer from a least one on. -/
def MeansCount (least : Nat) (j : Json) (count : Nat) : Prop :=
  j = .num (.finite count) ∧ least ≤ count

def MeansSwitch (j : Json) (on : Bool) : Prop := j = .bool on

def MeansLevel (j : Json) (level : LogLevel) : Prop := j = .str level.name

/-- What the members of a document, and those of its sections `service` and `query`, come to. A
section and each setting but the counts may be `null` for missing. -/
structure Describes (members service query : Table Json) (s : Settings) : Prop where
  keys_known : ∀ key ∈ members.names, Known key
  service_section : Taken MeansMapping [] (given? members "service") service
  query_section : Taken MeansMapping [] (given? members "query") query
  url : Taken MeansUrl default.url (given? service "url") s.url
  timeout : Taken (MeansCount 1) default.timeout (service.get? "timeoutMs") s.timeout
  retries : Taken (MeansCount 0) default.retries (service.get? "retries") s.retries
  maxIterations :
    Taken (MeansCount 1) default.maxIterations (query.get? "maxIterations") s.maxIterations
  maxPaths : Taken (MeansCount 1) default.maxPaths (query.get? "maxPaths") s.maxPaths
  simplify : Taken MeansSwitch default.simplify (given? members "simplify") s.simplify
  logLevel : Taken MeansLevel default.logLevel (given? members "logLevel") s.logLevel

section Readers

variable {source : String} {members : Table Json} {key : String} {fault : SettingFault}

@[simp] theorem refuse_ne_ok {α : Type} {a : α} :
    (refuse source fault : Outcome α) = .ok a ↔ False := by
  simp [refuse]

theorem mapping_ok {found : Table Json} :
    mapping source members key = .ok found ↔ Taken MeansMapping [] (given? members key) found := by
  unfold mapping given?
  rcases members.get? key with _ | j
  · simp [eq_comm]
  · cases j with
    | null => simp [eq_comm]
    | obj found => simp [MeansMapping]
    | _ => simp [MeansMapping]

theorem readUrl_ok {url : String} :
    readUrl source members = .ok url ↔
      Taken MeansUrl default.url (given? members "url") url := by
  unfold readUrl
  rcases given? members "url" with _ | j
  · simp [eq_comm]
  · cases j with
    | str text =>
      simp only [Taken.some_iff, MeansUrl, Json.str.injEq, ← isUrl_iff]
      by_cases web : isUrl text = true
      · rw [if_pos web]
        exact ⟨fun same => ⟨Except.ok.inj same, Except.ok.inj same ▸ web⟩,
          fun means => congrArg Except.ok means.1⟩
      · rw [if_neg web, refuse_ne_ok]
        exact ⟨False.elim, fun means => web (means.1 ▸ means.2)⟩
    | _ => simp [MeansUrl]

theorem readSimplify_ok {on : Bool} :
    readSimplify source members = .ok on ↔
      Taken MeansSwitch default.simplify (given? members "simplify") on := by
  unfold readSimplify
  rcases given? members "simplify" with _ | j
  · simp [eq_comm]
  · cases j <;> simp [MeansSwitch]

theorem readLevel_ok {level : LogLevel} :
    readLevel source members = .ok level ↔
      Taken MeansLevel default.logLevel (given? members "logLevel") level := by
  unfold readLevel
  rcases given? members "logLevel" with _ | j
  · simp [eq_comm]
  · cases j with
    | str word =>
      have named := @LogLevel.ofName?_eq_some word level
      simp only [Taken.some_iff, MeansLevel, Json.str.injEq, ← named]
      rcases LogLevel.ofName? word <;> simp
    | _ => simp [MeansLevel]

theorem readCount_ok {least fallback count : Nat} :
    readCount source members key least fallback fault = .ok count ↔
      Taken (MeansCount least) fallback (members.get? key) count := by
  unfold readCount
  rcases members.get? key with _ | j
  · simp [eq_comm]
  · cases j with
    | num n =>
      simp only [Taken.some_iff, MeansCount, Json.num.injEq, ← Number.toNat?_eq_some]
      rcases n.toNat? with _ | stated
      · simp
      · by_cases below : stated < least
        · simp [below]
          omega
        · simp [below]
          omega
    | _ => simp [MeansCount]

/-- A document is read to settings exactly if it describes them. -/
theorem ofMembers_ok {s : Settings} :
    ofMembers source members = .ok s ↔ ∃ service query, Describes members service query s := by
  unfold ofMembers
  cases stranger : members.names.find? (!isKnown ·) with
  | some key =>
    have unknown := List.find?_some stranger
    refine ⟨fun accepted => (refuse_ne_ok.mp accepted).elim, ?_⟩
    rintro ⟨_, _, described⟩
    have known := isKnown_iff.mpr (described.keys_known key (List.mem_of_find?_eq_some stranger))
    simp [known] at unknown
  | none =>
    have known : ∀ key ∈ members.names, Known key := fun key member =>
      isKnown_iff.mp (by simpa using List.find?_eq_none.mp stranger key member)
    simp only [Outcome.bind_ok, mapping_ok, readUrl_ok, readSimplify_ok, readLevel_ok, readCount_ok,
      Except.ok.injEq]
    constructor
    · rintro ⟨service, inService, query, inQuery, url, urlTaken, on, onTaken, level, levelTaken,
        timeout, timeoutTaken, retries, retriesTaken, rounds, roundsTaken, paths, pathsTaken, rfl⟩
      exact ⟨service, query, known, inService, inQuery, urlTaken, timeoutTaken, retriesTaken,
        roundsTaken, pathsTaken, onTaken, levelTaken⟩
    · rintro ⟨service, query, d⟩
      exact ⟨service, d.service_section, query, d.query_section, _, d.url, _, d.simplify, _,
        d.logLevel, _, d.timeout, _, d.retries, _, d.maxIterations, _, d.maxPaths, rfl⟩

/-- An outcome that is no refusal of a key. -/
def BlamesNoKey (source : String) {α : Type} (r : Outcome α) : Prop :=
  ∀ key, r ≠ refuse source (.unknownKey key)

theorem BlamesNoKey.ok {α : Type} (a : α) : BlamesNoKey source (.ok a) :=
  fun _ same => refuse_ne_ok.mp same.symm

theorem BlamesNoKey.bind {α β : Type} {first : Outcome α} {next : α → Outcome β}
    (noKey : BlamesNoKey source first) (rest : ∀ a, BlamesNoKey source (next a)) :
    BlamesNoKey source (first >>= next) := by
  intro key refused
  rcases Outcome.bind_error.mp refused with here | ⟨a, -, later⟩
  · exact noKey key here
  · exact rest a key later

theorem BlamesNoKey.refuse {α : Type} (other : ∀ key, fault ≠ .unknownKey key) :
    BlamesNoKey source (Settings.refuse source fault : Outcome α) := by
  intro key same
  simp only [Settings.refuse, Except.error.injEq, Failure.ofCause, Failure.mk.injEq,
    Cause.config.injEq, ConfigFault.setting.injEq] at same
  exact other key same.1.2

theorem BlamesNoKey.mapping : BlamesNoKey source (mapping source members key) := by
  unfold Settings.mapping
  split
  · exact ok _
  · exact ok _
  · exact ok _
  · exact refuse (by simp)

theorem BlamesNoKey.readUrl : BlamesNoKey source (readUrl source members) := by
  unfold Settings.readUrl
  split
  · exact ok _
  · split
    · exact ok _
    · exact refuse (by simp)
  · exact refuse (by simp)

theorem BlamesNoKey.readSimplify : BlamesNoKey source (readSimplify source members) := by
  unfold Settings.readSimplify
  split
  · exact ok _
  · exact ok _
  · exact refuse (by simp)

theorem BlamesNoKey.readLevel : BlamesNoKey source (readLevel source members) := by
  unfold Settings.readLevel
  split
  · exact ok _
  · split
    · split
      · exact ok _
      · exact refuse (by simp)
    · exact refuse (by simp)

theorem BlamesNoKey.readCount {least fallback : Nat} (other : ∀ key, fault ≠ .unknownKey key) :
    BlamesNoKey source (readCount source members key least fallback fault) := by
  unfold Settings.readCount
  split
  · exact ok _
  · split
    · split
      · exact refuse other
      · exact ok _
    · exact refuse other
  · exact refuse other

/-- The key that a document is refused for is the first one that is not known. -/
theorem ofMembers_unknownKey :
    ofMembers source members = refuse source (.unknownKey key) ↔
      ∃ before after, members.names = before ++ key :: after ∧ (∀ k ∈ before, Known k) ∧
        ¬Known key := by
  have first : members.names.find? (!isKnown ·) = some key ↔
      ∃ before after, members.names = before ++ key :: after ∧ (∀ k ∈ before, Known k) ∧
        ¬Known key := by
    simp only [List.find?_eq_some_iff_append, Bool.not_not, isKnown_iff, Bool.not_eq_true',
      ← Bool.not_eq_true]
    constructor
    · rintro ⟨unknown, before, after, whole, known⟩
      exact ⟨before, after, whole, known, unknown⟩
    · rintro ⟨before, after, whole, known, unknown⟩
      exact ⟨unknown, before, after, whole, known⟩
  rw [← first]
  unfold ofMembers
  cases stranger : members.names.find? (!isKnown ·) with
  | some found => simp [refuse, Failure.ofCause]
  | none =>
    -- with all keys known a refusal is one of a section or a value
    refine iff_of_false ((?_ : BlamesNoKey source _) key) (by simp)
    refine .bind .mapping fun _ => .bind .mapping fun _ => .bind .readUrl fun _ =>
      .bind .readSimplify fun _ => .bind .readLevel fun _ => ?_
    exact .bind (.readCount (by simp)) fun _ => .bind (.readCount (by simp)) fun _ =>
      .bind (.readCount (by simp)) fun _ => .bind (.readCount (by simp)) fun _ => .ok _

end Readers

/-- A document is accepted exactly if it is missing or describes the settings: its own keys are
known, and every setting is what the document has for it, checked, or the default. It is refused for
the first of its keys that is not known, and for no other. -/
theorem accepted_settings_described (source : String) (raw : Option Json) :
    (∀ s, ofJson source raw = .ok s ↔
      ((raw = none ∨ raw = some .null) ∧ s = default) ∨
        ∃ members service query, raw = some (.obj members) ∧ Describes members service query s) ∧
    ∀ key, ofJson source raw = refuse source (.unknownKey key) ↔
      ∃ (members : Table Json) (before after : List String), raw = some (.obj members) ∧
        members.names = before ++ key :: after ∧ (∀ k ∈ before, Known k) ∧ ¬Known key := by
  rcases raw with _ | j
  · simp [ofJson, eq_comm, refuse]
  · cases j with
    | null => simp [ofJson, eq_comm, refuse]
    | obj members =>
      constructor
      · intro s
        simp [ofJson, ofMembers_ok]
      · intro key
        simp [ofJson, ofMembers_unknownKey]
    | _ => simp [ofJson, refuse, Failure.ofCause]

/-- Keys that no setting has are accepted where every mapping answers to them, and in a section. -/
theorem stray_keys_accepted :
    (ofJson "config" (some (.obj [("toString", .num (.finite 1))])) = .ok default ∧
      "toString" ∉ keys) ∧
    ofJson "config" (some (.obj [("service", .obj [("timeoutMS", .num (.finite 5))])])) =
      .ok default ∧ "timeoutMS" ∉ ["url", "timeoutMs", "retries"] :=
  ⟨⟨rfl, by decide⟩, rfl, by decide⟩

end Settings

end RoutePolicy
