import RoutePolicy.Command.Preparation
import RoutePolicy.Command.Workspace
import RoutePolicy.Proofs.CheckedSettings
import RoutePolicy.Proofs.DraftingSteps
import RoutePolicy.Proofs.QueryKeys

/-!
The settings a command works with: those of a document, changed by variables. Counts and levels are
checked wherever they come from, so that the document of loaded settings is read back to them. A URL
is checked in a document but not in a variable, and that alone can make the document be refused.
-/

set_option autoImplicit false

namespace RoutePolicy

/-! ### Numbers that texts stand for -/

namespace Number

theorem isDouble_based {base : Nat} {cs : List Char} {n : Number} (read : based? base cs = some n)
    (finite : n.isFinite = true) : n.IsDouble := by
  unfold based? at read
  split at read
  · cases read
  · obtain ⟨digits, -, rfl⟩ := Option.map_eq_some_iff.mp read
    exact isDouble_ofScientific finite

theorem isDouble_decimal {negative : Bool} {cs : List Char} {n : Number}
    (read : decimal? negative cs = some n) (finite : n.isFinite = true) : n.IsDouble := by
  unfold decimal? at read
  dsimp only at read
  -- with a point or without one
  split at read
  all_goals
    split at read
    · cases read
    · obtain ⟨exponent, -, same⟩ := Option.bind_eq_some_iff.mp read
      cases same
      exact isDouble_ofScientific finite

theorem isDouble_numeral {cs : List Char} {n : Number} (read : numeral? cs = some n)
    (finite : n.isFinite = true) : n.IsDouble := by
  unfold numeral? at read
  split at read
  case h_1 =>
    cases read
    exact ⟨0, rfl, rfl⟩
  case h_8 =>
    dsimp only at read
    split at read
    · cases read
      cases finite
    · exact isDouble_decimal read finite
  all_goals exact isDouble_based read finite

/-- Whatever text a variable has, the number it stands for is a number of documents, if it is
finite. -/
theorem isDouble_ofText {text : String} (finite : (ofText text).isFinite = true) :
    (ofText text).IsDouble := by
  unfold ofText at finite ⊢
  cases read : numeral? (Text.trim text.toList) with
  | none =>
    rw [read] at finite
    cases finite
  | some n =>
    rw [read] at finite
    exact isDouble_numeral read finite

end Number

namespace Settings

/-! ### Settings that can be used -/

/-- A count from a least one on that is a number of documents. -/
structure Counted (least count : Nat) : Prop where
  enough : least ≤ count
  kept : Number.ofNat count = .finite count

namespace Counted

variable {least count : Nat}

theorem of_isDouble (enough : least ≤ count) (double : (Number.finite count).IsDouble) :
    Counted least count := by
  obtain ⟨q, same, kept⟩ := double
  obtain rfl : (count : Rat) = q := Number.finite.inj same
  exact ⟨enough, by simpa [Number.ofNat, Number.ofInt] using kept⟩

theorem of_safe (enough : least ≤ count) (safe : count ≤ Number.maxSafe) : Counted least count := by
  have kept : Number.ofInt count = .finite (count : Int) := Number.ofInt_safe safe
  exact ⟨enough, by simpa [Number.ofNat] using kept⟩

theorem means (counted : Counted least count) : MeansCount least (.nat count) count :=
  ⟨congrArg Json.num counted.kept, counted.enough⟩

end Counted

/-- All counts are large enough, and numbers of documents. -/
structure Sized (s : Settings) : Prop where
  timeout : Counted 1 s.timeout
  retries : Counted 0 s.retries
  maxIterations : Counted 1 s.maxIterations
  maxPaths : Counted 1 s.maxPaths

theorem sized_default : default.Sized where
  timeout := .of_safe (by decide) (by decide)
  retries := .of_safe (by decide) (by decide)
  maxIterations := .of_safe (by decide) (by decide)
  maxPaths := .of_safe (by decide) (by decide)

/-- A URL of the web. -/
def IsWeb (url : String) : Prop := ∃ rest, url = "http://" ++ rest ∨ url = "https://" ++ rest

theorem isWeb_default : IsWeb default.url := ⟨"localhost:9996", .inl rfl⟩

/-! ### Documents -/

section Documents

variable {members service query : Table Json} {key : String} {s : Settings}

theorem doubles_given (doubles : (Json.obj members).Doubles) {j : Json}
    (found : given? members key = some j) : j.Doubles := by
  have own : members.get? key = some j := by
    unfold given? at found
    split at found
    · cases found
    · exact found
  exact (Json.numbersIn_obj.mp doubles).get? own

theorem doubles_mapping (doubles : (Json.obj members).Doubles)
    (taken : Taken MeansMapping [] (given? members key) service) :
    (Json.obj service).Doubles := by
  cases found : given? members key with
  | none =>
    rw [found, Taken.none_iff] at taken
    rw [taken]
    exact Json.numbersIn_obj.mpr nofun
  | some j =>
    rw [found, Taken.some_iff] at taken
    exact taken ▸ doubles_given doubles found

theorem Taken.counted {least fallback count : Nat}
    (taken : Taken (MeansCount least) fallback (members.get? key) count)
    (doubles : (Json.obj members).Doubles) (usual : Counted least fallback) :
    Counted least count := by
  cases found : members.get? key with
  | none =>
    rw [found, Taken.none_iff] at taken
    exact taken ▸ usual
  | some j =>
    rw [found, Taken.some_iff] at taken
    obtain ⟨rfl, enough⟩ := taken
    have numbers := (Json.numbersIn_obj.mp doubles).get? found
    exact .of_isDouble enough (numbers _ List.mem_cons_self rfl)

theorem Describes.sized (d : Describes members service query s)
    (doubles : (Json.obj members).Doubles) : s.Sized := by
  have ofService := doubles_mapping doubles d.service_section
  have ofQuery := doubles_mapping doubles d.query_section
  constructor
  case timeout => exact d.timeout.counted ofService sized_default.timeout
  case retries => exact d.retries.counted ofService sized_default.retries
  case maxIterations => exact d.maxIterations.counted ofQuery sized_default.maxIterations
  case maxPaths => exact d.maxPaths.counted ofQuery sized_default.maxPaths

theorem Describes.isWeb (d : Describes members service query s) : IsWeb s.url := by
  have taken := d.url
  cases found : given? service "url" with
  | none =>
    rw [found, Taken.none_iff] at taken
    exact taken ▸ isWeb_default
  | some j =>
    rw [found, Taken.some_iff] at taken
    exact taken.2

/-- What is read from a document can be used. -/
theorem usable_of_ofJson {source : String} {raw : Option Json} (doubles : ∀ j ∈ raw, j.Doubles)
    (read : ofJson source raw = .ok s) : s.Sized ∧ IsWeb s.url := by
  unfold ofJson at read
  split at read
  · cases read
    exact ⟨sized_default, isWeb_default⟩
  · cases read
    exact ⟨sized_default, isWeb_default⟩
  · obtain ⟨service, query, d⟩ := ofMembers_ok.mp read
    exact ⟨d.sized (doubles _ rfl), d.isWeb⟩
  · exact (refuse_ne_ok.mp read).elim

/-- The document of settings that can be used is read back to them. -/
theorem ofJson_toJson (sized : s.Sized) (web : IsWeb s.url) (source : String) :
    ofJson source (some s.toJson) = .ok s := by
  rw [toJson, ofJson]
  refine ofMembers_ok.mpr ⟨[("url", .str s.url), ("timeoutMs", .nat s.timeout),
    ("retries", .nat s.retries)], [("maxIterations", .nat s.maxIterations),
    ("maxPaths", .nat s.maxPaths)], ?_⟩
  constructor
  case keys_known => exact fun key member => .inl member
  case url => exact .stated ⟨rfl, web⟩
  case timeout => exact .stated sized.timeout.means
  case retries => exact .stated sized.retries.means
  case maxIterations => exact .stated sized.maxIterations.means
  case maxPaths => exact .stated sized.maxPaths.means
  all_goals exact .stated rfl

/-- The document of settings with another URL is refused for it. -/
theorem ofJson_toJson_foreign (foreign : ¬IsWeb s.url) (source : String) :
    ofJson source (some s.toJson) = refuse source .notUrl := by
  have unknown : isUrl s.url = false := by
    rw [← Bool.not_eq_true, isUrl_iff]
    exact foreign
  have refused : readUrl source [("url", .str s.url), ("timeoutMs", .nat s.timeout),
      ("retries", .nat s.retries)] = refuse source .notUrl := by
    show (if isUrl s.url then _ else _) = _
    rw [unknown]
    rfl
  show (readUrl source _ >>= fun url => _) = _
  rw [refused]
  rfl

end Documents

/-! ### Variables -/

/-- What variables make of settings: a variable that is set has the say, and but for the URL only
once it has been checked. -/
structure Overrides (v : Variables) (base s : Settings) : Prop where
  url : s.url = (present v.url).getD base.url
  timeout : (present v.timeout).elim (s.timeout = base.timeout) fun text =>
    Number.ofText text = .finite s.timeout ∧ 1 ≤ s.timeout
  logLevel : (present v.logLevel).elim (s.logLevel = base.logLevel) fun word =>
    word = s.logLevel.name
  others : s = { base with url := s.url, timeout := s.timeout, logLevel := s.logLevel }

section Variables

variable {base s t : Settings} {v : Variables} {given : Option String}

/-- The settings with the URL of the variables. -/
def aimed (base : Settings) (v : Variables) : Settings :=
  { base with url := (present v.url).getD base.url }

theorem override_eq (base : Settings) (v : Variables) :
    base.override v =
      ((present v.timeout).elim (.ok (base.aimed v)) (base.aimed v).overrideTimeout >>= fun timed =>
        (present v.logLevel).elim (.ok timed) timed.overrideLevel) := by
  unfold override aimed
  cases present v.url <;> cases present v.timeout <;> cases present v.logLevel <;> rfl

theorem overrideTimeout_ok (done : given.elim (.ok s) s.overrideTimeout = .ok t) :
    ∃ timeout : Nat, (given.elim (timeout = s.timeout) fun text =>
      Number.ofText text = .finite timeout ∧ 1 ≤ timeout) ∧ t = { s with timeout := timeout } := by
  cases given with
  | none =>
    cases done
    exact ⟨_, rfl, rfl⟩
  | some text =>
    change overrideTimeout s text = .ok t at done
    unfold overrideTimeout at done
    split at done
    · rename_i timeout found
      split at done
      · cases done
      · cases done
        exact ⟨timeout, ⟨Number.toNat?_eq_some.mp found, by omega⟩, rfl⟩
    · cases done

theorem overrideLevel_ok (done : given.elim (.ok s) s.overrideLevel = .ok t) :
    ∃ level : LogLevel, (given.elim (level = s.logLevel) fun word => word = level.name) ∧
      t = { s with logLevel := level } := by
  cases given with
  | none =>
    cases done
    exact ⟨_, rfl, rfl⟩
  | some word =>
    change overrideLevel s word = .ok t at done
    unfold overrideLevel at done
    split at done
    · rename_i level found
      cases done
      exact ⟨level, LogLevel.ofName?_eq_some.mp found, rfl⟩
    · cases done

theorem override_ok (changed : base.override v = .ok s) : Overrides v base s := by
  rw [override_eq] at changed
  obtain ⟨timed, first, second⟩ := Outcome.bind_ok.mp changed
  obtain ⟨timeout, counted, rfl⟩ := overrideTimeout_ok first
  obtain ⟨level, named, rfl⟩ := overrideLevel_ok second
  exact ⟨rfl, counted, named, rfl⟩

theorem Overrides.sized (o : Overrides v base s) (sized : base.Sized) : s.Sized := by
  have timeout : Counted 1 s.timeout := by
    have stated := o.timeout
    cases given : present v.timeout with
    | none =>
      rw [given] at stated
      exact stated ▸ sized.timeout
    | some text =>
      rw [given] at stated
      obtain ⟨read, enough⟩ := stated
      have finite : (Number.ofText text).isFinite = true := by rw [read]; rfl
      exact .of_isDouble enough (read ▸ Number.isDouble_ofText finite)
  rw [o.others]
  exact ⟨timeout, sized.retries, sized.maxIterations, sized.maxPaths⟩

end Variables

end Settings

/-! ### Commands -/

namespace Command

/-- The variables of a workspace that change settings. -/
def Workspace.variables (w : Workspace) : Settings.Variables where
  url := w.environment.get? Settings.Variables.urlName
  timeout := w.environment.get? Settings.Variables.timeoutName
  logLevel := w.environment.get? Settings.Variables.logLevelName

theorem doubles_document {text : String} {j : Json} (read : document? text = some j) :
    j.Doubles := by
  unfold document? at read
  split at read
  · cases read
    exact nofun
  · exact (Json.read?_parsed read).numbers

section

variable {a : Arguments} {w after : Workspace}

theorem run_lift_ok {α : Type} {act : StateM Workspace α} {x : α} :
    (liftM act : Run (StateM Workspace) α).run.run w = (.ok x, after) ↔ act.run w = (x, after) := by
  rw [ExceptT.run_liftM, StateT.run_map]
  rcases act.run w with ⟨y, t⟩
  constructor
  · rintro ⟨⟩
    rfl
  · rintro ⟨⟩
    rfl

theorem run_ofOutcome_ok {α : Type} {r : Outcome α} {x : α} :
    (Run.ofOutcome r : Run (StateM Workspace) α).run.run w = (.ok x, after) ↔
      r = .ok x ∧ w = after := by
  cases r with
  | error f =>
    constructor
    · rintro ⟨⟩
    · rintro ⟨⟨⟩, _⟩
  | ok y =>
    constructor
    · rintro ⟨⟩
      exact ⟨rfl, rfl⟩
    · rintro ⟨⟨⟩, rfl⟩
      rfl

theorem isThere_run (path : String) :
    (Workspace.host.isThere path).run w = ((w.inspect path).isOk, w) := by
  have seen : (Workspace.host.inspect path).run w = (w.inspect path, w) := rfl
  rw [Host.isThere, StateT.run_bind, seen]
  cases w.inspect path <;> rfl

/-- The first name that is there is found, and the workspace stays as it was. -/
theorem findSettings_run (directory : String) (names : List String) :
    (findSettings Workspace.host directory names).run w =
      ((names.map (FileName.resolve directory)).find? fun path => (w.inspect path).isOk, w) := by
  induction names with
  | nil => rfl
  | cons name rest ih =>
    rw [findSettings, StateT.run_bind, isThere_run]
    cases there : (w.inspect (FileName.resolve directory name)).isOk with
    | true =>
      rw [List.map_cons, List.find?_cons, there]
      rfl
    | false =>
      rw [List.map_cons, List.find?_cons, there]
      exact ih

theorem settingsPath_ok {found : Option String}
    (done : (settingsPath Workspace.host a).run.run w = (.ok found, after)) : after = w := by
  unfold settingsPath at done
  split at done
  · obtain ⟨directory, t, here, done⟩ := run_bind_ok.mp done
    cases here
    rw [run_lift_ok, findSettings_run] at done
    cases done
    rfl
  · obtain ⟨path, t, here, done⟩ := run_bind_ok.mp done
    cases here
    obtain ⟨there, t, here, done⟩ := run_bind_ok.mp done
    rw [run_lift_ok, isThere_run] at here
    cases here
    split at done
    · cases done
      rfl
    · cases done

theorem readSettings_ok {path : String} {s : Settings}
    (read : (readSettings Workspace.host path).run.run w = (.ok s, after)) :
    after = w ∧ ∃ text j, document? text = some j ∧ Settings.ofJson path (some j) = .ok s := by
  unfold readSettings at read
  obtain ⟨found, t, looked, read⟩ := run_bind_ok.mp read
  cases looked
  split at read
  · cases read
  · rename_i text _
    split at read
    · cases read
    · rename_i j parsed
      obtain ⟨own, same⟩ := run_ofOutcome_ok.mp read
      exact ⟨same.symm, text, j, parsed, own⟩

/-- Settings that a command loads come from a document and the variables of the workspace. -/
theorem loadSettings_ok {s : Settings}
    (loads : (loadSettings Workspace.host a).run.run w = (.ok s, after)) :
    ∃ source raw base, (∀ j ∈ raw, Json.Doubles j) ∧ Settings.ofJson source raw = .ok base ∧
      base.override w.variables = .ok s := by
  unfold loadSettings at loads
  obtain ⟨found, t, looked, rest⟩ := run_bind_ok.mp loads
  obtain rfl := settingsPath_ok looked
  have changed : ∀ base : Settings, (do
      let environment ← (readVariables Workspace.host : StateM Workspace Settings.Variables)
      Run.ofOutcome (base.override environment) : Run (StateM Workspace) Settings).run.run t =
        (.ok s, after) → base.override t.variables = .ok s := by
    intro base done
    obtain ⟨environment, t', here, done⟩ := run_bind_ok.mp done
    cases here
    exact (run_ofOutcome_ok.mp done).1
  split at rest
  · exact ⟨"", none, .default, nofun, rfl, changed _ rest⟩
  · rename_i path
    obtain ⟨base, t', loaded, last⟩ := run_bind_ok.mp rest
    obtain ⟨rfl, text, j, parsed, own⟩ := readSettings_ok loaded
    refine ⟨path, some j, base, ?_, own, changed _ last⟩
    rintro _ ⟨⟩
    exact doubles_document parsed

end

end Command

/-! ### Loaded settings -/

namespace Settings

/-- Settings that are loaded under variables: from any document whose numbers are values of
binary64, or from none, or by a command in a workspace. -/
inductive Loaded (v : Variables) (s : Settings) : Prop
  | document {source : String} {raw : Option Json} {base : Settings}
      (doubles : ∀ j ∈ raw, j.Doubles) (read : ofJson source raw = .ok base)
      (changed : base.override v = .ok s)
  | command {a : Command.Arguments} {w after : Command.Workspace} (set : w.variables = v)
      (loads : (Command.loadSettings Command.Workspace.host a).run.run w = (.ok s, after))

theorem Loaded.overridden {v : Variables} {s : Settings} (loaded : Loaded v s) :
    ∃ base : Settings, base.Sized ∧ IsWeb base.url ∧ Overrides v base s := by
  have fromDocument : ∀ {source raw base}, (∀ j ∈ raw, Json.Doubles j) →
      ofJson source raw = .ok base → base.override v = .ok s →
        ∃ base : Settings, base.Sized ∧ IsWeb base.url ∧ Overrides v base s := by
    intro source raw base doubles read changed
    obtain ⟨sized, web⟩ := usable_of_ofJson doubles read
    exact ⟨base, sized, web, override_ok changed⟩
  cases loaded with
  | document doubles read changed => exact fromDocument doubles read changed
  | command set loads =>
    obtain ⟨source, raw, base, doubles, read, changed⟩ := Command.loadSettings_ok loads
    exact fromDocument doubles read (set ▸ changed)

/-- All counts of loaded settings can be used. Unless a variable has the URL, or has one of the web,
the document of loaded settings is read back to them; otherwise it is refused for the URL. -/
theorem loaded_settings_read_back {v : Variables} {s : Settings} (loaded : Loaded v s)
    (source : String) :
    (1 ≤ s.timeout ∧ 1 ≤ s.maxIterations ∧ 1 ≤ s.maxPaths) ∧
    ((∀ url, present v.url = some url → IsWeb url) →
      IsWeb s.url ∧ ofJson source (some s.toJson) = .ok s) ∧
    ∀ url, present v.url = some url → ¬IsWeb url →
      s.url = url ∧ ofJson source (some s.toJson) = refuse source .notUrl := by
  obtain ⟨base, usual, web, changed⟩ := loaded.overridden
  have sized := changed.sized usual
  have url := changed.url
  refine ⟨⟨sized.timeout.enough, sized.maxIterations.enough, sized.maxPaths.enough⟩, ?_, ?_⟩
  · intro checked
    have own : IsWeb s.url := by
      rw [url]
      cases given : present v.url with
      | none => exact web
      | some other => exact checked other given
    exact ⟨own, ofJson_toJson sized own source⟩
  · intro other given foreign
    rw [given] at url
    exact ⟨url, ofJson_toJson_foreign (url ▸ foreign) source⟩

/-- Settings of variables, loaded by a command, are read back. -/
theorem overridden_settings_read_back :
    Loaded ⟨some "https://lab", some " 5e3 ", some "debug"⟩
      { default with url := "https://lab", timeout := 5000, logLevel := .debug } ∧
    ofJson "config" (some (toJson
      { default with url := "https://lab", timeout := 5000, logLevel := .debug })) =
        .ok { default with url := "https://lab", timeout := 5000, logLevel := .debug } := by
  have loaded : Loaded ⟨some "https://lab", some " 5e3 ", some "debug"⟩
      { default with url := "https://lab", timeout := 5000, logLevel := .debug } :=
    .command (a := ⟨"query", [], [], []⟩)
      (w := ⟨["work"], [(["work", "route-condenser.yml"], "")],
        [(Variables.urlName, "https://lab"), (Variables.timeoutName, " 5e3 "),
          (Variables.logLevelName, "debug")], .start [] [], [], []⟩) rfl rfl
  have web : ∀ url, present (some "https://lab") = some url → IsWeb url := by
    rintro _ ⟨⟩
    exact ⟨"lab", .inr rfl⟩
  exact ⟨loaded, ((loaded_settings_read_back loaded "config").2.1 web).2⟩

/-- The URL of a variable is not checked, and the document of the settings is refused for it. -/
theorem unchecked_url_refused :
    Loaded ⟨some "localhost:9996", none, none⟩ { default with url := "localhost:9996" } ∧
    ¬IsWeb "localhost:9996" ∧
    ofJson "config" (some (toJson { default with url := "localhost:9996" })) =
      refuse "config" .notUrl := by
  have foreign : ¬IsWeb "localhost:9996" := by
    show ¬∃ _, _
    rw [← isUrl_iff]
    decide
  have missing : ∀ j ∈ (none : Option Json), j.Doubles := nofun
  have read : ofJson "config" none = .ok default := rfl
  exact ⟨.document missing read rfl, foreign, rfl⟩

end Settings

end RoutePolicy
