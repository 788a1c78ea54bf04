import RoutePolicy.Definitions
import RoutePolicy.Proofs.Loading
import RoutePolicy.Proofs.NamedDefinitions

/-!
Definitions written out in place of their names keep policies able to reach literals.
-/

set_option autoImplicit false

namespace RoutePolicy

/-- Definitions that give every name the same meaning. -/
structure Definitions.Alike (defs other : Definitions) : Prop where
  lists : ∀ name, defs.lists.get? name = other.lists.get? name
  sets : ∀ name, defs.sets.get? name = other.sets.get? name

/-- What is built from matches of the subject by negations and junctions has every property that
these keep. -/
theorem ListLine.forall_permits {subject : Expr} {P : Expr → Prop} {lines : List ListLine}
    {earlier : List Expr} (matched : ∀ line ∈ lines, P (.inRanges none subject [line.range] none))
    (negated : ∀ e, P e → P (.not none e))
    (joined : ∀ es, es ≠ [] → (∀ e ∈ es, P e) → P (.all es)) (before : ∀ e ∈ earlier, P e) :
    ∀ e ∈ permits subject earlier lines, P e := by
  induction lines generalizing earlier with
  | nil => exact List.forall_mem_nil _
  | cons line rest ih =>
      obtain ⟨here, further⟩ := List.forall_mem_cons.mp matched
      have single := List.forall_mem_singleton.mpr here
      have later := ih further (List.forall_mem_append.mpr ⟨before, single⟩)
      rw [permits]
      split
      · refine List.forall_mem_cons.mpr ⟨joined _ (by simp) ?_, later⟩
        refine List.forall_mem_append.mpr ⟨List.forall_mem_map.mpr fun e member => ?_, single⟩
        exact negated e (before e member)
      · exact later

namespace Expr

/-! ### Simplification -/

/-- A foldable node whose operands cannot be merged into one. -/
structure Crowded (e : Expr) : Prop where
  written : e.isWritten = true
  room : ∀ cls es, e = union cls es → 2 ≤ es.length

theorem Crowded.foldable {e : Expr} (crowded : Crowded e) : Foldable e := by
  refine ⟨crowded.written, ?_⟩
  intro cls es same
  have enough := crowded.room cls es same
  rintro rfl
  simp at enough

theorem crowded_stable : Stable type (fun _ _ => True) True Crowded where
  own _ := trivial
  operator _ _ _ := rfl
  constant _ _ := rfl
  part _ _ _ _ _ _ _ := trivial
  room cls es crowded _ := crowded.room cls es rfl
  boolean _ := ⟨rfl, nofun⟩
  set _ _ := ⟨rfl, nofun⟩
  path _ _ := ⟨rfl, nofun⟩
  negated _ _ := ⟨rfl, nofun⟩
  joined _ _ _ _ := ⟨rfl, nofun⟩
  united es enough _ := ⟨rfl, by rintro cls es ⟨⟩; exact enough trivial⟩
  matched _ _ _ _ := ⟨rfl, nofun⟩
  ranged _ _ _ _ := ⟨rfl, nofun⟩
  prepended _ _ _ _ := ⟨rfl, nofun⟩

/-- A property `Q` of nodes that written out definitions keep. Where simplification leaves a node,
it has the property `R` too, and unions have at least two operands. -/
structure Writable (Q R : Expr → Prop) : Prop where
  stable : Stable type (fun _ _ => True) True R
  weaker : ∀ e, R e → Q e
  crowd : ∀ e, Q e → (∀ cls es, e = union cls es → 2 ≤ es.length) → R e
  filled : ∀ cls es, Q (union cls es) → es ≠ []
  rebuilt : ∀ e es, Q e → es.length = e.children.length → Q (e.withChildren es)
  ranged : ∀ e text, (NetworkRange.parse? text).isSome = true → Q (inRanges none e [text] none)

theorem foldable_writable : Writable Foldable Crowded where
  stable := crowded_stable
  weaker _ := Crowded.foldable
  crowd _ foldable room := ⟨foldable.written, room⟩
  filled cls es foldable := foldable.filled cls es rfl
  rebuilt _ _ foldable := foldable.withChildren
  ranged _ _ _ := ⟨rfl, nofun⟩

namespace Writable

variable {Q R : Expr → Prop}

/-- An operator is ready for the rules over parts that simplification has left. -/
theorem ready (writable : Writable Q R) {e : Expr} (root : Q e) {es : List Expr}
    (lengths : es.length = e.children.length) (parts : ∀ c ∈ es, c.Each R) :
    Stable.Ready (fun _ _ => True) True R (e.withChildren es) := by
  have rebuilt := writable.rebuilt e es root lengths
  refine ⟨?_, ?_, ?_, ?_⟩
  · rwa [children_withChildren lengths]
  · intro _ _ _ _
    trivial
  · intro enough
    apply writable.crowd _ rebuilt
    intro cls operands same
    exact enough cls operands same trivial
  · intro cls operands same _
    exact writable.filled cls operands (same ▸ rebuilt)

/-- Simplification keeps the property, whatever the types of operands are. -/
theorem simplify (writable : Writable Q R) {e : Expr} (each : e.Each Q) :
    e.simplify.Each Q := by
  have settled : e.simplify.EachOf (fun _ _ => True) R e.type := by
    refine writable.stable.eachOf_simplify (P := Q) ?_ each
    intro e es root parts
    have below : ∀ c ∈ es, c.Each R := forall_of_forall₂ parts fun _ _ suits => suits.1
    exact writable.ready root parts.length_eq.symm below
  exact settled.1.mono writable.weaker

theorem each_bool (writable : Writable Q R) (value : Bool) : (Expr.bool value).Each Q :=
  each_leaf (writable.weaker _ (writable.stable.boolean value)) rfl

theorem each_not (writable : Writable Q R) {e : Expr} (each : e.Each Q) :
    (Expr.not none e).Each Q :=
  each_unary (writable.weaker _ (writable.stable.negated e trivial)) each rfl

theorem each_junction (writable : Writable Q R) {op : Junction} {es : List Expr}
    (filled : es ≠ []) (all : ∀ e ∈ es, e.Each Q) : (junction none op es).Each Q := by
  have own := writable.stable.joined op es filled fun _ _ => trivial
  exact each_iff.mpr ⟨writable.weaker _ own, all⟩

/-! ### Lists of networks -/

theorem each_permits (writable : Writable Q R) {subject : Expr} (below : subject.Each Q)
    {lines : List ListLine} (valid : ∀ line ∈ lines, line.isValid = true) {earlier : List Expr}
    (before : ∀ e ∈ earlier, e.Each Q) :
    ∀ e ∈ ListLine.permits subject earlier lines, e.Each Q := by
  refine ListLine.forall_permits (fun line member => ?_) (fun e each => writable.each_not each)
    (fun es filled each => writable.each_junction filled each) before
  exact each_unary (writable.ranged subject line.range (valid line member)) below rfl

theorem each_condition (writable : Writable Q R) {lines : List ListLine} {subject e : Expr}
    (below : subject.Each Q) (found : ListLine.condition lines subject = .ok e) : e.Each Q := by
  unfold ListLine.condition at found
  split at found
  · cases found
  · rename_i none
    have valid : ∀ line ∈ lines, line.isValid = true := by
      intro line member
      simpa using List.find?_eq_none.mp none line member
    split at found
    · cases found
      exact writable.each_bool false
    · rename_i filled
      cases found
      apply writable.simplify
      exact writable.each_junction filled (writable.each_permits below valid nofun)

end Writable

/-- An operator that reaches a literal is ready for the rules over crowded parts. -/
theorem Foldable.ready {e : Expr} (foldable : Foldable e) {es : List Expr}
    (lengths : es.length = e.children.length) (parts : ∀ c ∈ es, c.Each Crowded) :
    Stable.Ready (fun _ _ => True) True Crowded (e.withChildren es) :=
  foldable_writable.ready foldable lengths parts

/-- Simplification leaves no union that is empty, whatever the types of operands are. -/
theorem simplify_foldable {e : Expr} (each : e.Each Foldable) : e.simplify.Each Foldable :=
  foldable_writable.simplify each

/-! ### Expressions -/

theorem inlineAll_ok {defs : Definitions} {es xs : List Expr} :
    inlineAll defs es = .ok xs ↔ List.Forall₂ (fun e x => e.inline defs = .ok x) es xs := by
  induction es generalizing xs with
  | nil => simp [inlineAll, eq_comm]
  | cons e rest ih =>
      simp only [inlineAll, Outcome.bind_ok, List.forall₂_cons_left_iff, Except.ok.injEq]
      constructor
      · rintro ⟨x, value, others, later, rfl⟩
        exact ⟨x, others, value, ih.mp later, rfl⟩
      · rintro ⟨x, others, value, later, rfl⟩
        exact ⟨x, value, others, ih.mpr later, rfl⟩

/-- Writing out definitions in an operator is writing them out in its operands. -/
theorem inline_isOperator {defs : Definitions} {e : Expr} (operator : e.isOperator = true) :
    e.inline defs = inlineAll defs e.children >>= fun xs => .ok (e.withChildren xs) := by
  cases e with
  | junction _ _ _ | union _ _ => rfl
  | compare _ _ _ _ | not _ _ | prepend _ _ _ | hasCommunity _ _ _ | inRanges _ _ _ _ =>
      simp only [inline, inlineAll, children, bind_assoc]
      rfl
  | lit _ _ | attr _ _ | call _ _ | adjust _ _ _ | namedSet _ _ | unsupported _ _
  | inList _ _ _ _ => cases operator

theorem inline_operator {defs : Definitions} {e x : Expr} (operator : e.isOperator = true)
    (done : e.inline defs = .ok x) :
    ∃ xs, List.Forall₂ (fun c y => c.inline defs = .ok y) e.children xs ∧
      x = e.withChildren xs := by
  rw [inline_isOperator operator] at done
  obtain ⟨xs, found, same⟩ := Outcome.bind_ok.mp done
  cases same
  exact ⟨xs, inlineAll_ok.mp found, rfl⟩

theorem inlineAll_congr {defs other : Definitions} {es : List Expr}
    (same : ∀ e ∈ es, e.inline defs = e.inline other) : inlineAll defs es = inlineAll other es := by
  induction es with
  | nil => rfl
  | cons e rest ih =>
    obtain ⟨here, later⟩ := List.forall_mem_cons.mp same
    rw [inlineAll, inlineAll, here, ih later]

/-- What definitions are written out depends on what is found under each name. -/
theorem inline_congr {defs other : Definitions} (alike : defs.Alike other) (e : Expr) :
    e.inline defs = e.inline other := by
  induction e using childrenInduction with
  | step e ih =>
    by_cases operator : e.isOperator = true
    · rw [inline_isOperator operator, inline_isOperator operator, inlineAll_congr ih]
    · cases e with
      | inList cls subject name setCls =>
        rw [inline, inline, alike.lists, ih subject (List.mem_singleton_self subject)]
      | namedSet cls name => rw [inline, inline, alike.sets]
      | lit _ _ | attr _ _ | call _ _ | adjust _ _ _ | unsupported _ _ => rfl
      | _ => exact absurd rfl operator

/-- What an expression becomes when definitions are written out: they are in the operands of an
operator, a name is replaced, and all else stays. -/
inductive Inlines (defs : Definitions) : Expr → Expr → Prop
  | operator {e : Expr} {xs : List Expr} (operator : e.isOperator = true)
      (parts : List.Forall₂ (fun c y => c.inline defs = .ok y) e.children xs) :
      Inlines defs e (e.withChildren xs)
  | list {cls setCls : Spelling} {name : String} {lines : List ListLine} {subject y x : Expr}
      (found : defs.lists.get? name = some lines) (inlined : subject.inline defs = .ok y)
      (condition : ListLine.condition lines y = .ok x) :
      Inlines defs (inList cls subject name setCls) x
  | set {cls : Spelling} {name : String} {x : Expr} (found : defs.sets.get? name = some x) :
      Inlines defs (namedSet cls name) x
  | leaf {e : Expr} (leaf : e.isOperator = false) (nameless : e.ownReference? = none) :
      Inlines defs e e

theorem children_of_nameless_leaf {e : Expr} (leaf : e.isOperator = false)
    (nameless : e.ownReference? = none) : e.children = [] := by
  cases e <;> first | rfl | (cases leaf; done) | cases nameless

theorem inlines_of_inline {defs : Definitions} {e x : Expr} (done : e.inline defs = .ok x) :
    Inlines defs e x := by
  by_cases operator : e.isOperator = true
  · obtain ⟨xs, parts, rfl⟩ := inline_operator operator done
    exact .operator operator parts
  · cases e with
    | inList cls subject name setCls =>
        simp only [inline] at done
        split at done
        · cases done
        · rename_i lines found
          obtain ⟨y, inlined, condition⟩ := Outcome.bind_ok.mp done
          exact .list found inlined condition
    | namedSet cls name =>
        simp only [inline] at done
        split at done
        · cases done
        · rename_i set found
          cases done
          exact .set found
    | lit _ _ | attr _ _ | call _ _ | adjust _ _ _ | unsupported _ _ =>
        cases done
        exact .leaf rfl rfl
    | _ => exact absurd rfl operator

theorem Writable.inline {Q R : Expr → Prop} (writable : Writable Q R) {defs : Definitions}
    (sets : defs.sets.All (·.Each Q)) {e x : Expr} (each : e.Each Q)
    (done : e.inline defs = .ok x) : x.Each Q := by
  induction e using childrenInduction generalizing x with
  | step e ih =>
    cases inlines_of_inline done with
    | operator operator parts =>
        have lengths := parts.length_eq.symm
        rw [each_iff, children_withChildren lengths]
        refine ⟨writable.rebuilt _ _ each.root lengths, ?_⟩
        refine forall₂_right parts
          (P := fun c => ∀ {y}, c.inline defs = .ok y → y.Each Q) ?_ ?_
        · intro c member y known
          exact ih c member (each.child member) known
        · intro c y known value
          exact known value
    | @list _ _ _ _ subject _ _ found inlined condition =>
        have member := List.mem_singleton_self subject
        exact writable.each_condition (ih _ member (each.child member) inlined) condition
    | set found => exact sets.get? found
    | leaf _ _ => exact each

end Expr

namespace Statement

variable {defs : Definitions}

theorem inlineAll_ok {block xs : List Statement} (done : inlineAll defs block = .ok xs) :
    List.Forall₂ (fun s x => s.inline defs = .ok x) block xs := by
  induction block generalizing xs with
  | nil =>
      cases done
      exact .nil
  | cons s rest ih =>
      obtain ⟨first, own, done⟩ := Outcome.bind_ok.mp done
      obtain ⟨others, later, same⟩ := Outcome.bind_ok.mp done
      cases same
      exact .cons own (ih later)

mutual

theorem inline_congr {other : Definitions} (alike : defs.Alike other) (s : Statement) :
    s.inline defs = s.inline other := by
  cases s with
  | branch cls guard onTrue onFalse comment =>
    rw [inline, inline, guard.inline_congr alike, inlineAll_congr alike onTrue,
      inlineAll_congr alike onFalse]
  | assign cls target value => rw [inline, inline, value.inline_congr alike]
  | finish cls disposition => rfl

theorem inlineAll_congr {other : Definitions} (alike : defs.Alike other) (block : List Statement) :
    inlineAll defs block = inlineAll other block := by
  cases block with
  | nil => rfl
  | cons s rest => rw [inlineAll, inlineAll, inline_congr alike s, inlineAll_congr alike rest]

end

/-- A property that inlined blocks have statement by statement. -/
theorem forall_inlineAll {P P' : Statement → Prop} {block xs : List Statement}
    (all : ∀ s ∈ block, P s) (step : ∀ s ∈ block, ∀ x, P s → s.inline defs = .ok x → P' x)
    (done : inlineAll defs block = .ok xs) : ∀ x ∈ xs, P' x := by
  refine forall₂_right (inlineAll_ok done) (P := fun s => s ∈ block) (fun _ h => h) ?_
  intro s x member own
  exact step s member x (all s member) own

theorem every_inline {Q R : Expr → Prop} (writable : Expr.Writable Q R)
    (sets : defs.sets.All (·.Each Q)) (s : Statement) {x : Statement}
    (every : s.Every fun _ e => e.Each Q) (done : s.inline defs = .ok x) :
    x.Every fun _ e => e.Each Q := by
  cases s with
  | branch cls guard onTrue onFalse comment =>
      obtain ⟨guardEach, trueEvery, falseEvery⟩ := every
      rw [everyAll_iff] at trueEvery falseEvery
      obtain ⟨guard', ownGuard, done⟩ := Outcome.bind_ok.mp done
      obtain ⟨onTrue', ownTrue, done⟩ := Outcome.bind_ok.mp done
      obtain ⟨onFalse', ownFalse, same⟩ := Outcome.bind_ok.mp done
      cases same
      refine ⟨writable.inline sets guardEach ownGuard, everyAll_iff.mpr ?_, everyAll_iff.mpr ?_⟩
      · exact forall_inlineAll trueEvery
          (fun s member x own => every_inline writable sets s own) ownTrue
      · exact forall_inlineAll falseEvery
          (fun s member x own => every_inline writable sets s own) ownFalse
  | assign cls target value =>
      obtain ⟨value', own, same⟩ := Outcome.bind_ok.mp done
      cases same
      exact writable.inline sets every own
  | finish cls disposition =>
      cases done
      trivial

theorem everyAll_inlineAll {Q R : Expr → Prop} (writable : Expr.Writable Q R)
    (sets : defs.sets.All (·.Each Q)) {block xs : List Statement}
    (every : EveryAll (fun _ e => e.Each Q) block) (done : inlineAll defs block = .ok xs) :
    EveryAll (fun _ e => e.Each Q) xs := by
  rw [everyAll_iff] at every ⊢
  exact forall_inlineAll every (fun s _ x own => every_inline writable sets s own) done

end Statement

theorem Policy.name_inline {defs : Definitions} {p x : Policy} (done : p.inline defs = .ok x) :
    x.name = p.name := by
  obtain ⟨statements, -, same⟩ := Outcome.bind_ok.mp done
  cases same
  rfl

theorem Policy.inline_congr {defs other : Definitions} (alike : defs.Alike other) (p : Policy) :
    p.inline defs = p.inline other := by
  rw [inline, inline, Statement.inlineAll_congr alike]

/-- A policy keeps what its nodes have when definitions that have it are written out. -/
theorem Policy.everyAll_inline {Q R : Expr → Prop} (writable : Expr.Writable Q R)
    {defs : Definitions} (sets : defs.sets.All (·.Each Q)) {p x : Policy}
    (every : Statement.EveryAll (fun _ e => e.Each Q) p.statements)
    (done : p.inline defs = .ok x) : Statement.EveryAll (fun _ e => e.Each Q) x.statements := by
  obtain ⟨statements, inlined, same⟩ := Outcome.bind_ok.mp done
  cases same
  exact Statement.everyAll_inlineAll writable sets every inlined

end RoutePolicy
