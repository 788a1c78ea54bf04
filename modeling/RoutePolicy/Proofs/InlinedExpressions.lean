import RoutePolicy.Proofs.FirstMatch
import RoutePolicy.Proofs.SimplifiedReferences

/-!
Expressions with definitions written out. Only a name without a definition stands in the way, at any
depth: also in what another name is asked about. No name is left, and the value is that of the
expression before, if its names are read as the definitions say.
-/

set_option autoImplicit false

namespace RoutePolicy

namespace Definitions

/-- Definitions whose lists have valid ranges and whose sets are literals. -/
structure Valid (defs : Definitions) : Prop where
  ranges : defs.lists.All fun lines => ∀ line ∈ lines, line.isValid = true
  literals : defs.sets.All (·.communities?.isSome = true)

/-- Names that mean what the definitions say: a list permits what its first match does, a set has the
members of its literal. Names without a definition mean what they did. -/
def reading (defs : Definitions) (names : Names) : Names where
  accepts := names.accepts
  members name := ((defs.sets.get? name).bind Expr.communities?).elim (names.members name)
    List.toFinset
  permits name v := ((defs.lists.get? name).map (ListLine.admitsValue · v)).getD
    (names.permits name v)

variable {defs : Definitions} {name : String}

theorem reading_members (names : Names) {cls : Spelling} {members : List String}
    (found : defs.sets.get? name = some (.lit cls (.communities members))) :
    (defs.reading names).members name = members.toFinset := by
  unfold reading
  dsimp only
  rw [found]
  rfl

theorem reading_permits (names : Names) {lines : List ListLine}
    (found : defs.lists.get? name = some lines) (v : Value) :
    (defs.reading names).permits name v = ListLine.admitsValue lines v := by
  unfold reading
  dsimp only
  rw [found]
  rfl

end Definitions

namespace Expr

variable {defs : Definitions}

theorem exists_of_communities? {e : Expr} (constant : e.communities?.isSome = true) :
    ∃ cls members, e = .lit cls (.communities members) := by
  unfold communities? at constant
  split at constant
  · exact ⟨_, _, rfl⟩
  · cases constant

/-! ### Names without a definition -/

theorem inlineAll_failed {es : List Expr} {f : Failure} (failed : inlineAll defs es = .error f) :
    ∃ e ∈ es, e.inline defs = .error f := by
  induction es with
  | nil => cases failed
  | cons e rest ih =>
      rcases Outcome.bind_error.mp failed with own | ⟨_, -, later⟩
      · exact ⟨e, List.mem_cons_self, own⟩
      · rcases Outcome.bind_error.mp later with failed | ⟨_, -, impossible⟩
        · obtain ⟨c, member, own⟩ := ih failed
          exact ⟨c, List.mem_cons_of_mem e member, own⟩
        · cases impossible

/-- Definitions cannot be written out because a name has none. -/
theorem inline_failed (valid : defs.Valid) {e : Expr} {f : Failure}
    (failed : e.inline defs = .error f) :
    ∃ named ∈ e.references, defs.has named = false ∧ f = .reference named.undefined := by
  induction e using childrenInduction with
  | step e ih =>
    have below : ∀ c ∈ e.children, c.inline defs = .error f →
        ∃ named ∈ e.references, defs.has named = false ∧ f = .reference named.undefined := by
      intro c member own
      obtain ⟨named, inside, missing⟩ := ih c member own
      exact ⟨named, mem_references_of_child member inside, missing⟩
    by_cases operator : e.isOperator = true
    · rw [inline_isOperator operator] at failed
      rcases Outcome.bind_error.mp failed with failed | ⟨_, -, impossible⟩
      · obtain ⟨c, member, own⟩ := inlineAll_failed failed
        exact below c member own
      · cases impossible
    · cases e with
      | inList cls subject name setCls =>
          simp only [inline] at failed
          split at failed
          · rename_i missing
            cases failed
            have absent : defs.has (.list name) = false := by simp [Definitions.has, Table.has, missing]
            exact ⟨_, mem_references.mpr (.inl rfl), absent, rfl⟩
          · rename_i lines found
            rcases Outcome.bind_error.mp failed with own | ⟨_, -, refused⟩
            · exact below subject (List.mem_singleton_self _) own
            · obtain ⟨line, member, invalid, -⟩ := ListLine.condition_refused refused
              rw [valid.ranges.get? found line member] at invalid
              cases invalid
      | namedSet cls name =>
          simp only [inline] at failed
          split at failed
          · rename_i missing
            cases failed
            have absent : defs.has (.set name) = false := by simp [Definitions.has, Table.has, missing]
            exact ⟨_, mem_references.mpr (.inl rfl), absent, rfl⟩
          · cases failed
      | lit _ _ | attr _ _ | call _ _ | adjust _ _ _ | unsupported _ _ => cases failed
      | _ => exact absurd rfl operator

/-- Every name has a definition, at any depth, where definitions are written out. -/
theorem has_of_inline {e x : Expr} (done : e.inline defs = .ok x) :
    ∀ named ∈ e.references, defs.has named = true := by
  induction e using childrenInduction generalizing x with
  | step e ih =>
    intro named member
    rcases mem_references.mp member with own | ⟨c, child, inside⟩
    · cases inlines_of_inline done with
      | operator operator _ => cases (naming_reference.operator e operator).symm.trans own
      | list found _ _ =>
          cases own
          exact Option.isSome_iff_exists.mpr ⟨_, found⟩
      | set found =>
          cases own
          exact Option.isSome_iff_exists.mpr ⟨_, found⟩
      | leaf _ nameless => cases nameless.symm.trans own
    · cases inlines_of_inline done with
      | operator _ parts =>
          obtain ⟨y, -, inlined⟩ := exists_of_forall₂ parts child
          exact ih c child inlined named inside
      | list _ inlined _ =>
          obtain rfl := List.mem_singleton.mp child
          exact ih c child inlined named inside
      | set _ => cases child
      | leaf leaf nameless =>
          rw [children_of_nameless_leaf leaf nameless] at child
          cases child

/-! ### No names are left -/

/-- A node that is no name. -/
abbrev Nameless : Expr → Prop := NamesIn ownReference? fun _ => False

theorem references_eq_nil {e : Expr} : e.references = [] ↔ e.Each Nameless :=
  List.eq_nil_iff_forall_not_mem.trans each_namesIn.symm

theorem nameless_of_none {e : Expr} (none : e.ownReference? = none) : Nameless e := by
  intro named own
  rw [none] at own
  cases own

theorem nameless_of_operator {e : Expr} (operator : e.isOperator = true) : Nameless e :=
  nameless_of_none (naming_reference.operator e operator)

theorem each_nameless_condition {lines : List ListLine} {subject e : Expr}
    (below : subject.Each Nameless) (found : ListLine.condition lines subject = .ok e) :
    e.Each Nameless := by
  have parts := ListLine.eachOf_permits naming_reference.stable below
    (fun _ => nameless_of_operator rfl) lines
  rw [ListLine.condition_of_valid (ListLine.valid_of_condition found)] at found
  cases found
  refine naming_reference.each_simplify (each_iff.mpr ⟨nameless_of_operator rfl, ?_⟩)
  exact fun c member => (parts c member).1

theorem each_nameless_inline (literals : defs.sets.All (·.Each Nameless)) {e x : Expr}
    (done : e.inline defs = .ok x) : x.Each Nameless := by
  induction e using childrenInduction generalizing x with
  | step e ih =>
    cases inlines_of_inline done with
    | @operator _ xs operator parts =>
        have own : Nameless (e.withChildren xs) :=
          nameless_of_none ((naming_reference.rebuilt e xs).trans
            (naming_reference.operator e operator))
        rw [each_iff, children_withChildren parts.length_eq.symm]
        refine ⟨own, fun y member => ?_⟩
        obtain ⟨c, child, inlined⟩ := exists_of_forall₂ parts.flip member
        exact ih c child inlined
    | list _ inlined condition =>
        exact each_nameless_condition (ih _ (List.mem_singleton_self _) inlined) condition
    | set found => exact literals.get? found
    | leaf leaf nameless =>
        exact each_leaf (nameless_of_none nameless) (children_of_nameless_leaf leaf nameless)

/-- An expression with definitions written out has no names. -/
theorem references_inline (literals : defs.sets.All (·.communities?.isSome = true)) {e x : Expr}
    (done : e.inline defs = .ok x) : x.references = [] := by
  refine references_eq_nil.mpr (each_nameless_inline (fun entry member => ?_) done)
  obtain ⟨cls, members, same⟩ := exists_of_communities? (literals entry member)
  rw [same]
  exact each_leaf (nameless_of_none rfl) rfl

/-- An expression that has no names stays as it is. -/
theorem inline_nameless {e x : Expr} (nameless : e.references = []) (done : e.inline defs = .ok x) :
    x = e := by
  induction e using childrenInduction generalizing x with
  | step e ih =>
    have each := references_eq_nil.mp nameless
    cases inlines_of_inline done with
    | @operator _ xs operator parts =>
        have same : e.children = xs := by
          rw [← List.forall₂_eq_eq_eq]
          refine forall₂_of_mem parts fun c member y _ inlined => ?_
          exact (ih c member (references_eq_nil.mpr (each.child member)) inlined).symm
        rw [← same, withChildren_children]
    | list _ _ _ => exact (each.root _ rfl).elim
    | set _ => exact (each.root _ rfl).elim
    | leaf _ _ => rfl

/-! ### Values -/

/-- Definitions written out in a well-typed expression leave it one of the same type. -/
theorem eachOf_inline (valid : defs.Valid) {e x : Expr} (proper : e.Each Proper)
    (done : e.inline defs = .ok x) : x.EachOf HasType Proper e.type := by
  induction e using childrenInduction generalizing x with
  | step e ih =>
    cases inlines_of_inline done with
    | @operator _ xs operator parts =>
        obtain ⟨types, each⟩ := types_eq_of_forall₂ (forall₂_of_mem parts
          fun c member y _ inlined => ih c member (proper.child member) inlined)
        exact ⟨proper_typed.each_withChildren proper.root types each, type_withChildren e xs⟩
    | @list _ _ _ _ subject y _ found inlined condition =>
        have member := List.mem_singleton_self subject
        have operand := proper.child member
        have network : subject.type = .network := proper.root.hasType operand.root rfl member
        have typed : y.type = subject.type := (ih subject member operand inlined).2
        exact ListLine.eachOf_condition (typed.trans network) condition
    | set found =>
        obtain ⟨own, members, rfl⟩ := exists_of_communities? (valid.literals.get? found)
        exact ⟨each_leaf ⟨rfl, rfl⟩ rfl, rfl⟩
    | leaf _ _ => exact ⟨proper, rfl⟩

/-- Where a list is asked about something, that is well typed: what is not has no value. -/
def Asking (e : Expr) : Prop :=
  ∀ cls subject name setCls, e = inList cls subject name setCls → subject.Each Proper

theorem asking_of_proper {e : Expr} (proper : e.Each Proper) : e.Each Asking := by
  induction e using childrenInduction with
  | step e ih =>
    refine each_iff.mpr ⟨?_, fun c member => ih c member (proper.child member)⟩
    rintro cls subject name setCls rfl
    exact proper.child (List.mem_singleton_self subject)

/-- The value of an operator depends on what names mean by the values of its operands only. -/
theorem value_isOperator {names names' : Names} {route : Route} {e : Expr}
    (operator : e.isOperator = true) {xs : List Expr}
    (equal : xs.map (value names route) = e.children.map (value names' route)) :
    (e.withChildren xs).value names route = e.value names' route := by
  have lengths : xs.length = e.children.length := by simpa using congrArg List.length equal
  cases e with
  | junction _ _ _ | union _ _ =>
      simp only [withChildren, value, values_eq]
      rw [equal]
      rfl
  | compare _ _ _ _ =>
      obtain ⟨left, right, rfl⟩ := List.length_eq_two.mp lengths
      simp only [children, List.map_cons, List.map_nil, List.cons.injEq, and_true] at equal
      simp only [withChildren, value, equal]
  | not _ _ | prepend _ _ _ | hasCommunity _ _ _ | inRanges _ _ _ _ =>
      obtain ⟨operand, rfl⟩ := List.length_eq_one_iff.mp lengths
      simp only [children, List.map_cons, List.map_nil, List.cons.injEq, and_true] at equal
      simp only [withChildren, value, equal]
  | lit _ _ | attr _ _ | call _ _ | adjust _ _ _ | namedSet _ _ | unsupported _ _
  | inList _ _ _ _ => cases operator

/-- An expression with definitions written out has the value that the definitions give to it. -/
theorem value_inline (valid : defs.Valid) {e x : Expr} (asking : e.Each Asking)
    (done : e.inline defs = .ok x) (names : Names) (route : Route) :
    x.value names route = e.value (defs.reading names) route := by
  induction e using childrenInduction generalizing x with
  | step e ih =>
    cases inlines_of_inline done with
    | @operator _ xs operator parts =>
        refine value_isOperator operator ?_
        rw [map_eq_iff_forall₂]
        refine (forall₂_of_mem parts fun c member y _ inlined => ?_).flip
        exact ih c member (asking.child member) inlined
    | @list cls setCls name lines subject y _ found inlined condition =>
        have proper := asking.root cls subject name setCls rfl
        have member := List.mem_singleton_self subject
        rw [ListLine.value_condition (eachOf_inline valid proper inlined).1 condition, value,
          defs.reading_permits names found, ih subject member (asking.child member) inlined]
    | @set cls name _ found =>
        obtain ⟨own, members, rfl⟩ := exists_of_communities? (valid.literals.get? found)
        rw [value, value, defs.reading_members names found]
        rfl
    | leaf leaf nameless => cases e <;> first | rfl | (cases leaf; done) | cases nameless

/-- What comes of an expression when definitions are written out: it has no names, at every route it
has the value that the definitions give to the expression, and it is the expression itself if that
has no names. -/
structure Resolves (defs : Definitions) (e x : Expr) : Prop where
  nameless : x.references = []
  unchanged : e.references = [] → x = e
  value : e.Each Asking → ∀ names route,
    x.value names route = e.value (defs.reading names) route

theorem resolves_inline (valid : defs.Valid) (e x : Expr) (done : e.inline defs = .ok x) :
    Resolves defs e x :=
  ⟨references_inline valid.literals done, fun nameless => inline_nameless nameless done,
    fun asking => value_inline valid asking done⟩

end Expr

end RoutePolicy
