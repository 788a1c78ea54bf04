import RoutePolicy.Proofs.InlinedExpressions

/-!
Policies with definitions written out. Statements stay as they are but for their guards and assigned
values, each of which has the value that the definitions give to it.
-/

set_option autoImplicit false

namespace RoutePolicy

variable {defs : Definitions} {R : Expr → Expr → Prop}

namespace Statement

/-! ### Statements that differ in expressions only -/

/-- Statements that differ in guards and assigned values only, and in them as a relation says. -/
inductive Aligned (R : Expr → Expr → Prop) : Statement → Statement → Prop
  | branch {cls : Spelling} {guard guard' : Expr} {onTrue onTrue' onFalse onFalse' : List Statement}
      {comment : Comment} (guards : R guard guard')
      (whenTrue : List.Forall₂ (Aligned R) onTrue onTrue')
      (whenFalse : List.Forall₂ (Aligned R) onFalse onFalse') :
      Aligned R (.branch cls guard onTrue onFalse comment) (.branch cls guard' onTrue' onFalse' comment)
  | assign {cls : Spelling} {target : Settable} {value value' : Expr} (values : R value value') :
      Aligned R (.assign cls target value) (.assign cls target value')
  | finish {cls : Spelling} {disposition : Disposition} :
      Aligned R (.finish cls disposition) (.finish cls disposition)

mutual

theorem Aligned.exprs (s : Statement) {x : Statement} (aligned : s.Aligned R x) :
    List.Forall₂ R s.exprs x.exprs := by
  cases aligned with
  | @branch cls guard _ onTrue _ onFalse _ _ guards whenTrue whenFalse =>
      exact .cons guards (List.rel_append (forall₂_exprsAll onTrue whenTrue)
        (forall₂_exprsAll onFalse whenFalse))
  | assign values => exact .cons values .nil
  | finish => exact .nil

theorem forall₂_exprsAll (block : List Statement) {xs : List Statement}
    (aligned : List.Forall₂ (Aligned R) block xs) :
    List.Forall₂ R (exprsAll block) (exprsAll xs) := by
  cases aligned with
  | nil => exact .nil
  | @cons s _ rest _ first others =>
      exact List.rel_append (Aligned.exprs s first) (forall₂_exprsAll rest others)

end

/-! ### Definitions written out -/

/-- Definitions are written out in guards and assigned values, and nothing else changes. -/
theorem aligned_inline (related : ∀ e x, e.inline defs = .ok x → R e x) (s : Statement)
    {x : Statement} (done : s.inline defs = .ok x) : s.Aligned R x := by
  cases s with
  | branch cls guard onTrue onFalse comment =>
      obtain ⟨guard', ownGuard, done⟩ := Outcome.bind_ok.mp done
      obtain ⟨onTrue', ownTrue, done⟩ := Outcome.bind_ok.mp done
      obtain ⟨onFalse', ownFalse, same⟩ := Outcome.bind_ok.mp done
      cases same
      refine .branch (related guard guard' ownGuard) ?_ ?_
      · exact forall₂_of_mem (inlineAll_ok ownTrue) fun s member y _ own =>
          aligned_inline related s own
      · exact forall₂_of_mem (inlineAll_ok ownFalse) fun s member y _ own =>
          aligned_inline related s own
  | assign cls target value =>
      obtain ⟨value', own, same⟩ := Outcome.bind_ok.mp done
      cases same
      exact .assign (related value value' own)
  | finish cls disposition =>
      cases done
      exact .finish

theorem forall₂_inlineAll (related : ∀ e x, e.inline defs = .ok x → R e x)
    {block xs : List Statement} (done : inlineAll defs block = .ok xs) :
    List.Forall₂ (Aligned R) block xs :=
  forall₂_of_mem (inlineAll_ok done) fun s _ _ _ own => aligned_inline related s own

mutual

/-- Definitions cannot be written out in a statement because they cannot in some expression. -/
theorem inline_failed (s : Statement) {f : Failure} (failed : s.inline defs = .error f) :
    ∃ e ∈ s.exprs, e.inline defs = .error f := by
  cases s with
  | branch cls guard onTrue onFalse comment =>
      simp only [exprs, List.exists_mem_cons_iff, List.mem_append]
      rcases Outcome.bind_error.mp failed with own | ⟨_, -, failed⟩
      · exact .inl own
      rcases Outcome.bind_error.mp failed with inside | ⟨_, -, failed⟩
      · obtain ⟨e, member, own⟩ := inlineAll_failed onTrue inside
        exact .inr ⟨e, .inl member, own⟩
      rcases Outcome.bind_error.mp failed with inside | ⟨_, -, impossible⟩
      · obtain ⟨e, member, own⟩ := inlineAll_failed onFalse inside
        exact .inr ⟨e, .inr member, own⟩
      · cases impossible
  | assign cls target value =>
      rcases Outcome.bind_error.mp failed with own | ⟨_, -, impossible⟩
      · exact ⟨value, List.mem_singleton_self value, own⟩
      · cases impossible
  | finish cls disposition => cases failed

theorem inlineAll_failed (block : List Statement) {f : Failure}
    (failed : inlineAll defs block = .error f) :
    ∃ e ∈ exprsAll block, e.inline defs = .error f := by
  cases block with
  | nil => cases failed
  | cons s rest =>
      simp only [exprsAll, List.mem_append]
      rcases Outcome.bind_error.mp failed with own | ⟨_, -, failed⟩
      · obtain ⟨e, member, own⟩ := inline_failed s own
        exact ⟨e, .inl member, own⟩
      rcases Outcome.bind_error.mp failed with later | ⟨_, -, impossible⟩
      · obtain ⟨e, member, own⟩ := inlineAll_failed rest later
        exact ⟨e, .inr member, own⟩
      · cases impossible

end

end Statement

/-! ### Policies -/

namespace Policy

variable {p x : Policy}

theorem mem_references {named : Reference} :
    named ∈ p.references ↔ ∃ e ∈ Statement.exprsAll p.statements, named ∈ e.references :=
  List.mem_flatMap

/-- Definitions cannot be written out in a policy because a name in it has none. -/
theorem inline_failed (valid : defs.Valid) {f : Failure} (failed : p.inline defs = .error f) :
    ∃ named ∈ p.references, defs.has named = false ∧ f = .reference named.undefined := by
  rcases Outcome.bind_error.mp failed with failed | ⟨_, -, impossible⟩
  · obtain ⟨e, among, own⟩ := Statement.inlineAll_failed p.statements failed
    obtain ⟨named, inside, missing⟩ := Expr.inline_failed valid own
    exact ⟨named, mem_references.mpr ⟨e, among, inside⟩, missing⟩
  · cases impossible

theorem forall₂_inline (related : ∀ e x, e.inline defs = .ok x → R e x)
    (done : p.inline defs = .ok x) :
    List.Forall₂ (Statement.Aligned R) p.statements x.statements := by
  obtain ⟨statements, inlined, same⟩ := Outcome.bind_ok.mp done
  cases same
  exact Statement.forall₂_inlineAll related inlined

theorem has_of_inline (done : p.inline defs = .ok x) :
    ∀ named ∈ p.references, defs.has named = true := by
  intro named member
  obtain ⟨e, among, inside⟩ := mem_references.mp member
  have exprs := Statement.forall₂_exprsAll p.statements (forall₂_inline (fun _ _ own => own) done)
  obtain ⟨y, -, own⟩ := exists_of_forall₂ exprs among
  exact Expr.has_of_inline own named inside

theorem references_inline (literals : defs.sets.All (·.communities?.isSome = true))
    (done : p.inline defs = .ok x) : x.references = [] := by
  have exprs := Statement.forall₂_exprsAll p.statements
    (forall₂_inline (fun _ _ => Expr.references_inline literals) done)
  refine List.flatMap_eq_nil_iff.mpr fun y among => ?_
  obtain ⟨e, -, nameless⟩ := exists_of_forall₂ exprs.flip among
  exact nameless

end Policy

end RoutePolicy
