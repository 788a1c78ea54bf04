import RoutePolicy.Proofs.Nodes
import RoutePolicy.Proofs.Tables
import RoutePolicy.Topology.Draft

/-!
Steps of drafting. What a step promises of the surveys it leaves is carried through sequences and
loops; what a successful step has done is told exactly for the steps that others are made of, and for
the one that writes definitions out.
-/

set_option autoImplicit false

namespace RoutePolicy

/-- The steps of a computation with a state that succeeds. -/
theorem run_bind_ok {ε σ α β : Type} {step : ExceptT ε (StateM σ) α}
    {next : α → ExceptT ε (StateM σ) β} {s s' : σ} {b : β} :
    (step >>= next).run.run s = (.ok b, s') ↔
      ∃ a t, step.run.run s = (.ok a, t) ∧ (next a).run.run t = (.ok b, s') := by
  rw [ExceptT.run_bind, StateT.run_bind]
  rcases step.run.run s with ⟨_ | a, t⟩
  · constructor
    · rintro ⟨⟩
    · rintro ⟨_, _, ⟨⟩, _⟩
  · constructor
    · exact fun done => ⟨a, t, rfl, done⟩
    · rintro ⟨_, _, ⟨⟩, done⟩
      exact done

namespace Survey

/-- The survey with another draft of a node. -/
def draftedAs (s : Survey) (name : String) (d : Draft) : Survey :=
  { s with drafts := s.drafts.put name d }

theorem draft_draftedAs (s : Survey) (name key : String) (d : Draft) :
    (s.draftedAs name d).draft key = if name = key then d else s.draft key := by
  unfold draft draftedAs
  rw [Table.get?_put]
  split <;> rfl

theorem draftedAs_twice (s : Survey) (name : String) (d d' : Draft) :
    (s.draftedAs name d).draftedAs name d' = s.draftedAs name d' :=
  congrArg (fun drafts => { s with drafts := drafts }) (s.drafts.put_put name d d')

end Survey

namespace Drafting

/-! ### Promises -/

section

variable {α β : Type} {inv mid last : Survey → Prop} {post : α → Prop} {after : β → Prop}

/-- A step that takes surveys with a property to ones with another, and whose result has a property
when it succeeds. -/
def Takes (inv last : Survey → Prop) (step : Drafting α) (post : α → Prop) : Prop :=
  ∀ s, inv s → ∀ a s', step.run.run s = (.ok a, s') → last s' ∧ post a

/-- A step that keeps an invariant. -/
abbrev Keeps (inv : Survey → Prop) (step : Drafting α) (post : α → Prop) : Prop :=
  Takes inv inv step post

theorem Keeps.pure {a : α} (holds : post a) : Keeps inv (Pure.pure a) post := by
  intro s own b s' done
  cases done
  exact ⟨own, holds⟩

theorem Takes.throw {f : Failure} : Takes inv last (MonadExcept.throw f : Drafting α) post := by
  intro s own b s' done
  cases done

theorem Takes.bind {step : Drafting α} {next : α → Drafting β} (first : Takes inv mid step post)
    (further : ∀ a, post a → Takes mid last (next a) after) :
    Takes inv last (step >>= next) after := by
  intro s own b s' done
  rw [ExceptT.run_bind, StateT.run_bind] at done
  rcases ran : step.run.run s with ⟨result, between⟩
  rw [ran] at done
  cases result with
  | error f => cases done
  | ok a =>
      obtain ⟨kept, holds⟩ := first s own a between ran
      exact further a holds between kept b s' done

theorem Keeps.lift {r : Outcome α} : Keeps inv (Drafting.lift r) fun a => r = .ok a := by
  cases r with
  | ok a => exact Keeps.pure rfl
  | error f => exact Takes.throw

/-- A step that reads the survey goes on from the survey that it has read. -/
theorem Takes.get_bind {next : Survey → Drafting β}
    (further : ∀ s, inv s → Takes (fun s' => s' = s) last (next s) after) :
    Takes inv last (MonadState.get >>= next) after := by
  intro s own b s' done
  exact further s own s rfl b s' done

theorem Keeps.get : Keeps inv (MonadState.get : Drafting Survey) inv := by
  intro s own a s' done
  cases done
  exact ⟨own, own⟩

theorem Takes.modify {change : Survey → Survey} (taken : ∀ s, inv s → last (change s)) :
    Takes inv last (modify change : Drafting Unit) fun _ => True := by
  intro s own a s' done
  cases done
  exact ⟨taken s own, trivial⟩

theorem Takes.of_exists {ι : Type} {I : ι → Survey → Prop} {step : Drafting α}
    (each : ∀ i, Takes (I i) last step post) : Takes (fun s => ∃ i, I i s) last step post :=
  fun s ⟨i, own⟩ => each i s own

theorem Takes.assuming {fact : Prop} {step : Drafting α} (taken : fact → Takes inv last step post) :
    Takes (fun s => inv s ∧ fact) last step post :=
  fun s ⟨own, known⟩ => taken known s own

theorem Takes.weaken {step : Drafting α} (taken : Takes mid last step post)
    (weaker : ∀ s, inv s → mid s) : Takes inv last step post :=
  fun s own => taken s (weaker s own)

/-- What holds of the items that are done holds of all in the end. -/
theorem Takes.forEach {I : List α → Survey → Prop} {step : Nat → α → Drafting Unit}
    {items : List α} {i : Nat} (done : List α) (each : ∀ i done, ∀ item ∈ items,
      Takes (I done) (I (done ++ [item])) (step i item) fun _ => True) :
    Takes (I done) (I (done ++ items)) (Drafting.forEach step i items) fun _ => True := by
  induction items generalizing done i with
  | nil =>
      rw [List.append_nil]
      exact Keeps.pure trivial
  | cons item rest ih =>
      apply Takes.bind (each i done item List.mem_cons_self)
      intro _ _
      rw [List.append_cons done item rest]
      apply ih
      intro j done other member
      exact each j done other (List.mem_cons_of_mem item member)

theorem Keeps.forEach {step : Nat → α → Drafting Unit} {items : List α} {i : Nat}
    (each : ∀ i, ∀ item ∈ items, Keeps inv (step i item) fun _ => True) :
    Keeps inv (Drafting.forEach step i items) fun _ => True :=
  Takes.forEach (I := fun _ => inv) [] fun i _ => each i

end

/-! ### Successful steps -/

section

variable {α β : Type} {s s' : Survey}

theorem run_lift_bind_ok {r : Outcome α} {next : α → Drafting β} {b : β} :
    (lift r >>= next).run.run s = (.ok b, s') ↔
      ∃ a, r = .ok a ∧ (next a).run.run s = (.ok b, s') := by
  cases r with
  | error f =>
    constructor
    · rintro ⟨⟩
    · rintro ⟨_, ⟨⟩, _⟩
  | ok a =>
    constructor
    · exact fun done => ⟨a, rfl, done⟩
    · rintro ⟨_, ⟨⟩, done⟩
      exact done

theorem run_modify_ok {change : Survey → Survey} {a : Unit} :
    (modify change : Drafting Unit).run.run s = (.ok a, s') ↔ s' = change s := by
  constructor
  · rintro ⟨⟩
    rfl
  · rintro rfl
    rfl

theorem run_throw_ok {f : Failure} {a : α} :
    ¬(throw f : Drafting α).run.run s = (.ok a, s') := nofun

end

theorem touch_update (name : String) (change : Draft → Draft) :
    (do touch name; update name change) = update name change := by
  funext s
  have whole : (s.draftedAs name (s.draft name)).draftedAs name
      (change ((s.draftedAs name (s.draft name)).draft name)) =
        s.draftedAs name (change (s.draft name)) := by
    rw [Survey.draft_draftedAs, if_pos rfl, Survey.draftedAs_twice]
  exact congrArg (fun t => (Except.ok (), t)) whole

/-! ### Definitions -/

/-- A draft with its definitions written out. -/
def WritesOut (entry written : String × Draft) : Prop :=
  written.1 = entry.1 ∧ ∃ policies,
    inlinePolicies entry.1 entry.2.definitions entry.2.policies = .ok policies ∧
      written.2 = { entry.2 with policies := policies }

theorem inlineDraft_ok {i : Nat} {name : String} {d : Draft} {s s' : Survey}
    (own : s.draft name = d) : (inlineDraft i (name, d)).run.run s = (.ok (), s') ↔
      ∃ e, WritesOut (name, d) (name, e) ∧ s' = s.draftedAs name e := by
  unfold inlineDraft update
  simp only [run_lift_bind_ok, run_modify_ok, own, WritesOut, true_and]
  constructor
  · rintro ⟨policies, done, rfl⟩
    exact ⟨_, ⟨policies, done, rfl⟩, rfl⟩
  · rintro ⟨_, ⟨policies, done, rfl⟩, rfl⟩
    exact ⟨policies, done, rfl⟩

/-- The induction is on the drafts that are left; `first` has those that are done. -/
theorem inlineDrafts_rest {i : Nat} {first rest : Table Draft} {s s' : Survey}
    (distinct : (Table.names (first ++ rest)).Nodup) (held : s.drafts = first ++ rest) :
    (forEach inlineDraft i rest).run.run s = (.ok (), s') ↔
      ∃ written, List.Forall₂ WritesOut rest written ∧
        s' = { s with drafts := first ++ written } := by
  induction rest generalizing i first s with
  | nil =>
    have same : s = { s with drafts := first ++ [] } := by rw [← held]
    constructor
    · rintro ⟨⟩
      exact ⟨[], .nil, same⟩
    · rintro ⟨_, ⟨⟩, rfl⟩
      exact congrArg (Prod.mk _) same
  | cons entry rest ih =>
    obtain ⟨name, d⟩ := entry
    have own : s.draft name = d := by
      have listed : (name, d) ∈ first ++ (name, d) :: rest := by simp
      rw [Survey.draft, held, Table.get?_of_mem distinct listed]
      rfl
    have fresh : name ∉ first.names := by
      rw [Table.names, List.map_append, List.nodup_append] at distinct
      exact fun member => distinct.2.2 name member name (by simp) rfl
    have put : ∀ e, s.drafts.put name e = first ++ [(name, e)] ++ rest := by
      intro e
      rw [held, Table.put_append fresh, Table.put, if_pos rfl, List.append_cons]
    have further : ∀ e, (forEach inlineDraft (i + 1) rest).run.run (s.draftedAs name e) =
        (.ok (), s') ↔ ∃ written, List.Forall₂ WritesOut rest written ∧
          s' = { s with drafts := first ++ (name, e) :: written } := by
      intro e
      have names : (Table.names (first ++ [(name, e)] ++ rest)).Nodup := by
        simpa [Table.names] using distinct
      simpa [Survey.draftedAs] using ih names (put e)
    rw [forEach, run_bind_ok]
    constructor
    · rintro ⟨_, t, here, later⟩
      obtain ⟨e, writes, rfl⟩ := (inlineDraft_ok own).mp here
      obtain ⟨written, related, rfl⟩ := (further e).mp later
      exact ⟨(name, e) :: written, .cons writes related, rfl⟩
    · rintro ⟨_, related, rfl⟩
      obtain ⟨⟨key, e⟩, written, writes, others, rfl⟩ := List.forall₂_cons_left_iff.mp related
      obtain rfl : key = name := writes.1
      refine ⟨(), _, (inlineDraft_ok own).mpr ⟨e, writes, rfl⟩, ?_⟩
      exact (further e).mpr ⟨written, others, rfl⟩

/-- Definitions are written out in every draft, where it stands. -/
theorem inlineDrafts_ok {s s' : Survey} (distinct : s.drafts.names.Nodup) :
    (forEach inlineDraft 0 s.drafts).run.run s = (.ok (), s') ↔
      ∃ written, List.Forall₂ WritesOut s.drafts written ∧ s' = { s with drafts := written } :=
  @inlineDrafts_rest 0 [] s.drafts s s' distinct rfl

theorem names_written {drafts written : Table Draft}
    (related : List.Forall₂ WritesOut drafts written) : written.names = drafts.names := by
  rw [Table.names, Table.names, map_eq_iff_forall₂]
  exact related.flip.imp fun _ _ writes => writes.1

/-- Every draft has its definitions written out, also the empty one of a node that is not known. -/
theorem draft_written {s : Survey} {written : Table Draft}
    (related : List.Forall₂ WritesOut s.drafts written) (name : String) : ∃ policies,
      inlinePolicies name (s.draft name).definitions (s.draft name).policies = .ok policies ∧
        Survey.draft { s with drafts := written } name =
          { s.draft name with policies := policies } := by
  unfold Survey.draft
  dsimp only
  generalize s.drafts = drafts at related ⊢
  induction related with
  | nil => exact ⟨[], rfl, rfl⟩
  | @cons entry out rest others writes _ ih =>
    obtain ⟨key, d⟩ := entry
    obtain ⟨key', e⟩ := out
    obtain ⟨rfl : key' = key, policies, done, rfl⟩ := writes
    rw [Table.get?, Table.get?]
    by_cases own : key' = name
    · subst own
      rw [if_pos rfl, if_pos rfl]
      exact ⟨policies, done, rfl⟩
    · rw [if_neg own, if_neg own]
      exact ih

end Drafting

theorem Topology.ofTables_ok {keep : Bool} {raw : Json} {t : Topology} :
    (ofTables keep raw).1 = .ok t ↔
      ∃ s, (Drafting.topology keep raw).run.run .empty = (.ok t, s) := by
  unfold ofTables
  rcases (Drafting.topology keep raw).run.run .empty with ⟨result, s⟩
  exact ⟨fun same => ⟨s, congrArg (·, s) same⟩, fun ⟨_, same⟩ => congrArg Prod.fst same⟩

end RoutePolicy
