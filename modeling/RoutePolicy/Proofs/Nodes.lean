import Mathlib.Data.List.Forall2
import RoutePolicy.Evaluation

/-!
Expressions as trees: every expression is its operator over its direct parts, and what holds of all
nodes holds of the root and of all nodes of the parts.
-/

set_option autoImplicit false

namespace RoutePolicy

section

variable {α β : Type} {R S : α → β → Prop} {as : List α} {bs : List β}

/-- What follows for the items of two lists follows for the lists. -/
theorem forall₂_of_mem (related : List.Forall₂ R as bs)
    (each : ∀ a ∈ as, ∀ b ∈ bs, R a b → S a b) : List.Forall₂ S as bs := by
  induction related with
  | nil => exact .nil
  | cons first _ ih =>
    refine .cons (each _ List.mem_cons_self _ List.mem_cons_self first) (ih fun a inAs b inBs => ?_)
    exact each a (List.mem_cons_of_mem _ inAs) b (List.mem_cons_of_mem _ inBs)

theorem exists_of_forall₂ (related : List.Forall₂ R as bs) {a : α} (member : a ∈ as) :
    ∃ b ∈ bs, R a b := by
  induction related with
  | nil => cases member
  | cons first _ ih =>
    rcases List.mem_cons.mp member with rfl | later
    · exact ⟨_, List.mem_cons_self, first⟩
    · obtain ⟨b, inside, own⟩ := ih later
      exact ⟨b, List.mem_cons_of_mem _ inside, own⟩

/-- Two lists have the same images if their items have. -/
theorem map_eq_iff_forall₂ {γ : Type} {f : α → γ} {g : β → γ} :
    as.map f = bs.map g ↔ List.Forall₂ (fun a b => f a = g b) as bs := by
  rw [← List.forall₂_eq_eq_eq, List.forall₂_map_left_iff, List.forall₂_map_right_iff]

end

/-- What goes with each pair of items of two lists, as a list. -/
theorem exists_forall₂ {α β γ : Type} {R : α → β → Prop} {S : α → γ → Prop} {T : β → γ → Prop}
    {as : List α} {bs : List β} (related : List.Forall₂ R as bs)
    (each : ∀ a ∈ as, ∀ b, R a b → ∃ c, S a c ∧ T b c) :
    ∃ cs, List.Forall₂ S as cs ∧ List.Forall₂ T bs cs := by
  induction related with
  | nil => exact ⟨[], .nil, .nil⟩
  | cons first _ ih =>
      obtain ⟨here, later⟩ := List.forall_mem_cons.mp each
      obtain ⟨c, left, right⟩ := here _ first
      obtain ⟨cs, lefts, rights⟩ := ih later
      exact ⟨c :: cs, .cons left lefts, .cons right rights⟩

/-- The same for each item of one list. -/
theorem exists_forall₂_of_mem {α γ : Type} {S T : α → γ → Prop} {as : List α}
    (each : ∀ a ∈ as, ∃ c, S a c ∧ T a c) :
    ∃ cs, List.Forall₂ S as cs ∧ List.Forall₂ T as cs := by
  have itself : List.Forall₂ Eq as as := List.forall₂_same.mpr fun _ _ => rfl
  refine exists_forall₂ itself fun a member _ same => ?_
  cases same
  exact each a member

namespace Expr

/-- The operator of an expression over other parts. Parts that do not suit the operator are
ignored. -/
def withChildren : Expr → List Expr → Expr
  | junction cls op _, es => junction cls op es
  | union cls _, es => union cls es
  | not cls _, [e] => not cls e
  | prepend cls asns _, [e] => prepend cls asns e
  | compare cls comparator _ _, [left, right] => compare cls comparator left right
  | hasCommunity cls _ community, [e] => hasCommunity cls e community
  | inRanges cls _ ranges setCls, [e] => inRanges cls e ranges setCls
  | inList cls _ name setCls, [e] => inList cls e name setCls
  | e, _ => e

theorem sizeOf_children {e child : Expr} (member : child ∈ e.children) :
    sizeOf child < sizeOf e := by
  cases e with
  | junction cls op operands =>
      have smaller := List.sizeOf_lt_of_mem (show child ∈ operands from member)
      simp only [junction.sizeOf_spec]
      omega
  | union cls operands =>
      have smaller := List.sizeOf_lt_of_mem (show child ∈ operands from member)
      simp only [union.sizeOf_spec]
      omega
  | compare cls comparator left right =>
      simp only [children, List.mem_cons, List.not_mem_nil, or_false] at member
      rcases member with rfl | rfl
      · simp only [compare.sizeOf_spec]
        omega
      · simp only [compare.sizeOf_spec]
        omega
  | not _ _ | prepend _ _ _ | hasCommunity _ _ _ | inRanges _ _ _ _ | inList _ _ _ _ =>
      simp only [children, List.mem_singleton] at member
      subst member
      simp
      try omega
  | lit _ _ | attr _ _ | call _ _ | adjust _ _ _ | namedSet _ _ | unsupported _ _ =>
      simp [children] at member

/-- What passes from the parts of an expression to the expression holds of all expressions. -/
theorem childrenInduction {P : Expr → Prop} (step : ∀ e, (∀ c ∈ e.children, P c) → P e)
    (e : Expr) : P e := by
  apply step
  intro c member
  exact childrenInduction step c
termination_by sizeOf e
decreasing_by exact sizeOf_children member

/-- As many parts as the operator takes replace the parts. -/
theorem children_withChildren {e : Expr} {es : List Expr} (fits : es.length = e.children.length) :
    (e.withChildren es).children = es := by
  cases e with
  | junction _ _ _ | union _ _ => rfl
  | compare _ _ _ _ =>
      obtain ⟨left, right, rfl⟩ := List.length_eq_two.mp fits
      rfl
  | not _ _ | prepend _ _ _ | hasCommunity _ _ _ | inRanges _ _ _ _ | inList _ _ _ _ =>
      obtain ⟨operand, rfl⟩ := List.length_eq_one_iff.mp fits
      rfl
  | lit _ _ | attr _ _ | call _ _ | adjust _ _ _ | namedSet _ _ | unsupported _ _ =>
      exact (List.length_eq_zero_iff.mp fits).symm

/-- Parts that have been replaced do not matter. -/
theorem withChildren_withChildren {e : Expr} {es others : List Expr}
    (fits : es.length = e.children.length) (fit : others.length = es.length) :
    (e.withChildren es).withChildren others = e.withChildren others := by
  cases e with
  | compare _ _ _ _ =>
      obtain ⟨_, _, rfl⟩ := List.length_eq_two.mp fits
      obtain ⟨_, _, rfl⟩ := List.length_eq_two.mp fit
      rfl
  | not _ _ | prepend _ _ _ | hasCommunity _ _ _ | inRanges _ _ _ _ | inList _ _ _ _ =>
      obtain ⟨_, rfl⟩ := List.length_eq_one_iff.mp fits
      obtain ⟨_, rfl⟩ := List.length_eq_one_iff.mp fit
      rfl
  | _ => rfl

theorem nodesAll_eq (es : List Expr) : nodesAll es = es.flatMap nodes := by
  induction es with
  | nil => rfl
  | cons e rest ih => simp only [nodesAll, ih, List.flatMap_cons]

theorem nodes_eq (e : Expr) : e.nodes = e :: e.children.flatMap nodes := by
  cases e <;> simp [nodes, children, nodesAll_eq]

/-- A property of the root and of every node below it. -/
def Each (P : Expr → Prop) (e : Expr) : Prop := ∀ x ∈ e.nodes, P x

instance (P : Expr → Prop) [DecidablePred P] (e : Expr) : Decidable (e.Each P) :=
  inferInstanceAs (Decidable (∀ x ∈ e.nodes, P x))

theorem each_iff {P : Expr → Prop} {e : Expr} :
    e.Each P ↔ P e ∧ ∀ c ∈ e.children, c.Each P := by
  simp only [Each, nodes_eq e, List.forall_mem_cons, List.mem_flatMap]
  constructor
  · rintro ⟨root, below⟩
    exact ⟨root, fun c member x inside => below x ⟨c, member, inside⟩⟩
  · rintro ⟨root, below⟩
    exact ⟨root, fun x ⟨c, member, inside⟩ => below c member x inside⟩

theorem Each.root {P : Expr → Prop} {e : Expr} (each : e.Each P) : P e := by
  rw [each_iff] at each
  exact each.1

theorem Each.child {P : Expr → Prop} {e c : Expr} (each : e.Each P) (member : c ∈ e.children) :
    c.Each P := by
  rw [each_iff] at each
  exact each.2 c member

theorem Each.mono {P Q : Expr → Prop} {e : Expr} (each : e.Each P) (weaker : ∀ x, P x → Q x) :
    e.Each Q := by
  intro x member
  exact weaker x (each x member)

theorem settle_of_simple {e : Expr} (simple : e.simplifyNode = e) : settle e = e := by
  unfold settle
  rw [simple, ite_self]

theorem simplifyAll_eq (es : List Expr) : simplifyAll es = es.map simplify := by
  induction es with
  | nil => rfl
  | cons e rest ih => simp only [simplifyAll, ih, List.map_cons]

/-- Simplification settles the operator over simplified parts. -/
theorem simplify_eq (e : Expr) :
    e.simplify = settle (e.withChildren (e.children.map simplify)) := by
  cases e with
  | junction _ _ _ | union _ _ => simp [simplify, children, withChildren, simplifyAll_eq]
  | compare _ _ _ _ | not _ _ | prepend _ _ _ | hasCommunity _ _ _ | inRanges _ _ _ _
  | inList _ _ _ _ => simp [simplify, children, withChildren]
  | lit _ _ | attr _ _ | call _ _ | adjust _ _ _ | namedSet _ _ | unsupported _ _ =>
      exact (settle_of_simple rfl).symm

end Expr

end RoutePolicy
