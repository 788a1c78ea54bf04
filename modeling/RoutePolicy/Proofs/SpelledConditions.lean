import RoutePolicy.Proofs.ConditionKeys
import RoutePolicy.Proofs.RunInvariants
import RoutePolicy.Proofs.Spelling

/-!
Where spellings of class names can get into conditions. Evaluation drops the spellings of all nodes
but of comparisons, integers and malformed networks; if policies write these with their short names,
so are all conditions, and they have one key with their spellings and without.
-/

set_option autoImplicit false

namespace RoutePolicy

open Encoding

namespace Expr

/-! ### Short names -/

/-- The class of the set that a match names. -/
def setCls : Expr → Spelling
  | inRanges _ _ _ setCls | inList _ _ _ setCls => setCls
  | _ => none

/-- A node of the vocabulary that is written with the short names of its classes. -/
structure Short (e : Expr) : Prop where
  supported : e.isSupported = true
  own : spelled e.cls e.writtenTag.name = .str e.writtenTag.name
  set : e.setCls = none

theorem writeExpr_bare {e : Expr} (short : e.Each Short) : writeExpr e.bare = writeExpr e := by
  induction e using childrenInduction with
  | step e ih =>
    have parts : (e.children.map bare).map writeExpr = e.children.map writeExpr := by
      rw [List.map_map]
      exact List.map_congr_left fun c member => ih c member (short.child member)
    obtain ⟨supported, own, set⟩ := short.root
    have plain : ∀ name, spelled none name = .str name := fun _ => rfl
    cases e with
    | junction cls op operands =>
        cases op <;>
        · simp only [Expr.cls, writtenTag, children] at own parts
          simp only [bare, bareAll_eq, writeExpr, writeExprs_eq, own, plain, parts]
    | union cls operands =>
        simp only [Expr.cls, writtenTag, children] at own parts
        simp only [bare, bareAll_eq, writeExpr, writeExprs_eq, own, plain, parts]
    | lit cls l =>
        cases l <;>
        · simp only [Expr.cls, writtenTag] at own
          simp only [bare, writeExpr, writeLiteral, own, plain]
    | adjust cls shift amount =>
        cases shift <;>
        · simp only [Expr.cls, writtenTag] at own
          simp only [bare, writeExpr, own, plain]
    | inRanges cls subject ranges setCls | inList cls subject name setCls =>
        obtain rfl : setCls = none := set
        simp only [Expr.cls, writtenTag, children, List.map_cons, List.map_nil, List.cons.injEq,
          and_true] at own parts
        simp only [bare, writeExpr, own, plain, parts]
    | compare _ _ _ _ | not _ _ | prepend _ _ _ | hasCommunity _ _ _ =>
        simp only [Expr.cls, writtenTag, children, List.map_cons, List.map_nil, List.cons.injEq,
          and_true] at own parts
        simp only [bare, writeExpr, own, plain, parts]
    | attr _ _ | call _ _ | namedSet _ _ =>
        simp only [Expr.cls, writtenTag] at own
        simp only [bare, writeExpr, own, plain]
    | unsupported _ _ => rfl

theorem short_of_plain {e : Expr} (supported : e.isSupported = true) (cls : e.cls = none)
    (set : e.setCls = none) : e.Short :=
  ⟨supported, by rw [cls]; rfl, set⟩

/-- No rule takes a class name along to a new node. -/
theorem short_stable : Stable type (fun _ _ => True) False Short where
  own _ := trivial
  operator _ _ _ := rfl
  constant _ _ := rfl
  part _ _ _ _ _ _ _ := trivial
  room _ _ _ impossible := impossible.elim
  boolean _ := short_of_plain rfl rfl rfl
  set _ _ := short_of_plain rfl rfl rfl
  path _ _ := short_of_plain rfl rfl rfl
  negated _ _ := short_of_plain rfl rfl rfl
  joined op _ _ _ := by cases op <;> exact short_of_plain rfl rfl rfl
  united _ _ _ := short_of_plain rfl rfl rfl
  matched _ _ _ _ := short_of_plain rfl rfl rfl
  ranged _ _ _ _ := short_of_plain rfl rfl rfl
  prepended _ _ _ _ := short_of_plain rfl rfl rfl

theorem writtenTag_withChildren (e : Expr) (es : List Expr) :
    (e.withChildren es).writtenTag = e.writtenTag := by
  cases e with
  | junction cls op operands => cases op <;> rfl
  | _ =>
      unfold withChildren
      split <;> first | rfl | contradiction

theorem cls_withChildren (e : Expr) (es : List Expr) : (e.withChildren es).cls = e.cls := by
  unfold withChildren
  split <;> rfl

theorem setCls_withChildren (e : Expr) (es : List Expr) :
    (e.withChildren es).setCls = e.setCls := by
  unfold withChildren
  split <;> rfl

theorem Short.withChildren {e : Expr} (short : e.Short) (es : List Expr) :
    (e.withChildren es).Short where
  supported := (isSupported_withChildren e es).trans short.supported
  own := by rw [cls_withChildren, writtenTag_withChildren, short.own]
  set := (setCls_withChildren e es).trans short.set

/-- Simplification keeps names short. -/
theorem short_simplify {e : Expr} (short : e.Each Short) : e.simplify.Each Short := by
  refine (short_stable.eachOf_simplify (fun e es own related => ?_) short).1
  have parts := forall₂_right related (fun _ _ => trivial) fun _ _ (_ : True) own => own.1
  exact
    { parts := by rwa [children_withChildren related.length_eq.symm]
      suits := fun _ _ _ _ => trivial
      root := fun _ => own.withChildren es
      filled := fun _ _ _ impossible => impossible.elim }

theorem short_junction (op : Junction) {es : List Expr} (short : ∀ e ∈ es, e.Each Short) :
    (junction none op es).Each Short := by
  refine each_iff.mpr ⟨?_, short⟩
  cases op <;> exact short_of_plain rfl rfl rfl

/-! ### Values -/

/-- A node that evaluation passes on with its class name, even where its value matters only to the
truth of a condition. -/
def persists : Expr → Bool
  | compare _ _ _ _ => true
  | lit _ (.int _) => true
  | lit _ (.network text) => (Network.parse? text).isNone
  | _ => false

/-- A node that is passed on is written with the short name of its class. -/
def Plain (e : Expr) : Prop :=
  e.persists = true → spelled e.cls e.writtenTag.name = .str e.writtenTag.name

/-- Without class names of its own, an expression is plain. -/
theorem plain_bare (e : Expr) : e.bare.Each Plain := by
  induction e using childrenInduction with
  | step e ih =>
    refine each_iff.mpr ⟨fun _ => ?_, ?_⟩
    · cases e <;> rfl
    · rw [children_bare]
      exact List.forall_mem_map.mpr ih

/-- A value that is written with short names, or a literal that no condition keeps. -/
def Clean (x : Expr) : Prop := x.Each Short ∨ (x.isLiteral = true ∧ x.persists = false)

section

variable {x : Expr}

theorem Clean.supported (clean : x.Clean) : x.isSupported = true := by
  rcases clean with short | ⟨literal, -⟩
  · exact short.root.supported
  · cases x <;> first | rfl | cases literal

theorem Clean.short_of_bool? (clean : x.Clean) (typed : x.type = .boolean)
    (undecided : x.bool? = none) : x.Each Short := by
  rcases clean with short | ⟨literal, -⟩
  · exact short
  · obtain ⟨value, constant⟩ := (LiteralOf.of_type literal typed).bool?
    rw [undecided] at constant
    cases constant

theorem Clean.short_of_communities? (clean : x.Clean) (typed : x.type = .communities)
    (undecided : x.communities? = none) : x.Each Short := by
  rcases clean with short | ⟨literal, -⟩
  · exact short
  · obtain ⟨value, constant⟩ := (LiteralOf.of_type literal typed).communities?
    rw [undecided] at constant
    cases constant

theorem Clean.short_of_integer (clean : x.Clean) (typed : x.type = .integer) : x.Each Short := by
  rcases clean with short | ⟨literal, lost⟩
  · exact short
  · obtain ⟨cls, l, rfl, same⟩ := LiteralOf.of_type literal typed
    cases l <;> cases same
    cases lost

end

/-! ### Evaluation -/

theorem each_eachOf {e : Expr} (short : e.Each Short) (expected : ValueType) :
    e.EachOf (fun _ _ => True) Short expected :=
  ⟨short, trivial⟩

/-- The parts of clean conditions are constants or written with short names. -/
theorem short_junctionParts {op : Junction} {operand part : Expr} (clean : operand.Clean)
    (typed : operand.type = .boolean) (member : part ∈ junctionParts op operand)
    (undecided : part.bool? = none) : part.Each Short := by
  rcases clean with short | ⟨literal, lost⟩
  · exact (short_stable.eachOf_junctionParts (each_eachOf short .boolean) member).1
  · rw [junctionParts_literal op (LiteralOf.of_type literal typed)] at member
    obtain rfl := List.mem_singleton.mp member
    exact Clean.short_of_bool? (.inr ⟨literal, lost⟩) typed undecided

theorem short_simplifyJunction {op : Junction} {operands : List Expr}
    (clean : ∀ e ∈ operands, e.Clean) (typed : ∀ e ∈ operands, e.type = .boolean) :
    (simplifyJunction op operands).Each Short := by
  have parts : ∀ x ∈ operands.flatMap (junctionParts op), x.bool? = none → x.Each Short := by
    intro x member undecided
    obtain ⟨operand, inside, isPart⟩ := List.mem_flatMap.mp member
    exact short_junctionParts (clean operand inside) (typed operand inside) isPart undecided
  rcases simplifyJunction_form op operands with ⟨value, same⟩ | ⟨kept, own, single | ⟨-, same⟩⟩
  · rw [same]
    exact (short_stable.eachOf_bool value).1
  · obtain ⟨part, undecided⟩ := own _ (single ▸ List.mem_singleton_self _)
    exact parts _ part undecided
  · rw [same]
    exact short_junction op fun x member => parts x (own x member).1 (own x member).2

theorem short_unionParts {operand part : Expr} (clean : operand.Clean)
    (typed : operand.type = .communities) (member : part ∈ unionParts operand)
    (undecided : part.communities? = none) : part.Each Short := by
  rcases clean with short | ⟨literal, lost⟩
  · exact (short_stable.eachOf_unionParts (each_eachOf short .communities) member).1
  · rw [unionParts_literal (LiteralOf.of_type literal typed)] at member
    obtain rfl := List.mem_singleton.mp member
    exact Clean.short_of_communities? (.inr ⟨literal, lost⟩) typed undecided

theorem short_simplifyUnion {operands : List Expr} (clean : ∀ e ∈ operands, e.Clean)
    (typed : ∀ e ∈ operands, e.type = .communities) : (simplifyUnion operands).Each Short := by
  have merged : ∀ x ∈ mergedParts operands, x.Each Short := by
    intro x member
    rcases mem_mergedParts member with ⟨part, undecided⟩ | rfl
    · obtain ⟨operand, inside, isPart⟩ := List.mem_flatMap.mp part
      exact short_unionParts (clean operand inside) (typed operand inside) isPart undecided
    · exact each_leaf (short_of_plain rfl rfl rfl) rfl
  rcases simplifyUnion_form operands with single | ⟨-, same⟩
  · exact merged _ (single ▸ List.mem_singleton_self _)
  · rw [same]
    exact each_iff.mpr ⟨short_of_plain rfl rfl rfl, merged⟩

section

variable {subject : Expr} (clean : subject.Clean)

include clean

theorem clean_negate (typed : subject.type = .boolean) : subject.negate.Clean := by
  rcases clean with short | ⟨literal, -⟩
  · exact .inl (short_stable.eachOf_negate (each_eachOf short .boolean)).1
  · obtain ⟨cls, l, rfl, same⟩ := LiteralOf.of_type literal typed
    cases l <;> cases same
    exact .inl (short_stable.eachOf_bool _).1

theorem clean_simplifyHasCommunity (typed : subject.type = .communities) (community : String) :
    (simplifyHasCommunity subject community).Clean := by
  rcases clean with short | ⟨literal, -⟩
  · exact .inl (short_stable.eachOf_simplifyHasCommunity
      ⟨none, subject, short_of_plain rfl rfl rfl⟩ (each_eachOf short .communities)).1
  · obtain ⟨cls, l, rfl, same⟩ := LiteralOf.of_type literal typed
    cases l <;> cases same
    exact .inl (short_stable.eachOf_bool _).1

theorem clean_simplifyInRanges (typed : subject.type = .network) (ranges : List String) :
    (simplifyInRanges subject ranges).Clean := by
  rcases clean with short | ⟨literal, lost⟩
  · exact .inl (short_stable.eachOf_simplifyInRanges
      ⟨none, subject, none, short_of_plain rfl rfl rfl⟩ (each_eachOf short .network)).1
  · obtain ⟨cls, l, rfl, same⟩ := LiteralOf.of_type literal typed
    cases l <;> cases same
    rename_i text
    obtain ⟨n, parsed⟩ := Option.isSome_iff_exists.mp (Option.isNone_eq_false_iff.mp lost)
    simp only [simplifyInRanges, parsed]
    exact .inl (short_stable.eachOf_bool _).1

theorem clean_simplifyPrepend (typed : subject.type = .asPath) (asns : List Int) :
    (simplifyPrepend asns subject).Clean := by
  rcases clean with short | ⟨literal, lost⟩
  · have held : ∀ asn ∈ asns, ∃ e : Expr, e.Short ∧ asn ∈ e.pathAsns := fun asn member =>
      ⟨.lit none (.asPath asns), short_of_plain rfl rfl rfl, member⟩
    exact .inl (short_stable.eachOf_simplifyPrepend held (each_eachOf short .asPath)).1
  · obtain ⟨cls, l, rfl, same⟩ := LiteralOf.of_type literal typed
    cases l <;> cases same
    unfold simplifyPrepend
    split
    · exact .inr ⟨literal, lost⟩
    · exact .inl (each_leaf (short_of_plain rfl rfl rfl) rfl)

end

/-- The value of a rewritten node over clean operands is clean. -/
theorem clean_simplifyNode {e : Expr} (operator : e.isOperator = true) (plain : e.Plain)
    (fits : e.fitted = true) (clean : ∀ c ∈ e.children, c.Clean) : e.simplifyNode.Clean := by
  have typed : ∀ {expected}, e.operandType? = some expected →
      ∀ c ∈ e.children, c.type = expected := by
    intro expected needed c member
    simp only [fitted, needed, List.all_eq_true] at fits
    exact (fits_iff (clean c member).supported).mp (fits c member)
  cases e with
  | junction cls op operands => exact .inl (short_simplifyJunction clean (typed rfl))
  | union cls operands => exact .inl (short_simplifyUnion clean (typed rfl))
  | not cls operand =>
      have operand := List.forall_mem_singleton.mp clean
      exact clean_negate operand (typed rfl _ (List.mem_singleton_self _))
  | hasCommunity cls subject community =>
      have operand := List.forall_mem_singleton.mp clean
      exact clean_simplifyHasCommunity operand (typed rfl _ (List.mem_singleton_self _)) community
  | inRanges cls subject ranges setCls =>
      have operand := List.forall_mem_singleton.mp clean
      exact clean_simplifyInRanges operand (typed rfl _ (List.mem_singleton_self _)) ranges
  | prepend cls asns operand =>
      have operand := List.forall_mem_singleton.mp clean
      exact clean_simplifyPrepend operand (typed rfl _ (List.mem_singleton_self _)) asns
  | compare cls comparator left right =>
      rw [simplifyNode.eq_def]
      dsimp only
      split
      · exact .inl (short_stable.eachOf_bool _).1
      · refine .inl (each_iff.mpr ⟨⟨rfl, plain rfl, rfl⟩, fun c member => ?_⟩)
        exact (clean c member).short_of_integer (typed rfl c member)
  | _ => cases operator

theorem persists_withChildren (e : Expr) (es : List Expr) :
    (e.withChildren es).persists = e.persists := by
  unfold withChildren
  split <;> rfl

theorem Plain.withChildren {e : Expr} (plain : e.Plain) (es : List Expr) :
    (e.withChildren es).Plain := by
  intro persists
  rw [persists_withChildren] at persists
  rw [cls_withChildren, writtenTag_withChildren, plain persists]

theorem clean_offset (delta : Int) : (offset delta).Clean := by
  unfold offset
  repeat' split
  all_goals exact .inl (each_leaf (short_of_plain rfl rfl rfl) rfl)

/-- A literal that a policy holds is clean. -/
theorem Plain.clean {cls : Spelling} {l : Literal} (plain : (lit cls l).Plain) :
    (lit cls l).Clean := by
  cases persists : (lit cls l).persists with
  | true => exact .inl (each_leaf ⟨rfl, plain persists, rfl⟩ rfl)
  | false => exact .inr ⟨rfl, persists⟩

section

variable [Arithmetic] {calls : Calls} {r : Record}

theorem moved_clean (current : Expr) (delta : Int) : (current.moved delta).Gives False Clean := by
  unfold moved
  split
  · exact .inl (each_leaf (short_of_plain rfl rfl rfl) rfl)
  · exact clean_offset _
  · exact clean_offset _
  · exact False.elim

/-- The values of plain expressions over clean slots are clean. -/
theorem evaluate_clean (answers : calls.Give False (fun _ => Clean) (·.Each Short))
    (record : r.Holds fun _ => Clean) {e : Expr} (plain : e.Each Plain) :
    (e.evaluate calls r).Gives False Clean := by
  induction e using childrenInduction with
  | step e ih =>
    cases operator : e.isOperator with
    | true =>
        rw [evaluate_isOperator operator]
        have parts := evaluateAll_gives (R := fun _ => Clean)
          fun c member => ih c member (plain.child member)
        apply parts.bind
        intro xs values
        have lengths := values.length_eq.symm
        cases combined : (e.withChildren xs).combine with
        | error f => exact False.elim
        | ok x =>
            obtain ⟨fits, rfl⟩ := combine_ok.mp combined
            apply clean_simplifyNode _ (plain.root.withChildren xs) fits
            · rw [children_withChildren lengths]
              exact forall₂_right values (fun _ _ => trivial) fun _ _ (_ : True) clean => clean
            · rwa [isOperator_withChildren]
    | false =>
        cases e with
        | lit cls l => exact plain.root.clean
        | attr cls name => exact record.lookup name
        | call cls policy => exact (answers policy r record).mono fun _ short => .inl short
        | adjust cls shift amount =>
            apply (record.lookup .localPreference).bind
            exact fun current _ => moved_clean current _
        | inList _ _ _ _ | namedSet _ _ | unsupported _ _ => exact False.elim
        | _ => cases operator

/-- Plain expressions have clean values, and the conditions among these are written with short
names. -/
theorem clean_kinds :
    Kinds False (fun _ e => e.Each Plain) (fun _ => Clean) (·.Each Short) where
  value answers record plain := evaluate_clean answers record plain
  constant _ _ _ impossible := impossible.elim
  condition x clean open' := by
    rcases clean with short | ⟨literal, -⟩
    · exact ⟨short, (short_stable.eachOf_negate (each_eachOf short .boolean)).1⟩
    · rw [open'] at literal
      cases literal
  answer paths d conditions := by
    unfold residual
    split
    · exact (short_stable.eachOf_bool false).1
    · apply short_simplify
      apply short_junction .any
      refine List.forall_mem_map.mpr fun path member => short_junction .all ?_
      exact conditions path (List.mem_filter.mp member).1

end

end Expr

end RoutePolicy
