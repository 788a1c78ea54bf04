import RoutePolicy.Proofs.LegiblePolicies
import RoutePolicy.Proofs.ParsedValues
import RoutePolicy.Proofs.SimplifiedPolicies
import RoutePolicy.Proofs.UnknownClasses

/-!
Policies that documents can hold. What is read from a value that was parsed is such a policy, and
neither writing definitions out nor simplification leads out of them.
-/

set_option autoImplicit false

namespace RoutePolicy

open Encoding

namespace Expr

/-- A well-formed node, networks having their length. -/
def Formed (e : Expr) : Prop := e.WellFormed fun text => (Network.parseWithLength? text).isSome

/-- A node as documents hold it: what it keeps whole is a value of documents. -/
structure Stored (e : Expr) : Prop where
  formed : e.WellFormed fun text => (Network.parseWithLength? text).isSome
  held : ∀ tag raw, e = unsupported tag raw → raw.Held

theorem Stored.of_supported {e : Expr} (formed : e.WellFormed fun text =>
    (Network.parseWithLength? text).isSome) (supported : e.isSupported = true) : e.Stored := by
  refine ⟨formed, ?_⟩
  rintro tag raw rfl
  cases supported

theorem Formed.new {e : Expr} (plain : e.cls = none)
    (admissible : e.Admissible fun text => (Network.parseWithLength? text).isSome) : e.Formed := by
  refine ⟨?_, admissible⟩
  rw [plain]
  exact Spelling.suits_none _

/-- A node is well formed over other operands if there are as many. -/
theorem Formed.withChildren {e : Expr} (formed : e.Formed) {es : List Expr}
    (lengths : es.length = e.children.length) : (e.withChildren es).Formed := by
  have spelled := formed.spelled
  have admissible := formed.admissible
  have filled : ∀ {operands : List Expr}, operands ≠ [] → es.length = operands.length → es ≠ [] := by
    rintro operands some same rfl
    exact some (List.length_eq_zero_iff.mp same.symm)
  cases e with
  | junction cls op operands =>
    refine ⟨?_, filled admissible lengths⟩
    cases op <;> exact spelled
  | union cls operands => exact ⟨spelled, filled admissible lengths⟩
  | compare cls comparator left right =>
    obtain ⟨_, _, rfl⟩ := List.length_eq_two.mp lengths
    exact ⟨spelled, trivial⟩
  | not _ _ | prepend _ _ _ | hasCommunity _ _ _ | inRanges _ _ _ _ | inList _ _ _ _ =>
    obtain ⟨_, rfl⟩ := List.length_eq_one_iff.mp lengths
    exact ⟨spelled, admissible⟩
  | lit _ _ | attr _ _ | call _ _ | adjust _ _ _ | namedSet _ _ | unsupported _ _ => exact formed

/-! ### Simplification and definitions -/

/-- The integers of a node that a sum can be: a literal, or the amount of an adjustment. -/
def sums : Expr → List Int
  | lit _ (.int value) => [value]
  | adjust _ _ amount => [amount]
  | _ => []

section

variable {Q : Expr → Prop}

theorem areAsns_of_formed (formed : ∀ e, Q e → e.sums = [] → e.Formed) {list : List Int}
    (held : ∀ asn ∈ list, ∃ e, Q e ∧ asn ∈ e.pathAsns) : AreAsns list := by
  intro asn member
  obtain ⟨e, own, listed⟩ := held asn member
  cases e with
  | lit cls l =>
    cases l with
    | asPath list => exact (formed _ own rfl).admissible asn listed
    | _ => cases listed
  | prepend cls list operand => exact (formed _ own rfl).admissible asn listed
  | _ => cases listed

/-- A property of nodes that are well formed, but perhaps for the size of sums, is kept by all rules
if new nodes that are well formed have it. -/
theorem formed_stable
    (new : ∀ e : Expr, e.Formed → e.isSupported = true →
      (∀ cls es, e = union cls es → 2 ≤ es.length) → Q e)
    (formed : ∀ e, Q e → e.sums = [] → e.Formed)
    (room : ∀ cls es, Q (union cls es) → 2 ≤ es.length) :
    Stable type (fun _ _ => True) True Q where
  own _ := trivial
  operator _ _ _ := rfl
  constant _ _ := rfl
  part _ _ _ _ _ _ _ := trivial
  room cls es own _ := room cls es own
  boolean _ := new _ (.new rfl trivial) rfl nofun
  set members held := by
    refine new _ (.new rfl fun text member => ?_) rfl nofun
    obtain ⟨cls, own, holds, inside⟩ := held text member
    exact (formed _ holds rfl).admissible text inside
  path list held := new _ (.new rfl (areAsns_of_formed formed held)) rfl nofun
  negated _ _ := new _ (.new rfl trivial) rfl nofun
  joined _ _ filled _ := new _ (.new rfl filled) rfl nofun
  united es enough _ := by
    refine new _ (.new rfl ?_) rfl (by rintro cls es ⟨⟩; exact enough trivial)
    rintro rfl
    exact absurd (enough trivial) (by decide)
  matched _ _ held _ := by
    obtain ⟨cls, own, holds⟩ := held
    exact new _ (.new rfl (formed _ holds rfl).admissible) rfl nofun
  ranged _ _ held _ := by
    obtain ⟨cls, own, setCls, holds⟩ := held
    exact new _ (.new rfl ⟨Spelling.suits_none _, (formed _ holds rfl).admissible.2⟩) rfl nofun
  prepended list e held _ := new _ (.new rfl (areAsns_of_formed formed held)) rfl nofun

/-- A node as simplification leaves it. -/
structure Merged (Q : Expr → Prop) (e : Expr) : Prop where
  own : Q e
  room : ∀ cls es, e = union cls es → 2 ≤ es.length

/-- Well-formed nodes stay well formed when definitions are written out, and so do all that tell
nodes apart by what they keep whole. -/
theorem formed_writable (known : ∀ e : Expr, e.Formed → e.isSupported = true → Q e)
    (formed : ∀ e, Q e → e.Formed) : Writable Q (Merged Q) where
  stable := formed_stable (fun e own supported room => ⟨known e own supported, room⟩)
    (fun e merged _ => formed e merged.own) fun cls es merged => merged.room cls es rfl
  weaker _ := Merged.own
  crowd _ own room := ⟨own, room⟩
  filled _ _ own := (formed _ own).admissible
  rebuilt e es own lengths := by
    cases supported : e.isSupported with
    | true =>
      refine known _ ((formed e own).withChildren lengths) ?_
      rw [isSupported_withChildren, supported]
    | false =>
      have leaf : e.operandType? = none := by
        cases e <;> first | rfl | cases supported
      rwa [withChildren_of_leaf leaf]
  ranged e text valid := by
    refine known _ (.new rfl ⟨Spelling.suits_none _, ?_⟩) rfl
    simpa using valid

end

theorem stored_writable : Writable Stored (Merged Stored) :=
  formed_writable (fun _ => Stored.of_supported) fun _ => Stored.formed

end Expr

namespace Statement

theorem spelled_inline {defs : Definitions} (s : Statement) {x : Statement} (spelled : s.Spelled)
    (done : s.inline defs = .ok x) : x.Spelled := by
  cases s with
  | branch cls guard onTrue onFalse comment =>
    obtain ⟨own, trueSpelled, falseSpelled⟩ := spelled
    rw [spelledAll_iff] at trueSpelled falseSpelled
    obtain ⟨guard', -, done⟩ := Outcome.bind_ok.mp done
    obtain ⟨onTrue', ownTrue, done⟩ := Outcome.bind_ok.mp done
    obtain ⟨onFalse', ownFalse, same⟩ := Outcome.bind_ok.mp done
    cases same
    refine ⟨own, spelledAll_iff.mpr ?_, spelledAll_iff.mpr ?_⟩
    · exact forall_inlineAll trueSpelled (fun s _ x own => spelled_inline s own) ownTrue
    · exact forall_inlineAll falseSpelled (fun s _ x own => spelled_inline s own) ownFalse
  | assign cls target value =>
    obtain ⟨value', -, same⟩ := Outcome.bind_ok.mp done
    cases same
    exact spelled
  | finish cls disposition =>
    cases done
    exact spelled

mutual

theorem spelledAll_simplify (s : Statement) (spelled : s.Spelled) : SpelledAll s.simplify := by
  cases s with
  | finish cls disposition | assign cls target value => exact ⟨spelled, trivial⟩
  | branch cls guard onTrue onFalse comment =>
    obtain ⟨own, trueSpelled, falseSpelled⟩ := spelled
    have inTrue := spelledAll_simplifyAll onTrue trueSpelled
    have inFalse := spelledAll_simplifyAll onFalse falseSpelled
    rw [simplify]
    split
    · split
      · exact inTrue
      · exact inFalse
    · split
      · exact inTrue
      · exact ⟨⟨own, inTrue, inFalse⟩, trivial⟩

theorem spelledAll_simplifyAll (block : List Statement) (spelled : SpelledAll block) :
    SpelledAll (simplifyAll block) := by
  cases block with
  | nil => trivial
  | cons s rest =>
    have first := spelledAll_iff.mp (spelledAll_simplify s spelled.1)
    have later := spelledAll_iff.mp (spelledAll_simplifyAll rest spelled.2)
    rw [simplifyAll, spelledAll_iff]
    intro x member
    exact List.forall_mem_append.mpr ⟨first, later⟩ x ((cutAfterEnd_sublist _).subset member)

end

end Statement

/-- A policy as documents hold it. -/
structure Policy.Stored (p : Policy) : Prop where
  spelled : Statement.SpelledAll p.statements
  exprs : Statement.EveryAll (fun _ e => e.Each Expr.Stored) p.statements

namespace Policy

variable {p : Policy}

theorem Stored.wellFormed (stored : p.Stored) :
    p.WellFormed fun text => (Network.parseWithLength? text).isSome where
  spelled := stored.spelled
  exprs := stored.exprs.mono fun _ _ each => each.mono fun _ => Expr.Stored.formed

theorem Stored.legible (stored : p.Stored) : p.Legible :=
  stored.wellFormed.legible (stored.exprs.mono fun _ _ each => each.mono fun _ => Expr.Stored.held)

theorem Stored.inline {defs : Definitions} (stored : p.Stored)
    (sets : defs.sets.All (·.Each Expr.Stored)) {x : Policy} (done : p.inline defs = .ok x) :
    x.Stored := by
  refine ⟨?_, Policy.everyAll_inline Expr.stored_writable sets stored.exprs done⟩
  obtain ⟨statements, inlined, same⟩ := Outcome.bind_ok.mp done
  cases same
  exact Statement.spelledAll_iff.mpr <| Statement.forall_inlineAll
    (Statement.spelledAll_iff.mp stored.spelled) (fun s _ x own => Statement.spelled_inline s own)
    inlined

theorem Stored.simplify (stored : p.Stored) : p.simplify.Stored where
  spelled := Statement.spelledAll_simplifyAll p.statements stored.spelled
  exprs := by
    have keeps : ∀ (_ : ValueType) (e : Expr), e.Each Expr.Stored → e.simplify.Each Expr.Stored :=
      fun _ _ => Expr.stored_writable.simplify
    exact Statement.everyAll_simplifyAll keeps p.statements stored.exprs

end Policy

/-! ### Reading -/

theorem Json.parsed_hereditary : Json.Hereditary Json.Parsed where
  null := ⟨nofun, trivial⟩
  items _ parsed := Json.held_arr.mp parsed
  members _ parsed := (Json.held_obj.mp parsed).2

namespace Encoding

variable {keep : Bool} {G : Json → Prop} {ms : Table Json}

theorem spelling_suits {name short : String} (cls : ms.get? "class" = some (.str name))
    (known : short = lastSegment name) : (spelling ms).Suits short := by
  rw [spelling_eq cls]
  split
  · exact Spelling.suits_none _
  · rename_i qualified
    rintro _ ⟨⟩
    exact ⟨known.symm, known ▸ qualified⟩

/-- An expression that is read from a value with the property `G`. -/
def ReadFrom (G : Json → Prop) (keep : Bool) (e : Expr) : Prop :=
  ∃ value, G value ∧ readExpr keep value = .ok e

theorem Child.readFrom {key : String} {e : Expr} (child : Child keep ms key e) (own : ms.All G) :
    ReadFrom G keep e := by
  obtain ⟨value, found, read⟩ := child
  exact ⟨value, own.get? found, read⟩

theorem Operands.readFrom (hereditary : Json.Hereditary G) {key : String} {es : List Expr}
    (operands : Operands keep ms key es) (own : ms.All G) : ∀ e ∈ es, ReadFrom G keep e := by
  obtain ⟨-, items, found, related⟩ := operands
  refine forall₂_right related (hereditary.items items (own.get? found)) ?_
  exact fun item e own read => ⟨item, own, read⟩

/-- An object of a known class encodes a well-formed node, and what the values of the object have,
have those that the operands are read from. -/
theorem encodes_formed (hereditary : Json.Hereditary G) {tag : ExprTag} {name : String} {e : Expr}
    (own : ms.All G) (cls : ms.get? "class" = some (.str name)) (known : tag.name = lastSegment name)
    (encodes : Encodes keep ms tag e) :
    e.Formed ∧ ∀ c ∈ e.children, ReadFrom G keep c := by
  have suits := spelling_suits cls known
  cases tag with
  | boolean | ref | call | namedSet =>
    obtain ⟨_, -, rfl⟩ := encodes
    exact ⟨⟨suits, trivial⟩, nofun⟩
  | integer | communities | address | network | asPath =>
    obtain ⟨_, valid, rfl⟩ := encodes
    exact ⟨⟨suits, valid.2⟩, nofun⟩
  | increment | decrement =>
    obtain ⟨_, ⟨nonnegative, whole⟩, rfl⟩ := encodes
    exact ⟨⟨suits, nonnegative, whole.2⟩, nofun⟩
  | all | any | union =>
    obtain ⟨_, operands, rfl⟩ := encodes
    exact ⟨⟨suits, operands.1⟩, operands.readFrom hereditary own⟩
  | not =>
    obtain ⟨_, operand, rfl⟩ := encodes
    exact ⟨⟨suits, trivial⟩, List.forall_mem_singleton.mpr (operand.readFrom own)⟩
  | compare =>
    obtain ⟨_, -, _, left, _, right, rfl⟩ := encodes
    refine ⟨⟨suits, trivial⟩, ?_⟩
    exact List.forall_mem_cons.mpr
      ⟨left.readFrom own, List.forall_mem_singleton.mpr (right.readFrom own)⟩
  | hasCommunity | prepend =>
    obtain ⟨_, valid, _, operand, rfl⟩ := encodes
    exact ⟨⟨suits, valid.2⟩, List.forall_mem_singleton.mpr (operand.readFrom own)⟩
  | matchNetworks =>
    obtain ⟨_, subject, set, ⟨_, -, read⟩, rfl⟩ := encodes
    obtain ⟨_, _, setTag, -, -, setCls, setKnown, networks⟩ := NetworkSet.read_ok.mp read
    have setSuits := spelling_suits setCls setKnown
    have below := List.forall_mem_singleton.mpr (subject.readFrom own)
    cases setTag with
    | explicit =>
      obtain ⟨_, valid, rfl⟩ := networks
      exact ⟨⟨suits, setSuits, valid.2⟩, below⟩
    | named =>
      obtain ⟨_, -, rfl⟩ := networks
      exact ⟨⟨suits, setSuits⟩, below⟩

/-- What well-formed nodes have, where nodes that are kept whole may need it that they are values
with some property. -/
structure Suited (G : Json → Prop) (Q : Expr → Prop) : Prop where
  known : ∀ e : Expr, e.Formed → e.isSupported = true → Q e
  other : ∀ tag raw, G raw → (Expr.unsupported tag raw).Formed → Q (.unsupported tag raw)

variable {Q : Expr → Prop} {j : Json}

/-- All nodes of an expression that is read from a value with a property have what suits them. -/
theorem readExpr_each (hereditary : Json.Hereditary G) (suited : Suited G Q) {e : Expr} (own : G j)
    (read : readExpr keep j = .ok e) : e.Each Q := by
  induction e using Expr.childrenInduction generalizing j with
  | step e ih =>
    have node : Q e ∧ ∀ c ∈ e.children, ReadFrom G keep c := by
      obtain ⟨ms, name, rfl, finite, cls⟩ := readExpr_object read
      cases known : ExprTag.ofName? (lastSegment name) with
      | some tag =>
        have named := exprTag_ofName?.mp known
        have encodes := (readExpr_known finite cls named).mp read
        obtain ⟨formed, below⟩ :=
          encodes_formed hereditary (hereditary.members ms own) cls named encodes
        exact ⟨suited.known e formed (isSupported_of_encodes encodes), below⟩
      | none =>
        obtain ⟨-, rfl⟩ := (readExpr_other finite cls known).mp read
        refine ⟨suited.other _ _ own ⟨Spelling.suits_none _, finite, ?_, known⟩, nofun⟩
        exact Json.className?_some.mpr ⟨ms, name, rfl, cls, rfl⟩
    refine Expr.each_iff.mpr ⟨node.1, fun c member => ?_⟩
    obtain ⟨value, holds, read⟩ := node.2 c member
    exact ih c member holds read

/-- Nodes that are kept whole are values of documents if they are read from values that were
parsed. -/
theorem suited_stored : Suited Json.Parsed Expr.Stored where
  known _ := .of_supported
  other _ _ parsed formed := by
    refine ⟨formed, ?_⟩
    rintro _ _ ⟨⟩
    exact parsed.held formed.admissible.1

/-- An expression that is read from a value that was parsed is one that documents hold. -/
theorem readExpr_stored {e : Expr} (parsed : j.Parsed) (read : readExpr keep j = .ok e) :
    e.Each Expr.Stored :=
  readExpr_each Json.parsed_hereditary suited_stored parsed read

/-- An expression that is read is well formed. -/
theorem readExpr_formed {e : Expr} (read : readExpr keep j = .ok e) : e.Each Expr.Formed :=
  readExpr_each Json.hereditary_true ⟨fun _ formed _ => formed, fun _ _ _ formed => formed⟩ trivial
    read

theorem Block.readFrom {key : String} {block : List Statement} (found : Block keep ms key block)
    (parsed : (Json.obj ms).Parsed) :
    ∀ s ∈ block, ∃ value, value.Parsed ∧ readStatement keep value = .ok s := by
  obtain ⟨items, found, related⟩ := found
  refine forall₂_right related (Json.held_arr.mp (parsed.get? found)) ?_
  exact fun item s own read => ⟨item, own, read⟩

/-- A statement that is read from a value that was parsed is one that documents hold. -/
theorem readStatement_stored (s : Statement) {j : Json} (parsed : j.Parsed)
    (read : readStatement keep j = .ok s) :
    s.Spelled ∧ s.Every fun _ e => e.Each Expr.Stored := by
  obtain ⟨ms, name, tag, rfl, finite, cls, known⟩ := readStatement_object read
  have suits := spelling_suits cls known
  have encodes := (readStatement_known finite cls known).mp read
  have child : ∀ {key e}, Child keep ms key e → e.Each Expr.Stored := by
    intro key e own
    obtain ⟨value, fine, found⟩ := own.readFrom (Json.held_obj.mp parsed).2
    exact readExpr_stored fine found
  cases s with
  | branch own guard onTrue onFalse comment =>
    cases tag with
    | branch =>
      obtain ⟨_, -, _, guarded, _, inTrue, _, inFalse, same⟩ := encodes
      cases same
      have trueStored : ∀ s ∈ onTrue, s.Spelled ∧ s.Every fun _ e => e.Each Expr.Stored := by
        intro s member
        obtain ⟨value, fine, found⟩ := inTrue.readFrom parsed s member
        exact readStatement_stored s fine found
      have falseStored : ∀ s ∈ onFalse, s.Spelled ∧ s.Every fun _ e => e.Each Expr.Stored := by
        intro s member
        obtain ⟨value, fine, found⟩ := inFalse.readFrom parsed s member
        exact readStatement_stored s fine found
      exact ⟨⟨suits, Statement.spelledAll_iff.mpr fun s member => (trueStored s member).1,
          Statement.spelledAll_iff.mpr fun s member => (falseStored s member).1⟩,
        child guarded, Statement.everyAll_iff.mpr fun s member => (trueStored s member).2,
        Statement.everyAll_iff.mpr fun s member => (falseStored s member).2⟩
    | finish =>
      obtain ⟨_, -, ⟨⟩⟩ := encodes
    | assign target =>
      obtain ⟨_, -, ⟨⟩⟩ := encodes
  | assign own target value =>
    cases tag with
    | assign target =>
      obtain ⟨_, own, same⟩ := encodes
      cases same
      exact ⟨suits, child own⟩
    | branch =>
      obtain ⟨_, -, _, -, _, -, _, -, ⟨⟩⟩ := encodes
    | finish =>
      obtain ⟨_, -, ⟨⟩⟩ := encodes
  | finish own disposition =>
    cases tag with
    | finish =>
      obtain ⟨_, -, same⟩ := encodes
      cases same
      exact ⟨suits, trivial⟩
    | branch =>
      obtain ⟨_, -, _, -, _, -, _, -, ⟨⟩⟩ := encodes
    | assign target =>
      obtain ⟨_, -, ⟨⟩⟩ := encodes

theorem readStatements_stored {j : Json} {block : List Statement} (parsed : j.Parsed)
    (read : readStatements keep j = .ok block) (name : String) : Policy.Stored ⟨name, block⟩ := by
  obtain ⟨items, rfl, related⟩ := block_iff.mp read
  have each : ∀ s ∈ block, s.Spelled ∧ s.Every fun _ e => e.Each Expr.Stored := by
    refine forall₂_right related (Json.held_arr.mp parsed) ?_
    exact fun item s own found => readStatement_stored s own found
  exact ⟨Statement.spelledAll_iff.mpr fun s member => (each s member).1,
    Statement.everyAll_iff.mpr fun s member => (each s member).2⟩

end Encoding

end RoutePolicy
