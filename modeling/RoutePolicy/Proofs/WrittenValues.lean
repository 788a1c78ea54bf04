import RoutePolicy.Proofs.CanonicalText
import RoutePolicy.Proofs.WellTyped

/-!
What policies are written as. A property of JSON values that passes from parts to wholes holds of all
that is written, if it holds of the numbers and of the constructs that are kept whole.
-/

set_option autoImplicit false

namespace RoutePolicy

open Encoding

/-- Names that stand in documents in the order in which they are written. -/
def Table.PlainNames (names : List String) : Prop :=
  names.Nodup ∧ ∀ name ∈ names, Table.index? name = none

instance (names : List String) : Decidable (Table.PlainNames names) :=
  inferInstanceAs (Decidable (names.Nodup ∧ ∀ name ∈ names, Table.index? name = none))

theorem Table.PlainNames.sublist {names others : List String} (plain : PlainNames names)
    (within : others.Sublist names) : PlainNames others :=
  ⟨plain.1.sublist within, fun name member => plain.2 name (within.subset member)⟩

namespace Json

/-- Members with plain keys stay in the order in which they are written. -/
theorem object_plain {members : Table Json} (plain : Table.PlainNames members.names) :
    object members = obj members := by
  rw [object, (Table.arranged_of_plain plain.1 plain.2).arrange]

/-- A property that passes from the parts of a value to the value. -/
structure Inherited (P : Json → Prop) : Prop where
  null : P null
  bool : ∀ value, P (bool value)
  str : ∀ text, P (str text)
  items : ∀ {items : List Json}, (∀ item ∈ items, P item) → P (arr items)
  members : ∀ {members : Table Json}, Table.PlainNames members.names → members.All P →
    P (obj members)

variable {P : Json → Prop} (inherited : Inherited P)

include inherited

/-- An object with the given keys. -/
theorem Inherited.object (keys : List String) (plain : Table.PlainNames keys) {members : Table Json}
    (names : members.names = keys) (all : members.All P) : P (obj members) :=
  inherited.members (names ▸ plain) all

theorem Inherited.spelled (cls : Spelling) (short : String) : P (Encoding.spelled cls short) := by
  unfold Encoding.spelled
  split <;> exact inherited.str _

theorem Inherited.strs (texts : List String) : P (strs texts) := by
  apply inherited.items
  rw [List.forall_mem_map]
  exact fun text _ => inherited.str text

theorem Inherited.asns {list : List Int} (each : ∀ i ∈ list, P (int i)) :
    P (Encoding.asns list) := by
  apply inherited.items
  rwa [List.forall_mem_map]

omit inherited in
theorem inherited_numbersIn (S : Number → Prop) : Inherited (NumbersIn S) where
  null := nofun
  bool _ := nofun
  str _ := nofun
  items each := numbersIn_arr.mpr each
  members _ all := numbersIn_obj.mpr all

end Json

namespace Expr

/-- The integers a node is written with. -/
def ownIntegers : Expr → List Int
  | lit _ (.int value) => [value]
  | lit _ (.asPath asns) => asns
  | prepend _ asns _ => asns
  | adjust _ _ amount => [amount]
  | _ => []

theorem writeExprs_eq (es : List Expr) : writeExprs es = es.map writeExpr := by
  induction es with
  | nil => rfl
  | cons e rest ih => rw [writeExprs, ih, List.map_cons]

/-- A property of the numbers of a node and of what it keeps whole. -/
structure Writes (P : Json → Prop) (e : Expr) : Prop where
  integers : ∀ i ∈ e.ownIntegers, P (.int i)
  whole : ∀ tag raw, e = unsupported tag raw → P raw

end Expr

theorem Statement.writeStatements_eq (block : List Statement) :
    writeStatements block = block.map writeStatement := by
  induction block with
  | nil => rfl
  | cons s rest ih => rw [writeStatements, ih, List.map_cons]

section

variable {P : Json → Prop} (inherited : Json.Inherited P)

include inherited

/-- What is written of an expression has the property. -/
theorem Json.Inherited.writeExpr {e : Expr} (each : e.Each (Expr.Writes P)) :
    P (Encoding.writeExpr e) := by
  induction e using Expr.childrenInduction with
  | step e ih =>
    have below : ∀ c ∈ e.children, P (Encoding.writeExpr c) :=
      fun c member => ih c member (each.child member)
    obtain ⟨integers, whole⟩ := each.root
    have spelled := inherited.spelled
    have list : ∀ es, (∀ c ∈ es, P (Encoding.writeExpr c)) → P (.arr (writeExprs es)) := by
      intro es each
      apply inherited.items
      rwa [Expr.writeExprs_eq, List.forall_mem_map]
    cases e with
    | lit cls l =>
        cases l with
        | bool value =>
            apply inherited.object ["class", "type"] (by decide) rfl
            simp [Table.All, spelled, inherited.str]
        | int value =>
            apply inherited.object ["class", "value"] (by decide) rfl
            simp [Table.All, spelled, integers value (by simp [Expr.ownIntegers])]
        | address text =>
            apply inherited.object ["class", "ip"] (by decide) rfl
            simp [Table.All, spelled, inherited.str]
        | network text =>
            apply inherited.object ["class", "prefix"] (by decide) rfl
            simp [Table.All, spelled, inherited.str]
        | communities texts =>
            apply inherited.object ["class", "communitySet"] (by decide) rfl
            simp [Table.All, spelled, inherited.strs]
        | asPath asns =>
            have written : P (Encoding.asns asns) := inherited.asns integers
            apply inherited.object ["class", "asns"] (by decide) rfl
            simp [Table.All, spelled, written]
    | attr cls name =>
        apply inherited.object ["class", "attribute"] (by decide) rfl
        simp [Table.All, spelled, inherited.str]
    | junction cls op operands =>
        have written := list operands below
        cases op with
        | all =>
            apply inherited.object ["class", "conjuncts"] (by decide) rfl
            simp [Table.All, spelled, written]
        | any =>
            apply inherited.object ["class", "disjuncts"] (by decide) rfl
            simp [Table.All, spelled, written]
    | union cls operands =>
        apply inherited.object ["class", "exprs"] (by decide) rfl
        simp [Table.All, spelled, list operands below]
    | not cls operand =>
        apply inherited.object ["class", "expr"] (by decide) rfl
        simp [Table.All, spelled, below operand (by simp [Expr.children])]
    | compare cls comparator left right =>
        apply inherited.object ["class", "comparator", "left", "right"] (by decide) rfl
        simp [Table.All, spelled, inherited.str, below left (by simp [Expr.children]),
          below right (by simp [Expr.children])]
    | hasCommunity cls subject community =>
        apply inherited.object ["class", "communitySetExpr", "community"] (by decide) rfl
        simp [Table.All, spelled, inherited.str, below subject (by simp [Expr.children])]
    | inRanges cls subject ranges setCls =>
        have set : P (.obj [("class", .str (setCls.getD SetTag.explicit.name)),
            ("prefixSpace", .strs ranges)]) := by
          apply inherited.object ["class", "prefixSpace"] (by decide) rfl
          simp [Table.All, inherited.str, inherited.strs]
        apply inherited.object ["class", "prefix", "prefixSet"] (by decide) rfl
        simp [Table.All, spelled, set, below subject (by simp [Expr.children])]
    | inList cls subject name setCls =>
        have set : P (.obj [("class", .str (setCls.getD SetTag.named.name)), ("name", .str name)]) := by
          apply inherited.object ["class", "name"] (by decide) rfl
          simp [Table.All, inherited.str]
        apply inherited.object ["class", "prefix", "prefixSet"] (by decide) rfl
        simp [Table.All, spelled, set, below subject (by simp [Expr.children])]
    | prepend cls asns operand =>
        have written : P (Encoding.asns asns) := inherited.asns integers
        apply inherited.object ["class", "asns", "expr"] (by decide) rfl
        simp [Table.All, spelled, written, below operand (by simp [Expr.children])]
    | call cls policy =>
        apply inherited.object ["class", "calledPolicyName"] (by decide) rfl
        simp [Table.All, spelled, inherited.str]
    | adjust cls shift amount =>
        have number := integers amount (by simp [Expr.ownIntegers])
        cases shift with
        | increment =>
            apply inherited.object ["class", "addend"] (by decide) rfl
            simp [Table.All, spelled, number]
        | decrement =>
            apply inherited.object ["class", "subtrahend"] (by decide) rfl
            simp [Table.All, spelled, number]
    | namedSet cls name =>
        apply inherited.object ["class", "name"] (by decide) rfl
        simp [Table.All, spelled, inherited.str]
    | unsupported tag raw => exact whole tag raw rfl

/-- What is written of a statement has the property. -/
theorem Json.Inherited.writeStatement (s : Statement)
    (every : s.Every fun _ e => e.Each (Expr.Writes P)) : P (Encoding.writeStatement s) := by
  have list : ∀ block, (∀ s ∈ block, P (Encoding.writeStatement s)) →
      P (.arr (writeStatements block)) := by
    intro block each
    apply inherited.items
    rwa [Statement.writeStatements_eq, List.forall_mem_map]
  cases s with
  | branch cls guard onTrue onFalse comment =>
      obtain ⟨own, yes, no⟩ := every
      rw [Statement.everyAll_iff] at yes no
      have condition := inherited.writeExpr own
      have first := list onTrue fun s member => Json.Inherited.writeStatement s (yes s member)
      have second := list onFalse fun s member => Json.Inherited.writeStatement s (no s member)
      cases comment with
      | absent =>
          apply inherited.object ["class", "guard", "trueStatements", "falseStatements"]
            (by decide) rfl
          simp [writeComment, Table.All, inherited.spelled, condition, first, second]
      | null =>
          apply inherited.object ["class", "guard", "trueStatements", "falseStatements", "comment"]
            (by decide) rfl
          simp [writeComment, Table.All, inherited.spelled, condition, first, second, inherited.null]
      | text words =>
          apply inherited.object ["class", "guard", "trueStatements", "falseStatements", "comment"]
            (by decide) rfl
          simp [writeComment, Table.All, inherited.spelled, condition, first, second, inherited.str]
  | assign cls target value =>
      have written := inherited.writeExpr every
      have plain : Table.PlainNames ["class", valueKey target] := by
        cases target <;> decide
      apply inherited.object _ plain rfl
      simp [Table.All, inherited.spelled, written]
  | finish cls disposition =>
      apply inherited.object ["class", "type"] (by decide) rfl
      simp [Table.All, inherited.spelled, inherited.str]

/-- What is written of a policy has the property. -/
theorem Json.Inherited.writePolicy {p : Policy}
    (every : Statement.EveryAll (fun _ e => e.Each (Expr.Writes P)) p.statements) :
    P (Encoding.writePolicy p) := by
  rw [Statement.everyAll_iff] at every
  have block : P (.arr (writeStatements p.statements)) := by
    apply inherited.items
    rw [Statement.writeStatements_eq, List.forall_mem_map]
    exact fun s member => inherited.writeStatement s (every s member)
  apply inherited.object ["name", "statements"] (by decide) rfl
  simp [Table.All, inherited.str, block]

end

end RoutePolicy
