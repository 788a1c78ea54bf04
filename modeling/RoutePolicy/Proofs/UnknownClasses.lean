import RoutePolicy.Proofs.Stability
import RoutePolicy.Proofs.Writing

/-!
Classes outside the vocabulary. The option to keep them is all in which the readers of policies
differ: a reader that refuses them reads what the other one reads, as long as it holds none.
-/

set_option autoImplicit false

namespace RoutePolicy

open Encoding

/-- A node that a reader with the given option lets in. -/
def Expr.Admitted (keep : Bool) (e : Expr) : Prop := e.isSupported = false → keep = true

/-- A policy that a reader with the given option lets in. -/
def Policy.Admitted (keep : Bool) (p : Policy) : Prop :=
  Statement.EveryAll (fun _ e => e.Each (Expr.Admitted keep)) p.statements

namespace Encoding

variable {keep : Bool} {ms : Table Json} {key : String}

/-- For an expression, readers differ in what they let in alone. -/
def Agrees (keep : Bool) (e : Expr) : Prop :=
  ∀ j, readExpr keep j = .ok e ↔ readExpr true j = .ok e ∧ e.Each (Expr.Admitted keep)

theorem child_admitted {e : Expr} (agrees : Agrees keep e) :
    Child keep ms key e ↔ Child true ms key e ∧ e.Each (Expr.Admitted keep) := by
  constructor
  · rintro ⟨value, found, read⟩
    obtain ⟨kept, admitted⟩ := (agrees value).mp read
    exact ⟨⟨value, found, kept⟩, admitted⟩
  · rintro ⟨⟨value, found, kept⟩, admitted⟩
    exact ⟨value, found, (agrees value).mpr ⟨kept, admitted⟩⟩

theorem forall₂_admitted {α : Type} {read kept : Json → α → Prop} {admitted : α → Prop}
    {items : List Json} {xs : List α} (agrees : ∀ x ∈ xs, ∀ j, read j x ↔ kept j x ∧ admitted x) :
    List.Forall₂ read items xs ↔ List.Forall₂ kept items xs ∧ ∀ x ∈ xs, admitted x := by
  constructor
  · intro related
    have both : List.Forall₂ (fun item x => kept item x ∧ admitted x) items xs :=
      forall₂_of_mem related fun item _ x member own => (agrees x member item).mp own
    exact ⟨both.imp fun _ _ own => own.1, forall_of_forall₂ both fun _ _ own => own.2⟩
  · rintro ⟨related, each⟩
    refine forall₂_of_mem related fun item _ x member own => ?_
    exact (agrees x member item).mpr ⟨own, each x member⟩

theorem operands_admitted {es : List Expr} (agrees : ∀ e ∈ es, Agrees keep e) :
    Operands keep ms key es ↔
      Operands true ms key es ∧ ∀ e ∈ es, e.Each (Expr.Admitted keep) := by
  have items : ∀ items, List.Forall₂ (fun item e => readExpr keep item = .ok e) items es ↔
      List.Forall₂ (fun item e => readExpr true item = .ok e) items es ∧
        ∀ e ∈ es, e.Each (Expr.Admitted keep) := fun _ => forall₂_admitted agrees
  simp only [Operands, items]
  constructor
  · rintro ⟨filled, list, found, related, each⟩
    exact ⟨⟨filled, list, found, related⟩, each⟩
  · rintro ⟨⟨filled, list, found, related⟩, each⟩
    exact ⟨filled, list, found, related, each⟩

/-- What an object of a known class encodes is let in if its operands are. -/
theorem encodes_admitted {tag : ExprTag} {e : Expr} (agrees : ∀ c ∈ e.children, Agrees keep c) :
    Encodes keep ms tag e ↔
      Encodes true ms tag e ∧ ∀ c ∈ e.children, c.Each (Expr.Admitted keep) := by
  cases tag with
  | boolean | integer | ref | communities | address | network | asPath | call | increment
  | decrement | namedSet =>
    refine ⟨fun encodes => ⟨encodes, ?_⟩, fun both => both.1⟩
    obtain ⟨_, -, rfl⟩ := encodes
    exact nofun
  | all | any | union =>
    constructor
    · rintro ⟨es, operands, rfl⟩
      obtain ⟨kept, each⟩ := (operands_admitted agrees).mp operands
      exact ⟨⟨es, kept, rfl⟩, each⟩
    · rintro ⟨⟨es, kept, rfl⟩, each⟩
      exact ⟨es, (operands_admitted agrees).mpr ⟨kept, each⟩, rfl⟩
  | not =>
    constructor
    · rintro ⟨operand, child, rfl⟩
      obtain ⟨kept, own⟩ := (child_admitted (List.forall_mem_singleton.mp agrees)).mp child
      exact ⟨⟨operand, kept, rfl⟩, List.forall_mem_singleton.mpr own⟩
    · rintro ⟨⟨operand, kept, rfl⟩, each⟩
      have own := List.forall_mem_singleton.mp each
      exact ⟨operand, (child_admitted (List.forall_mem_singleton.mp agrees)).mpr ⟨kept, own⟩, rfl⟩
  | hasCommunity | prepend =>
    constructor
    · rintro ⟨own, valid, operand, child, rfl⟩
      obtain ⟨kept, below⟩ := (child_admitted (List.forall_mem_singleton.mp agrees)).mp child
      exact ⟨⟨own, valid, operand, kept, rfl⟩, List.forall_mem_singleton.mpr below⟩
    · rintro ⟨⟨own, valid, operand, kept, rfl⟩, each⟩
      have below := List.forall_mem_singleton.mp each
      have child := (child_admitted (List.forall_mem_singleton.mp agrees)).mpr ⟨kept, below⟩
      exact ⟨own, valid, operand, child, rfl⟩
  | compare =>
    constructor
    · rintro ⟨comparator, named, left, foundLeft, right, foundRight, rfl⟩
      obtain ⟨agreesLeft, others⟩ := List.forall_mem_cons.mp agrees
      have agreesRight := List.forall_mem_singleton.mp others
      obtain ⟨keptLeft, inLeft⟩ := (child_admitted agreesLeft).mp foundLeft
      obtain ⟨keptRight, inRight⟩ := (child_admitted agreesRight).mp foundRight
      refine ⟨⟨comparator, named, left, keptLeft, right, keptRight, rfl⟩, ?_⟩
      exact List.forall_mem_cons.mpr ⟨inLeft, List.forall_mem_singleton.mpr inRight⟩
    · rintro ⟨⟨comparator, named, left, keptLeft, right, keptRight, rfl⟩, each⟩
      obtain ⟨agreesLeft, others⟩ := List.forall_mem_cons.mp agrees
      have agreesRight := List.forall_mem_singleton.mp others
      obtain ⟨inLeft, later⟩ := List.forall_mem_cons.mp each
      have inRight := List.forall_mem_singleton.mp later
      exact ⟨comparator, named, left, (child_admitted agreesLeft).mpr ⟨keptLeft, inLeft⟩, right,
        (child_admitted agreesRight).mpr ⟨keptRight, inRight⟩, rfl⟩
  | matchNetworks =>
    constructor
    · rintro ⟨subject, child, set, found, same⟩
      have unary : e.children = [subject] := by
        cases set <;> cases same <;> rfl
      rw [unary, List.forall_mem_singleton] at agrees ⊢
      obtain ⟨kept, below⟩ := (child_admitted agrees).mp child
      exact ⟨⟨subject, kept, set, found, same⟩, below⟩
    · rintro ⟨⟨subject, kept, set, found, same⟩, each⟩
      have unary : e.children = [subject] := by
        cases set <;> cases same <;> rfl
      rw [unary, List.forall_mem_singleton] at agrees each
      exact ⟨subject, (child_admitted agrees).mpr ⟨kept, each⟩, set, found, same⟩

theorem isSupported_of_encodes {tag : ExprTag} {e : Expr} (encodes : Encodes keep ms tag e) :
    e.isSupported = true := by
  cases tag with
  | boolean | integer | ref | communities | address | network | asPath | call | increment
  | decrement | namedSet | all | any | union | not =>
    obtain ⟨_, -, rfl⟩ := encodes
    rfl
  | hasCommunity | prepend =>
    obtain ⟨_, -, _, -, rfl⟩ := encodes
    rfl
  | compare =>
    obtain ⟨_, -, _, -, _, -, rfl⟩ := encodes
    rfl
  | matchNetworks =>
    obtain ⟨_, -, set, -, same⟩ := encodes
    cases set <;> cases same <;> rfl

/-- The option of the reader decides which nodes are let in, and nothing else. -/
theorem readExpr_iff_admitted (e : Expr) : Agrees keep e := by
  induction e using Expr.childrenInduction with
  | step e ih =>
    intro j
    rw [Expr.each_iff]
    constructor
    · intro read
      obtain ⟨ms, name, rfl, finite, cls⟩ := readExpr_object read
      cases known : ExprTag.ofName? (lastSegment name) with
      | some tag =>
        have named := exprTag_ofName?.mp known
        have encodes := (readExpr_known finite cls named).mp read
        obtain ⟨kept, below⟩ := (encodes_admitted ih).mp encodes
        have supported := isSupported_of_encodes encodes
        refine ⟨(readExpr_known finite cls named).mpr kept, ?_, below⟩
        rw [Expr.Admitted, supported]
        exact nofun
      | none =>
        obtain ⟨kept, rfl⟩ := (readExpr_other finite cls known).mp read
        exact ⟨(readExpr_other finite cls known).mpr ⟨rfl, rfl⟩, fun _ => kept, nofun⟩
    · rintro ⟨read, own, below⟩
      obtain ⟨ms, name, rfl, finite, cls⟩ := readExpr_object read
      cases known : ExprTag.ofName? (lastSegment name) with
      | some tag =>
        have named := exprTag_ofName?.mp known
        have encodes := (readExpr_known finite cls named).mp read
        exact (readExpr_known finite cls named).mpr ((encodes_admitted ih).mpr ⟨encodes, below⟩)
      | none =>
        obtain ⟨-, rfl⟩ := (readExpr_other finite cls known).mp read
        exact (readExpr_other finite cls known).mpr ⟨own rfl, rfl⟩

/-! ### Statements -/

theorem block_admitted {block : List Statement} (agrees : ∀ s ∈ block, ∀ j,
      readStatement keep j = .ok s ↔
        readStatement true j = .ok s ∧ s.Every fun _ e => e.Each (Expr.Admitted keep)) :
    Block keep ms key block ↔ Block true ms key block ∧
      Statement.EveryAll (fun _ e => e.Each (Expr.Admitted keep)) block := by
  have items : ∀ items, List.Forall₂ (fun item s => readStatement keep item = .ok s) items block ↔
      List.Forall₂ (fun item s => readStatement true item = .ok s) items block ∧
        ∀ s ∈ block, s.Every fun _ e => e.Each (Expr.Admitted keep) :=
    fun _ => forall₂_admitted agrees
  simp only [Block, items, Statement.everyAll_iff]
  constructor
  · rintro ⟨list, found, related, each⟩
    exact ⟨⟨list, found, related⟩, each⟩
  · rintro ⟨⟨list, found, related⟩, each⟩
    exact ⟨list, found, related, each⟩

/-- Whether a statement is let in depends on its expressions. -/
theorem readStatement_iff_admitted (s : Statement) (j : Json) : readStatement keep j = .ok s ↔
    readStatement true j = .ok s ∧ s.Every fun _ e => e.Each (Expr.Admitted keep) := by
  have known : ∀ {ms : Table Json} {tag : StatementTag},
      StatementEncodes keep ms tag s ↔ StatementEncodes true ms tag s ∧
        s.Every fun _ e => e.Each (Expr.Admitted keep) := by
    intro ms tag
    cases tag with
    | finish =>
      refine ⟨fun encodes => ⟨encodes, ?_⟩, fun both => both.1⟩
      obtain ⟨_, -, rfl⟩ := encodes
      trivial
    | assign target =>
      constructor
      · rintro ⟨value, child, rfl⟩
        obtain ⟨kept, own⟩ := (child_admitted (readExpr_iff_admitted value)).mp child
        exact ⟨⟨value, kept, rfl⟩, own⟩
      · rintro ⟨⟨value, kept, rfl⟩, own⟩
        exact ⟨value, (child_admitted (readExpr_iff_admitted value)).mpr ⟨kept, own⟩, rfl⟩
    | branch =>
      constructor
      · rintro ⟨comment, said, guard, child, onTrue, inTrue, onFalse, inFalse, rfl⟩
        obtain ⟨keptGuard, own⟩ := (child_admitted (readExpr_iff_admitted guard)).mp child
        obtain ⟨keptTrue, allTrue⟩ :=
          (block_admitted fun s _ => readStatement_iff_admitted s).mp inTrue
        obtain ⟨keptFalse, allFalse⟩ :=
          (block_admitted fun s _ => readStatement_iff_admitted s).mp inFalse
        exact ⟨⟨comment, said, guard, keptGuard, onTrue, keptTrue, onFalse, keptFalse, rfl⟩,
          own, allTrue, allFalse⟩
      · rintro ⟨⟨comment, said, guard, keptGuard, onTrue, keptTrue, onFalse, keptFalse, rfl⟩,
          own, allTrue, allFalse⟩
        have child := (child_admitted (readExpr_iff_admitted guard)).mpr ⟨keptGuard, own⟩
        have inTrue := (block_admitted fun s _ => readStatement_iff_admitted s).mpr
          ⟨keptTrue, allTrue⟩
        have inFalse := (block_admitted fun s _ => readStatement_iff_admitted s).mpr
          ⟨keptFalse, allFalse⟩
        exact ⟨comment, said, guard, child, onTrue, inTrue, onFalse, inFalse, rfl⟩
  constructor
  · intro read
    obtain ⟨ms, name, tag, rfl, finite, cls, named⟩ := readStatement_object read
    obtain ⟨kept, every⟩ := known.mp ((readStatement_known finite cls named).mp read)
    exact ⟨(readStatement_known finite cls named).mpr kept, every⟩
  · rintro ⟨read, every⟩
    obtain ⟨ms, name, tag, rfl, finite, cls, named⟩ := readStatement_object read
    have kept := (readStatement_known finite cls named).mp read
    exact (readStatement_known finite cls named).mpr (known.mpr ⟨kept, every⟩)
termination_by sizeOf s

/-- A reader reads a policy exactly if the one that keeps every class does and it lets the policy
in. -/
theorem readPolicy_iff_admitted {j : Json} {p : Policy} :
    readPolicy keep j = .ok p ↔ readPolicy true j = .ok p ∧ p.Admitted keep := by
  have block : ∀ ms : Table Json, Block keep ms "statements" p.statements ↔
      Block true ms "statements" p.statements ∧ p.Admitted keep :=
    fun _ => block_admitted fun s _ => readStatement_iff_admitted s
  simp only [readPolicy_ok, block]
  constructor
  · rintro ⟨ms, rfl, finite, named, kept, admitted⟩
    exact ⟨⟨ms, rfl, finite, named, kept⟩, admitted⟩
  · rintro ⟨⟨ms, rfl, finite, named, kept⟩, admitted⟩
    exact ⟨ms, rfl, finite, named, kept, admitted⟩

/-- A well-formed policy that a reader lets in is read back from what it is written as. -/
theorem readPolicy_writePolicy_of_admitted (p : Policy)
    (formed : p.WellFormed fun text => (Network.parseWithLength? text).isSome)
    (admitted : p.Admitted keep) : readPolicy keep (writePolicy p) = .ok p :=
  readPolicy_iff_admitted.mpr ⟨readPolicy_writePolicy p formed, admitted⟩

end Encoding

end RoutePolicy
