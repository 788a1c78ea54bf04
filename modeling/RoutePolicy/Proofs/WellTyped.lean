import RoutePolicy.Proofs.Nodes

/-!
Well-typed expressions and policies, node by node: no operator has an operand of a type it refuses.
-/

set_option autoImplicit false

namespace RoutePolicy

/-- A complaint that is only a warning. -/
def Issue.isMinor (issue : Issue) : Bool := !issue.complaint.isError

namespace Expr

/-- No operand has a type its operator refuses. -/
def fitted (e : Expr) : Bool :=
  match e.operandType? with
  | none => true
  | some expected => e.children.all (·.type.fits expected)

/-- A construct of the vocabulary. -/
def isSupported : Expr → Bool
  | unsupported _ _ => false
  | _ => true

theorem ofOperand_minor (role : Role) (expected : ValueType) (operand : Expr) :
    (Issue.ofOperand role expected operand).all Issue.isMinor = operand.type.fits expected := by
  unfold Issue.ofOperand
  split
  · rename_i fits
    rw [fits]
    rfl
  · rename_i refused
    simp [Issue.isMinor, Complaint.isError, refused]

theorem wellTyped_eq (e : Expr) : e.wellTyped = e.issues.all Issue.isMinor := rfl

theorem issuesAll_minor (role : Role) (expected : ValueType) (operands : List Expr) :
    (issuesAll role expected operands).all Issue.isMinor =
      (operands.all (·.type.fits expected) && operands.all wellTyped) := by
  induction operands with
  | nil => rfl
  | cons e rest ih =>
      simp only [issuesAll, List.all_append, ofOperand_minor, ih, List.all_cons, wellTyped_eq e]
      ac_rfl

/-- An expression is well typed when its own operands fit and are well typed themselves. -/
theorem wellTyped_step (e : Expr) : e.wellTyped = (e.fitted && e.children.all wellTyped) := by
  cases e with
  | junction cls op operands => exact issuesAll_minor _ _ operands
  | union cls operands => exact issuesAll_minor _ _ operands
  | unsupported tag raw =>
      simp [wellTyped_eq, issues, fitted, operandType?, children, Issue.isMinor, Complaint.isError]
  | compare cls comparator left right =>
      simp only [wellTyped_eq, issues, fitted, operandType?, children, List.all_append,
        ofOperand_minor, List.all_cons, List.all_nil, Bool.and_true]
      ac_rfl
  | not _ _ | prepend _ _ _ | hasCommunity _ _ _ | inRanges _ _ _ _ | inList _ _ _ _ =>
      simp only [wellTyped_eq, issues, fitted, operandType?, children, List.all_append,
        ofOperand_minor, List.all_cons, List.all_nil, Bool.and_true]
      ac_rfl
  | lit _ _ | attr _ _ | call _ _ | adjust _ _ _ | namedSet _ _ => rfl

theorem wellTyped_iff {e : Expr} : e.wellTyped = true ↔ e.Each (·.fitted = true) := by
  induction e using childrenInduction with
  | step e ih =>
    rw [wellTyped_step, each_iff, Bool.and_eq_true, List.all_eq_true]
    exact and_congr_right fun _ => forall₂_congr ih

theorem type_ne_unknown {e : Expr} (supported : e.isSupported = true) : e.type ≠ .unknown := by
  cases e with
  | lit _ literal => cases literal <;> simp [type, Literal.type]
  | attr _ name => cases name <;> simp [type, Attribute.type]
  | unsupported _ _ => cases supported
  | _ => simp [type]

theorem fits_iff {e : Expr} {expected : ValueType} (supported : e.isSupported = true) :
    e.type.fits expected = true ↔ e.type = expected := by
  simp [ValueType.fits, type_ne_unknown supported]

end Expr

namespace Statement

mutual

/-- A property of all guards, which have to be conditions, and of all assigned values, which have to
be of the type of their attribute. -/
def Every (Q : ValueType → Expr → Prop) : Statement → Prop
  | branch _ guard onTrue onFalse _ => Q .boolean guard ∧ EveryAll Q onTrue ∧ EveryAll Q onFalse
  | assign _ target value => Q target.toAttribute.type value
  | finish _ _ => True

def EveryAll (Q : ValueType → Expr → Prop) : List Statement → Prop
  | [] => True
  | s :: rest => s.Every Q ∧ EveryAll Q rest

end

variable {P Q R : ValueType → Expr → Prop}

theorem everyAll_iff {block : List Statement} : EveryAll Q block ↔ ∀ s ∈ block, s.Every Q := by
  induction block with
  | nil => simp [EveryAll]
  | cons s rest ih => rw [EveryAll, ih, List.forall_mem_cons]

theorem Every.both (weaker : ∀ expected e, P expected e → Q expected e → R expected e)
    (s : Statement) (first : s.Every P) (second : s.Every Q) : s.Every R := by
  cases s with
  | branch cls guard onTrue onFalse comment =>
      obtain ⟨firstGuard, firstTrue, firstFalse⟩ := first
      obtain ⟨secondGuard, secondTrue, secondFalse⟩ := second
      rw [everyAll_iff] at firstTrue firstFalse secondTrue secondFalse
      refine ⟨weaker _ _ firstGuard secondGuard, ?_, ?_⟩
      · rw [everyAll_iff]
        intro s member
        exact Every.both weaker s (firstTrue s member) (secondTrue s member)
      · rw [everyAll_iff]
        intro s member
        exact Every.both weaker s (firstFalse s member) (secondFalse s member)
  | assign cls target value => exact weaker _ _ first second
  | finish cls disposition => trivial

theorem Every.mono (weaker : ∀ expected e, Q expected e → R expected e) (s : Statement)
    (every : s.Every Q) : s.Every R :=
  Every.both (fun expected e holds _ => weaker expected e holds) s every every

theorem EveryAll.mono (weaker : ∀ expected e, Q expected e → R expected e)
    {block : List Statement} (every : EveryAll Q block) : EveryAll R block := by
  rw [everyAll_iff] at every ⊢
  exact fun s member => (every s member).mono weaker

theorem issuesAs_minor (e : Expr) (role : Role) (expected : ValueType) :
    (e.issuesAs role expected).all Issue.isMinor = true ↔
      e.wellTyped = true ∧ e.type.fits expected = true := by
  rw [Expr.issuesAs, List.all_append, Expr.ofOperand_minor, Expr.wellTyped_eq, Bool.and_eq_true]

mutual

theorem issues_minor (here : Position) (s : Statement) :
    (s.issues here).all (·.issue.isMinor) = true ↔
      s.Every fun expected e => e.wellTyped = true ∧ e.type.fits expected = true := by
  cases s with
  | branch cls guard onTrue onFalse comment =>
      have guardMinor := issuesAs_minor guard .guard .boolean
      have trueMinor := blockIssues_minor (here ++ [.branch true]) 0 onTrue
      have falseMinor := blockIssues_minor (here ++ [.branch false]) 0 onFalse
      rw [issues, List.all_append, List.all_append, Bool.and_eq_true, Bool.and_eq_true, trueMinor,
        falseMinor, List.all_map]
      exact (and_congr_right fun _ => guardMinor).trans and_comm
  | assign cls target value =>
      rw [issues, List.all_map]
      exact issuesAs_minor value (.assigned target) target.toAttribute.type
  | finish cls disposition => exact iff_of_true rfl trivial

theorem blockIssues_minor (above : Position) (i : Nat) (block : List Statement) :
    (blockIssues above i block).all (·.issue.isMinor) = true ↔
      EveryAll (fun expected e => e.wellTyped = true ∧ e.type.fits expected = true) block := by
  cases block with
  | nil => exact iff_of_true rfl trivial
  | cons s rest =>
      have first := issues_minor (above ++ [.index i]) s
      have later := blockIssues_minor above (i + 1) rest
      rw [blockIssues, List.all_append, Bool.and_eq_true, first, later, EveryAll]

end

end Statement

/-- A policy is well typed exactly if all its guards and assigned values are well typed and have the
type needed. -/
theorem Policy.wellTyped_iff {p : Policy} : p.wellTyped = true ↔
    Statement.EveryAll (fun expected e => e.wellTyped = true ∧ e.type.fits expected = true)
      p.statements :=
  Statement.blockIssues_minor [] 0 p.statements

/-- All guards and assigned values of a well-typed policy are well typed and have the type
needed. -/
theorem Policy.every_of_wellTyped {p : Policy} (typed : p.wellTyped = true) :
    Statement.EveryAll (fun expected e => e.wellTyped = true ∧ e.type.fits expected = true)
      p.statements :=
  Policy.wellTyped_iff.mp typed

end RoutePolicy
