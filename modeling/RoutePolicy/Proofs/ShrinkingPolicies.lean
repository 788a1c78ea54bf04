import RoutePolicy.Proofs.CondensedReading
import RoutePolicy.Proofs.Shrinking
import RoutePolicy.Proofs.SimplifiedReferences
import RoutePolicy.Proofs.Sizes

/-!
Simplification never grows anything: neither an expression nor a block in nodes, nor a policy in the
text it is written as. A policy that is not changed is written as the same text, spelling included,
and one that is changed as a shorter text.
-/

set_option autoImplicit false

namespace RoutePolicy

open Encoding

namespace Statement

/-- The text of fewer statements is shorter, since no statement is written as nothing. -/
theorem extent_block_lt {kept block : List Statement}
    (less : total extent kept < total extent block) :
    (Json.arr (writeStatements kept)).extent < (Json.arr (writeStatements block)).extent := by
  have list := Json.le_extent_arr (writeStatements block)
  rw [total_writeStatements] at list
  cases kept with
  | nil =>
      cases block with
      | nil => cases less
      | cons s rest =>
          have first := extent_pos s
          rw [total_cons] at list
          rw [writeStatements, Json.extent_arr_nil]
          omega
  | cons s rest =>
      rw [Json.extent_arr (by simp [writeStatements]), total_writeStatements]
      omega

/-- Blocks are the same or the text of the first one is shorter. -/
theorem extent_block_le {kept block : List Statement}
    (shrinks : kept = block ∨ total extent kept < total extent block) :
    (Json.arr (writeStatements kept)).extent ≤ (Json.arr (writeStatements block)).extent := by
  rcases shrinks with rfl | less
  · exact Nat.le_refl _
  · exact Nat.le_of_lt (extent_block_lt less)

section

variable {cls : Spelling} {guard other : Expr} {onTrue onFalse yes no : List Statement}
  {comment : Comment}

/-- The text of each branch is in the text of the branching. -/
theorem total_branches_lt : total extent onTrue + total extent onFalse <
    (branch cls guard onTrue onFalse comment).extent := by
  have yes := Json.le_extent_arr (writeStatements onTrue)
  have no := Json.le_extent_arr (writeStatements onFalse)
  rw [total_writeStatements] at yes no
  rw [extent_branch]
  omega

/-- A branching with a guard and branches that are the same or shorter is the same or shorter. -/
theorem branch_shrinks (guards : other = guard ∨ other.extent < guard.extent)
    (trues : yes = onTrue ∨ total extent yes < total extent onTrue)
    (falses : no = onFalse ∨ total extent no < total extent onFalse) :
    branch cls other yes no comment = branch cls guard onTrue onFalse comment ∨
      (branch cls other yes no comment).extent <
        (branch cls guard onTrue onFalse comment).extent := by
  have trueLe := extent_block_le trues
  have falseLe := extent_block_le falses
  rw [extent_branch, extent_branch]
  rcases guards with rfl | less
  · rcases trues with rfl | less
    · rcases falses with rfl | less
      · exact .inl rfl
      · have falseLt := extent_block_lt less
        exact .inr (by omega)
    · have trueLt := extent_block_lt less
      exact .inr (by omega)
  · exact .inr (by omega)

end

mutual

theorem simplify_shrinks (s : Statement) (filled : ∀ e ∈ s.exprs, e.Each Expr.Filled) :
    s.simplify = [s] ∨ total extent s.simplify < total extent [s] := by
  cases s with
  | branch cls guard onTrue onFalse comment =>
      rw [exprs, List.forall_mem_cons, List.forall_mem_append] at filled
      obtain ⟨guardFilled, trueFilled, falseFilled⟩ := filled
      have own := Expr.simplify_shrinks guardFilled
      have yes := simplifyAll_shrinks onTrue trueFilled
      have no := simplifyAll_shrinks onFalse falseFilled
      have inside : _ < (branch cls guard onTrue onFalse comment).extent := total_branches_lt
      have yesLe := le_of_shrinks yes
      have noLe := le_of_shrinks no
      rw [total_cons, total_nil, simplify]
      split
      · split
        · exact .inr (by omega)
        · exact .inr (by omega)
      · split
        · exact .inr (by omega)
        · rw [total_cons, total_nil, List.singleton_inj]
          have whole : branch cls _ _ _ comment = _ ∨ _ := branch_shrinks own yes no
          rcases whole with same | less
          · exact .inl same
          · exact .inr (by omega)
  | assign cls target value =>
      have own := Expr.simplify_shrinks (filled value List.mem_cons_self)
      rw [simplify, total_cons, total_cons, extent_assign, extent_assign]
      rcases own with same | less
      · exact .inl (by rw [same])
      · exact .inr (by omega)
  | finish cls disposition => exact .inl rfl

/-- Simplification changes nothing in a block, or the text of its statements gets shorter. -/
theorem simplifyAll_shrinks (block : List Statement)
    (filled : ∀ e ∈ exprsAll block, e.Each Expr.Filled) :
    simplifyAll block = block ∨ total extent (simplifyAll block) < total extent block := by
  cases block with
  | nil => exact .inl rfl
  | cons s rest =>
      rw [exprsAll, List.forall_mem_append] at filled
      have first := simplify_shrinks s filled.1
      have later := simplifyAll_shrinks rest filled.2
      have cut := total_sublist (f := extent)
        (cutAfterEnd_sublist (s.simplify ++ simplifyAll rest))
      have whole : total extent (s :: rest) = total extent [s] + total extent rest :=
        total_append [s] rest
      have restLe := le_of_shrinks later
      have cutLe := le_of_shrinks cut
      rw [total_append] at cutLe
      rw [simplifyAll]
      rcases first with same | less
      · rcases later with others | less
        · -- nothing is rewritten, so only what no longer runs is missing
          rw [same, others] at cut ⊢
          rcases cut with all | less
          · exact .inl all
          · exact .inr less
        · rw [same] at cutLe ⊢
          exact .inr (by omega)
      · exact .inr (by omega)

end

end Statement

/-- A policy is what it was, or its text gets shorter. -/
theorem Policy.simplify_shrinks (p : Policy)
    (filled : ∀ e ∈ Statement.exprsAll p.statements, e.Each Expr.Filled) :
    p.simplify = p ∨ (Text.units (writePolicy p.simplify).compact).length <
      (Text.units (writePolicy p).compact).length := by
  rw [Json.length_units_compact, Json.length_units_compact, extent_writePolicy, extent_writePolicy]
  rcases Statement.simplifyAll_shrinks p.statements filled with same | less
  · exact .inl (congrArg (Policy.mk p.name) same)
  · have shorter := Statement.extent_block_lt less
    simp only [simplify]
    exact .inr (by omega)

/-- What a policy from a document holds has operands wherever its simplification counts on some. -/
theorem Encoding.readPolicy_filled {keep : Bool} {j : Json} {p : Policy}
    (read : readPolicy keep j = .ok p) :
    ∀ e ∈ Statement.exprsAll p.statements, e.Each Expr.Filled := by
  refine (Statement.everyAll_exprs p.statements).mp ((readPolicy_every read).mono ?_)
  rintro _ e ⟨value, own⟩ x inside
  exact (readExpr_filled own x inside).2

/-- Simplification never grows anything. An expression has at most as many nodes as before, and so
has a block of statements. A policy from a document has the same statements as before and the same
text, or a strictly shorter text. -/
theorem simplify_never_grows :
    (∀ e : Expr, e.simplify.size ≤ e.size) ∧
      (∀ block : List Statement,
        Statement.sizeAll (Statement.simplifyAll block) ≤ Statement.sizeAll block) ∧
      ∀ (keep : Bool) (j : Json) (p : Policy), readPolicy keep j = .ok p →
        (Statement.sameAll p.simplify.statements p.statements = true ∧
          (writePolicy p.simplify).compact = (writePolicy p).compact) ∨
        (Text.units (writePolicy p.simplify).compact).length <
          (Text.units (writePolicy p).compact).length := by
  refine ⟨Expr.size_simplify_le, Statement.sizeAll_simplifyAll_le, fun keep j p read => ?_⟩
  rcases p.simplify_shrinks (readPolicy_filled read) with same | shorter
  · rw [same]
    exact .inl ⟨Statement.sameAll_refl _, rfl⟩
  · exact .inr shorter

namespace Clutter

def ending (word : String) : Json := .obj [("class", .str "StaticStatement"), ("type", .str word)]

/-- A condition with a part that always holds, and a branch with a statement that cannot run. -/
def document : Json :=
  .obj [("name", .str "edge-in"), ("statements", .arr [
    .obj [("class", .str "org.policy.If"), ("comment", .null),
      ("guard", .obj [("class", .str "org.expr.Conjunction"), ("conjuncts", .arr [
        .obj [("class", .str "StaticBooleanExpr"), ("type", .str "True")],
        .obj [("class", .str "org.expr.Probe"), ("line", .int 9)]])]),
      ("trueStatements", .arr [ending "ExitReject", ending "ExitAccept"]),
      ("falseStatements", .arr [])]])]

def probe : Expr := .unsupported "Probe" (.obj [("class", .str "org.expr.Probe"), ("line", .int 9)])

def policy : Policy :=
  ⟨"edge-in", [.branch (some "org.policy.If")
    (.junction (some "org.expr.Conjunction") .all [.bool true, probe])
    [.finish none .reject, .finish none .accept] [] .null]⟩

end Clutter

/-- The condition is the part that is left of it, and the branch ends at its first exit. -/
theorem clutter_never_grows : readPolicy true Clutter.document = .ok Clutter.policy ∧
    (Text.units (writePolicy Clutter.policy.simplify).compact).length <
      (Text.units (writePolicy Clutter.policy).compact).length := by
  have read : readPolicy true Clutter.document = .ok Clutter.policy := by with_unfolding_all rfl
  refine ⟨read, (simplify_never_grows.2.2 true _ _ read).resolve_left ?_⟩
  rintro ⟨same, -⟩
  revert same
  with_unfolding_all decide

end RoutePolicy
