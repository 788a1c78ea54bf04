import RoutePolicy.Proofs.Nodes
import RoutePolicy.Proofs.TextWidths

/-!
How long the texts of expressions, statements and policies are: the text of a node is its class, its
own values and the texts of its parts. A spelling is at least as long as the class it names.
-/

set_option autoImplicit false

namespace RoutePolicy

open Encoding

/-! ### Class names -/

theorem Text.afterLast_suffix (sep : Char) (cs : List Char) : Text.afterLast sep cs <:+ cs := by
  induction cs with
  | nil => exact List.suffix_rfl
  | cons c rest ih =>
      rw [Text.afterLast]
      split
      · exact ih.trans (List.suffix_cons c rest)
      · split
        · exact List.suffix_cons c rest
        · exact List.suffix_rfl

/-- A class name is at least as long as its last segment. -/
theorem Json.quotedWidth_lastSegment (name : String) :
    quotedWidth (lastSegment name) ≤ quotedWidth name := by
  have ends : (lastSegment name).toList <:+ name.toList := by
    rw [lastSegment, String.toList_ofList]
    exact (Text.afterLast_suffix '$' _).trans (Text.afterLast_suffix '.' _)
  obtain ⟨start, whole⟩ := ends
  simp only [quotedWidth, quoted, Text.width_cons, Text.width_append, ← whole, List.flatMap_append]
  omega

theorem quotedWidth_le_spelled (cls : Spelling) (short : String) :
    Json.quotedWidth short ≤ (spelled cls short).extent := by
  cases cls with
  | none => exact Nat.le_refl _
  | some name =>
      rw [spelled, Json.extent_str]
      split
      · rename_i same
        have longer := Json.quotedWidth_lastSegment name
        rwa [same] at longer
      · exact Nat.le_refl _

section

variable (cls value other : Json) (key name : String)

/-- The text of an object with a class and one more member. -/
theorem Json.extent_classed : (obj [("class", cls), (key, value)]).extent =
    cls.extent + quotedWidth key + value.extent + 12 := by
  have class_ : quotedWidth "class" = 7 := by decide
  simp only [extent_obj, memberExtent, total_cons, total_nil, class_]
  omega

/-- The text of an object with a class and two more members. -/
theorem Json.extent_classed_two :
    (obj [("class", cls), (key, value), (name, other)]).extent =
      cls.extent + quotedWidth key + value.extent + quotedWidth name + other.extent + 14 := by
  have class_ : quotedWidth "class" = 7 := by decide
  simp only [extent_obj, memberExtent, total_cons, total_nil, class_]
  omega

end

namespace Expr

/-- The length of the text an expression is written as. -/
def extent (e : Expr) : Nat := (writeExpr e).extent

theorem total_writeExprs (es : List Expr) :
    total Json.extent (writeExprs es) = total extent es := by
  induction es with
  | nil => rfl
  | cons e rest ih => rw [writeExprs, total_cons, total_cons, ih, extent]

/-- The class a junction is written with. -/
def Junction.tag : Junction → ExprTag
  | .all => .all
  | .any => .any

section

variable (cls : Spelling)

theorem extent_bool (value : Bool) : (lit cls (.bool value)).extent =
    (spelled cls ExprTag.boolean.name).extent + (if value then 24 else 25) := by
  have key : Json.quotedWidth "type" = 6 := by decide
  have yes : Json.quotedWidth "True" = 6 := by decide
  have no : Json.quotedWidth "False" = 7 := by decide
  simp only [extent, writeExpr, writeLiteral, Json.extent_classed, Json.extent_str, key]
  cases value
  · simp [no]
  · simp [yes]

theorem extent_set (members : List String) : (lit cls (.communities members)).extent =
    (spelled cls ExprTag.communities.name).extent + (Json.strs members).extent + 26 := by
  have key : Json.quotedWidth "communitySet" = 14 := by decide
  simp only [extent, writeExpr, writeLiteral, Json.extent_classed, key]
  omega

theorem extent_path (list : List Int) : (lit cls (.asPath list)).extent =
    (spelled cls ExprTag.asPath.name).extent + (asns list).extent + 18 := by
  have key : Json.quotedWidth "asns" = 6 := by decide
  simp only [extent, writeExpr, writeLiteral, Json.extent_classed, key]
  omega

theorem extent_junction (op : Junction) (operands : List Expr) :
    (junction cls op operands).extent = (spelled cls (Junction.tag op).name).extent +
      (Json.arr (writeExprs operands)).extent + 23 := by
  have conjuncts : Json.quotedWidth "conjuncts" = 11 := by decide
  have disjuncts : Json.quotedWidth "disjuncts" = 11 := by decide
  cases op
  · simp only [extent, Junction.tag, writeExpr, Json.extent_classed, conjuncts]
    omega
  · simp only [extent, Junction.tag, writeExpr, Json.extent_classed, disjuncts]
    omega

theorem extent_union (operands : List Expr) :
    (union cls operands).extent = (spelled cls ExprTag.union.name).extent +
      (Json.arr (writeExprs operands)).extent + 19 := by
  have key : Json.quotedWidth "exprs" = 7 := by decide
  simp only [extent, writeExpr, Json.extent_classed, key]
  omega

theorem extent_not (operand : Expr) : (not cls operand).extent =
    (spelled cls ExprTag.not.name).extent + operand.extent + 18 := by
  have key : Json.quotedWidth "expr" = 6 := by decide
  simp only [extent, writeExpr, Json.extent_classed, key]
  omega

theorem extent_compare (comparator : Comparator) (left right : Expr) :
    (compare cls comparator left right).extent = (spelled cls ExprTag.compare.name).extent +
      Json.quotedWidth comparator.name + left.extent + right.extent + 41 := by
  have key : Json.quotedWidth "comparator" = 12 := by decide
  have first : Json.quotedWidth "left" = 6 := by decide
  have second : Json.quotedWidth "right" = 7 := by decide
  have class_ : Json.quotedWidth "class" = 7 := by decide
  simp only [extent, writeExpr, Json.extent_obj, Json.memberExtent, total_cons, total_nil,
    Json.extent_str, class_, key, first, second]
  omega

theorem extent_hasCommunity (subject : Expr) (community : String) :
    (hasCommunity cls subject community).extent =
      (spelled cls ExprTag.hasCommunity.name).extent + subject.extent +
        Json.quotedWidth community + 43 := by
  have key : Json.quotedWidth "communitySetExpr" = 18 := by decide
  have word : Json.quotedWidth "community" = 11 := by decide
  simp only [extent, writeExpr, Json.extent_classed_two, Json.extent_str, key, word]
  omega

theorem extent_inRanges (subject : Expr) (ranges : List String) (setCls : Spelling) :
    (inRanges cls subject ranges setCls).extent =
      (spelled cls ExprTag.matchNetworks.name).extent + subject.extent +
        (Json.obj [("class", .str (setCls.getD SetTag.explicit.name)),
          ("prefixSpace", .strs ranges)]).extent + 33 := by
  have key : Json.quotedWidth "prefix" = 8 := by decide
  have set : Json.quotedWidth "prefixSet" = 11 := by decide
  rw [extent, writeExpr, Json.extent_classed_two, key, set, extent]
  omega

theorem extent_inList (subject : Expr) (name : String) (setCls : Spelling) :
    (inList cls subject name setCls).extent =
      (spelled cls ExprTag.matchNetworks.name).extent + subject.extent +
        (Json.obj [("class", .str (setCls.getD SetTag.named.name)), ("name", .str name)]).extent +
          33 := by
  have key : Json.quotedWidth "prefix" = 8 := by decide
  have set : Json.quotedWidth "prefixSet" = 11 := by decide
  rw [extent, writeExpr, Json.extent_classed_two, key, set, extent]
  omega

theorem extent_prepend (list : List Int) (operand : Expr) : (prepend cls list operand).extent =
    (spelled cls ExprTag.prepend.name).extent + (asns list).extent + operand.extent + 26 := by
  have key : Json.quotedWidth "asns" = 6 := by decide
  have inner : Json.quotedWidth "expr" = 6 := by decide
  simp only [extent, writeExpr, Json.extent_classed_two, key, inner]
  omega

end

/-- The text of a node over as many other operands differs by the texts of the operands. -/
theorem extent_withChildren {e : Expr} {es : List Expr} (fits : es.length = e.children.length) :
    (e.withChildren es).extent + total extent e.children = e.extent + total extent es := by
  have lists : ∀ operands : List Expr, es.length = operands.length →
      (Json.arr (writeExprs es)).extent + total extent operands =
        (Json.arr (writeExprs operands)).extent + total extent es := by
    intro operands lengths
    cases es with
    | nil =>
        obtain rfl := List.length_eq_zero_iff.mp lengths.symm
        rfl
    | cons e rest =>
        cases operands with
        | nil => cases lengths
        | cons other others =>
            rw [Json.extent_arr (by simp [writeExprs]), Json.extent_arr (by simp [writeExprs]),
              total_writeExprs, total_writeExprs]
            omega
  cases e with
  | junction _ _ operands =>
      have own := lists operands fits
      simp only [withChildren, children, extent_junction]
      omega
  | union _ operands =>
      have own := lists operands fits
      simp only [withChildren, children, extent_union]
      omega
  | compare _ _ _ _ =>
      obtain ⟨_, _, rfl⟩ := List.length_eq_two.mp fits
      simp only [withChildren, children, extent_compare, total_cons]
      omega
  | not _ _ | prepend _ _ _ | hasCommunity _ _ _ | inRanges _ _ _ _ | inList _ _ _ _ =>
      obtain ⟨_, rfl⟩ := List.length_eq_one_iff.mp fits
      simp only [withChildren, children, extent_not, extent_prepend, extent_hasCommunity,
        extent_inRanges, extent_inList, total_cons]
      omega
  | lit _ _ | attr _ _ | call _ _ | adjust _ _ _ | namedSet _ _ | unsupported _ _ =>
      obtain rfl := List.length_eq_zero_iff.mp fits
      rfl

end Expr

namespace Statement

/-- The length of the text a statement is written as. -/
def extent (s : Statement) : Nat := (writeStatement s).extent

theorem total_writeStatements (block : List Statement) :
    total Json.extent (writeStatements block) = total extent block := by
  induction block with
  | nil => rfl
  | cons s rest ih => rw [writeStatements, total_cons, total_cons, ih, extent]

theorem extent_branch (cls : Spelling) (guard : Expr) (onTrue onFalse : List Statement)
    (comment : Comment) : (branch cls guard onTrue onFalse comment).extent =
      (spelled cls StatementTag.branch.name).extent + guard.extent +
        (Json.arr (writeStatements onTrue)).extent + (Json.arr (writeStatements onFalse)).extent +
        total Json.memberExtent (writeComment comment) + 56 := by
  have class_ : Json.quotedWidth "class" = 7 := by decide
  have key : Json.quotedWidth "guard" = 7 := by decide
  have yes : Json.quotedWidth "trueStatements" = 16 := by decide
  have no : Json.quotedWidth "falseStatements" = 17 := by decide
  simp only [extent, writeStatement, List.cons_append, List.nil_append, Json.extent_obj,
    Json.memberExtent, total_cons, class_, key, yes, no, Expr.extent]
  omega

theorem extent_assign (cls : Spelling) (target : Settable) (value : Expr) :
    (assign cls target value).extent = (spelled cls (StatementTag.assign target).name).extent +
      Json.quotedWidth (valueKey target) + value.extent + 12 := by
  simp only [extent, writeStatement, Json.extent_classed, Expr.extent]

theorem extent_finish (cls : Spelling) (disposition : Disposition) :
    (finish cls disposition).extent = (spelled cls StatementTag.finish.name).extent +
      Json.quotedWidth (endingName disposition) + 18 := by
  have key : Json.quotedWidth "type" = 6 := by decide
  simp only [extent, writeStatement, Json.extent_classed, Json.extent_str, key]
  omega

theorem extent_pos (s : Statement) : 0 < s.extent := by
  cases s with
  | branch _ _ _ _ _ =>
      rw [extent_branch]
      omega
  | assign _ _ _ =>
      rw [extent_assign]
      omega
  | finish _ _ =>
      rw [extent_finish]
      omega

end Statement

theorem extent_writePolicy (p : Policy) : (writePolicy p).extent =
    Json.quotedWidth p.name + (Json.arr (writeStatements p.statements)).extent + 23 := by
  have name : Json.quotedWidth "name" = 6 := by decide
  have key : Json.quotedWidth "statements" = 12 := by decide
  simp only [writePolicy, Json.extent_obj, Json.memberExtent, total_cons, total_nil,
    Json.extent_str, name, key]
  omega

end RoutePolicy
