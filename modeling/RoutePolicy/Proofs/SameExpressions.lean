import RoutePolicy.Proofs.Erasure
import RoutePolicy.Proofs.NormalForm

/-!
Expressions that are equal up to spelling. Simplification and negation commute with erasing the
spelling, so simplification respects this equality.
-/

set_option autoImplicit false

namespace RoutePolicy.Expr

mutual

theorem content_eq_erase (e : Expr) : e.content = e.erase fun raw => .str raw.compact := by
  cases e <;> simp only [content, erase, content_eq_erase, contentAll_eq_eraseAll]

theorem contentAll_eq_eraseAll (es : List Expr) :
    contentAll es = eraseAll (fun raw => .str raw.compact) es := by
  cases es <;> simp only [contentAll, eraseAll, content_eq_erase, contentAll_eq_eraseAll]

end

theorem negate_content (e : Expr) : e.content.negate = e.negate.content := by
  rw [content_eq_erase, content_eq_erase, negate_erase]

theorem junctionParts_content (op : Junction) (e : Expr) :
    junctionParts op e.content = (junctionParts op e).map content := by
  rw [content_eq_erase, junctionParts_erase]
  exact List.map_congr_left fun part _ => (content_eq_erase part).symm

theorem simplifyNode_content (e : Expr) : e.content.simplifyNode = e.simplifyNode.content := by
  rw [content_eq_erase, content_eq_erase, simplifyNode_erase Json.faithful_compact]

theorem withChildren_content {e : Expr} {es : List Expr} (fits : es.length = e.children.length) :
    (e.withChildren es).content = e.content.withChildren (es.map content) := by
  have erased : es.map content = es.map (erase fun raw => .str raw.compact) :=
    List.map_congr_left fun part _ => content_eq_erase part
  rw [content_eq_erase, erase_withChildren fits, content_eq_erase, erased]

/-- A node is rewritten alike over parts that are equal up to spelling. -/
theorem simplifyNode_congr {e : Expr} {xs ys : List Expr} (fits : xs.length = e.children.length)
    (equal : xs.map content = ys.map content) :
    (e.withChildren xs).simplifyNode.content = (e.withChildren ys).simplifyNode.content := by
  have lengths : ys.length = xs.length := by simpa using (congrArg List.length equal).symm
  rw [← simplifyNode_content, ← simplifyNode_content, withChildren_content fits,
    withChildren_content (lengths.trans fits), equal]

theorem simplify_content (e : Expr) : e.content.simplify = e.simplify.content := by
  rw [content_eq_erase, content_eq_erase, simplify_erase Json.faithful_compact]

/-- Equal expressions have equal simplified forms. -/
theorem same_simplify {a b : Expr} (equal : a.same b = true) :
    a.simplify.same b.simplify = true := by
  rw [same_iff] at equal ⊢
  rw [← simplify_content, ← simplify_content, equal]

end RoutePolicy.Expr
