import RoutePolicy.Expr.Simplify
import RoutePolicy.Statement

/-!
Simplification of statements: guards and values are simplified, a branching whose guard is constant
or whose branches agree is replaced by a branch, and what can no longer run is dropped.
-/

set_option autoImplicit false

namespace RoutePolicy.Statement

/-- The statements up to the first one that ends the policy. -/
def cutAfterEnd : List Statement → List Statement
  | [] => []
  | s :: rest => if s.terminates then [s] else s :: cutAfterEnd rest

mutual

def simplify : Statement → List Statement
  | branch cls guard onTrue onFalse comment =>
    let guard := guard.simplify
    let onTrue := simplifyAll onTrue
    let onFalse := simplifyAll onFalse
    match guard.bool? with
    | some value => if value then onTrue else onFalse
    | none =>
      if sameAll onTrue onFalse then onTrue
      else [branch cls guard onTrue onFalse comment]
  | assign cls target value => [assign cls target value.simplify]
  | finish cls disposition => [finish cls disposition]

/-- Simplifies a block. -/
def simplifyAll : List Statement → List Statement
  | [] => []
  | s :: rest => cutAfterEnd (s.simplify ++ simplifyAll rest)

end

end RoutePolicy.Statement

namespace RoutePolicy

def Policy.simplify (p : Policy) : Policy := ⟨p.name, Statement.simplifyAll p.statements⟩

end RoutePolicy
