import RoutePolicy.Expr

/-!
Statements and policies.
-/

set_option autoImplicit false

namespace RoutePolicy

/-- The comment of a branching statement. Documents tell a missing comment from an empty one. -/
inductive Comment where
  | absent
  | null
  | text (words : String)
deriving DecidableEq

/-- A statement of a policy. -/
inductive Statement where
  | branch (cls : Spelling) (guard : Expr) (onTrue onFalse : List Statement) (comment : Comment)
  | assign (cls : Spelling) (target : Settable) (value : Expr)
  | finish (cls : Spelling) (disposition : Disposition)

/-- A named list of statements. -/
structure Policy where
  name : String
  statements : List Statement

namespace Statement

mutual

/-- The number of statements and expression nodes. -/
def size : Statement → Nat
  | branch _ guard onTrue onFalse _ => 1 + guard.size + sizeAll onTrue + sizeAll onFalse
  | assign _ _ value => 1 + value.size
  | finish _ _ => 1

def sizeAll : List Statement → Nat
  | [] => 0
  | s :: rest => s.size + sizeAll rest

end

mutual

/-- The guards and assigned values, each guard before the branches it chooses. -/
def exprs : Statement → List Expr
  | branch _ guard onTrue onFalse _ => guard :: (exprsAll onTrue ++ exprsAll onFalse)
  | assign _ _ value => [value]
  | finish _ _ => []

def exprsAll : List Statement → List Expr
  | [] => []
  | s :: rest => s.exprs ++ exprsAll rest

end

/-- The policies a block calls, in the order of their first use. -/
def calls (block : List Statement) : List String := ((exprsAll block).flatMap Expr.calls).eraseDups

mutual

/-- Whether every way through the statement ends the policy. -/
def terminates : Statement → Bool
  | branch _ _ onTrue onFalse _ => endsBlock onTrue && endsBlock onFalse
  | assign _ _ _ => false
  | finish _ _ => true

/-- Whether the last statement of a block ends the policy. -/
def endsBlock : List Statement → Bool
  | [] => false
  | [s] => s.terminates
  | _ :: rest => endsBlock rest

end

mutual

/-- Equality up to spelling. -/
def same : Statement → Statement → Bool
  | branch _ g t f c, branch _ g' t' f' c' => c = c' && g.same g' && sameAll t t' && sameAll f f'
  | assign _ a v, assign _ a' v' => a = a' && v.same v'
  | finish _ d, finish _ d' => d = d'
  | _, _ => false

def sameAll : List Statement → List Statement → Bool
  | [], [] => true
  | a :: as, b :: bs => same a b && sameAll as bs
  | _, _ => false

end

end Statement

end RoutePolicy
