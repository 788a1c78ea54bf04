import RoutePolicy.Expr
import RoutePolicy.Ipv4.Network

/-!
Simplification of expressions: one rule a kind of node, applied from the leaves up. A node is
rewritten after its parts, so one pass is enough.
-/

set_option autoImplicit false

namespace RoutePolicy

/-- The first of every group of related items. -/
def distinct {α : Type} (related : α → α → Bool) : List α → List α
  | [] => []
  | x :: rest => x :: (distinct related rest).filter fun y => !related x y

namespace Expr

/-- The negation of an expression that is already simple. -/
def negate : Expr → Expr
  | lit _ (.bool value) => bool (!value)
  | not _ operand => operand
  | e => not none e

/-- The operands an operand of a junction brings: its own, if it joins in the same way. -/
def junctionParts (op : Junction) : Expr → List Expr
  | e@(junction _ op' operands) => if op' = op then operands else [e]
  | e => [e]

/-- The constant a junction ignores; the other one decides it. -/
def Junction.neutral (op : Junction) : Bool := op = .all

/-- Whether an operand is the negation of another one. -/
def hasComplement (operands : List Expr) : Expr → Bool
  | not _ operand => operands.any (·.same operand)
  | _ => false

/-- A junction without nested junctions of its kind, constants, repeated operands or an operand
beside its negation. -/
def simplifyJunction (op : Junction) (operands : List Expr) : Expr :=
  let neutral := Junction.neutral op
  let parts := operands.flatMap (junctionParts op)
  if parts.any (·.bool? = some !neutral) then bool !neutral
  else
    let kept := distinct same (parts.filter (·.bool?.isNone))
    if kept.any (hasComplement kept) then bool !neutral
    else match kept with
      | [] => bool neutral
      | [e] => e
      | es => junction none op es

def unionParts : Expr → List Expr
  | union _ operands => operands
  | e => [e]

def communities? : Expr → Option (List String)
  | lit _ (.communities members) => some members
  | _ => none

/-- A union without nested unions and repeated operands; its literal sets are merged into one, which
stands where the first of them stood. -/
def simplifyUnion (operands : List Expr) : Expr :=
  let parts := operands.flatMap unionParts
  let literals := parts.filterMap communities?
  let rest := distinct same (parts.filter (·.communities?.isNone))
  let merged :=
    if literals.isEmpty then rest
    else
      let place := (distinct same (parts.takeWhile (·.communities?.isNone))).length
      let members := distinct (· == ·) literals.flatten
      rest.take place ++ lit none (.communities members) :: rest.drop place
  match merged with
  | [e] => e
  | es => union none es

/-- A literal set decides a match; a union that holds one either decides it or does without it. -/
def simplifyHasCommunity (subject : Expr) (community : String) : Expr :=
  match subject with
  | lit _ (.communities members) => bool (members.contains community)
  | union _ operands =>
    match operands.findSome? communities? with
    | none => hasCommunity none subject community
    | some members =>
      if members.contains community then bool true
      else
        match operands.eraseP (·.communities?.isSome) with
        | [e] => hasCommunity none e community
        | es => hasCommunity none (union none es) community
  | _ => hasCommunity none subject community

/-- A literal network decides a match, if its text is well formed. -/
def simplifyInRanges (subject : Expr) (ranges : List String) : Expr :=
  match subject with
  | lit _ (.network text) =>
    match Network.parse? text with
    | some n => bool (ranges.any (NetworkRange.textCovers · n))
    | none => inRanges none subject ranges none
  | _ => inRanges none subject ranges none

/-- Prepended AS numbers move into a literal path or an inner prepending. -/
def simplifyPrepend (asns : List Int) (operand : Expr) : Expr :=
  if asns.isEmpty then operand
  else match operand with
    | lit _ (.asPath rest) => lit none (.asPath (asns ++ rest))
    | prepend _ inner base => prepend none (asns ++ inner) base
    | _ => prepend none asns operand

/-- Rewrites one node whose parts are simple. -/
def simplifyNode : Expr → Expr
  | not _ operand => negate operand
  | junction _ op operands => simplifyJunction op operands
  | e@(compare _ comparator left right) =>
    match left, right with
    | lit _ (.int a), lit _ (.int b) => bool (comparator.holds a b)
    | _, _ => e
  | union _ operands => simplifyUnion operands
  | hasCommunity _ subject community => simplifyHasCommunity subject community
  | inRanges _ subject ranges _ => simplifyInRanges subject ranges
  | prepend _ asns operand => simplifyPrepend asns operand
  | e => e

/-- The rewritten node, or the node itself with its spelling when nothing changes. -/
def settle (e : Expr) : Expr :=
  let result := e.simplifyNode
  if result.same e then e else result

mutual

/-- The simplest expression with the same value that the rules reach. -/
def simplify : Expr → Expr
  | junction cls op operands => settle (junction cls op (simplifyAll operands))
  | union cls operands => settle (union cls (simplifyAll operands))
  | not cls operand => settle (not cls operand.simplify)
  | prepend cls asns operand => settle (prepend cls asns operand.simplify)
  | compare cls comparator left right => settle (compare cls comparator left.simplify right.simplify)
  | hasCommunity cls subject community => settle (hasCommunity cls subject.simplify community)
  | inRanges cls subject ranges setCls => settle (inRanges cls subject.simplify ranges setCls)
  | inList cls subject name setCls => settle (inList cls subject.simplify name setCls)
  | leaf => leaf

def simplifyAll : List Expr → List Expr
  | [] => []
  | e :: rest => e.simplify :: simplifyAll rest

end

end Expr

end RoutePolicy
