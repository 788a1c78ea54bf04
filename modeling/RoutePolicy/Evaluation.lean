import RoutePolicy.Expr.Simplify
import RoutePolicy.Record
import RoutePolicy.Typing

/-!
Evaluation of expressions over a route record. What the record decides becomes a literal; the rest
stays as an expression over the attributes of the route that came in.
-/

set_option autoImplicit false

namespace RoutePolicy

/-- How a sum of local preferences is represented. -/
class Arithmetic where
  round : Int → Int

/-- Sums are rounded as the numbers of documents are. -/
instance Arithmetic.binary64 : Arithmetic := ⟨Number.roundInt⟩

/-- The condition under which a called policy accepts the route of a record. -/
abbrev Calls := String → Record → Outcome Expr

/-- No policy can be called. -/
def Calls.none : Calls := fun policy _ => .error (.evaluation (.callOutside policy))

namespace Expr

/-- The type an operator needs its operands to have. -/
def operandType? : Expr → Option ValueType
  | junction _ _ _ => some .boolean
  | not _ _ => some .boolean
  | compare _ _ _ _ => some .integer
  | hasCommunity _ _ _ => some .communities
  | union _ _ => some .communities
  | inRanges _ _ _ _ => some .network
  | inList _ _ _ _ => some .network
  | prepend _ _ _ => some .asPath
  | _ => none

/-- Simplifies a node whose operands have been evaluated, if they have the types it needs. -/
def combine (e : Expr) : Outcome Expr :=
  match e.operandType? with
  | none => .ok e.simplifyNode
  | some expected =>
    match e.children.find? (!·.type.fits expected) with
    | some operand => .error (.evaluation (.typeMismatch e.kind expected operand.type))
    | none => .ok e.simplifyNode

end Expr

/-- The change of local preference a shift by an amount makes. -/
def Shift.delta : Shift → Int → Int
  | increment, amount => amount
  | decrement, amount => -amount

/-- The local preference of the incoming route, moved by `delta`. -/
def Expr.offset (delta : Int) : Expr :=
  if delta = 0 then .ref .localPreference
  else if 0 < delta then .adjust none .increment delta
  else .adjust none .decrement (-delta)

variable [Arithmetic]

/-- A local preference moved by `delta`. Shifts of the incoming value add up. -/
def Expr.moved (current : Expr) (delta : Int) : Outcome Expr :=
  match current with
  | .lit _ (.int value) => .ok (.int (Arithmetic.round (value + delta)))
  | .adjust _ shift amount => .ok (.offset (Arithmetic.round (shift.delta amount + delta)))
  | .attr _ .localPreference => .ok (.offset delta)
  | e => .error (.evaluation (.unadjustable e.kind))

namespace Expr

mutual

/-- The value of an expression as far as a record decides it. -/
def evaluate (calls : Calls) (r : Record) : Expr → Outcome Expr
  | attr _ name => r.lookup name
  | adjust _ shift amount => do
    let current ← r.lookup .localPreference
    current.moved (shift.delta amount)
  | call _ policy => calls policy r
  | inList _ _ name _ => .error (.evaluation (.unresolvedList name))
  | namedSet _ name => .error (.evaluation (.unresolvedSet name))
  | unsupported tag _ => .error (.evaluation (.unsupported tag))
  | lit cls value => .ok (lit cls value)
  | junction cls op operands => do
    let operands ← evaluateAll calls r operands
    combine (junction cls op operands)
  | union cls operands => do
    let operands ← evaluateAll calls r operands
    combine (union cls operands)
  | not cls operand => do
    let operand ← operand.evaluate calls r
    combine (not cls operand)
  | prepend cls asns operand => do
    let operand ← operand.evaluate calls r
    combine (prepend cls asns operand)
  | compare cls comparator left right => do
    let left ← left.evaluate calls r
    let right ← right.evaluate calls r
    combine (compare cls comparator left right)
  | hasCommunity cls subject community => do
    let subject ← subject.evaluate calls r
    combine (hasCommunity cls subject community)
  | inRanges cls subject ranges setCls => do
    let subject ← subject.evaluate calls r
    combine (inRanges cls subject ranges setCls)

def evaluateAll (calls : Calls) (r : Record) : List Expr → Outcome (List Expr)
  | [] => .ok []
  | e :: rest => do
    let value ← e.evaluate calls r
    let values ← evaluateAll calls r rest
    .ok (value :: values)

end

/-- The value of an expression, which must be a literal. -/
def evaluateConcrete (calls : Calls) (r : Record) (e : Expr) : Outcome Expr := do
  let value ← e.evaluate calls r
  if value.isLiteral then .ok value
  else .error (.evaluation (.symbolic e.kind))

end Expr

end RoutePolicy
