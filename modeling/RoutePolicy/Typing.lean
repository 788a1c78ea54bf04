import RoutePolicy.Failure
import RoutePolicy.Statement
import RoutePolicy.Statement.Position

/-!
Types of expressions, and the operands that do not fit their operators.
-/

set_option autoImplicit false

namespace RoutePolicy

def Literal.type : Literal → ValueType
  | bool _ => .boolean
  | int _ => .integer
  | address _ => .address
  | network _ => .network
  | communities _ => .communities
  | asPath _ => .asPath

/-- The type of an expression's value, whatever its operands are. -/
def Expr.type : Expr → ValueType
  | lit _ value => value.type
  | attr _ name => name.type
  | junction _ _ _ => .boolean
  | not _ _ => .boolean
  | compare _ _ _ _ => .boolean
  | hasCommunity _ _ _ => .boolean
  | inRanges _ _ _ _ => .boolean
  | inList _ _ _ _ => .boolean
  | union _ _ => .communities
  | prepend _ _ _ => .asPath
  | call _ _ => .boolean
  | adjust _ _ _ => .integer
  | namedSet _ _ => .communities
  | unsupported _ _ => .unknown

/-- Whether a value of the type may stand where another is expected; what is unknown may. -/
def ValueType.fits (actual expected : ValueType) : Bool := actual = expected || actual = unknown

/-- A complaint and the expression it is about. -/
structure Issue where
  complaint : Complaint
  node : Expr

/-- The issue of an operand that has the wrong type. -/
def Issue.ofOperand (role : Role) (expected : ValueType) (operand : Expr) : List Issue :=
  if operand.type.fits expected then [] else [⟨.mismatch role expected operand.type, operand⟩]

namespace Expr

mutual

/-- The issues of an expression, those of an operand before the complaint about its own type. -/
def issues : Expr → List Issue
  | e@(junction _ _ operands) => issuesAll (.operandOf e.kind) .boolean operands
  | not _ operand => operand.issues ++ Issue.ofOperand (.operandOf "not") .boolean operand
  | compare _ _ left right =>
    left.issues ++ Issue.ofOperand .leftSide .integer left ++
      (right.issues ++ Issue.ofOperand .rightSide .integer right)
  | hasCommunity _ subject _ =>
    subject.issues ++ Issue.ofOperand .communitySubject .communities subject
  | inRanges _ subject _ _ => subject.issues ++ Issue.ofOperand .networkSubject .network subject
  | inList _ subject _ _ => subject.issues ++ Issue.ofOperand .networkSubject .network subject
  | union _ operands => issuesAll (.operandOf "union") .communities operands
  | prepend _ _ operand => operand.issues ++ Issue.ofOperand .prependTarget .asPath operand
  | unsupported tag raw => [⟨.uncheckable tag, unsupported tag raw⟩]
  | _ => []

def issuesAll (role : Role) (expected : ValueType) : List Expr → List Issue
  | [] => []
  | operand :: rest =>
    operand.issues ++ Issue.ofOperand role expected operand ++ issuesAll role expected rest

end

/-- The issues of an expression that has to have a type. -/
def issuesAs (e : Expr) (role : Role) (expected : ValueType) : List Issue :=
  e.issues ++ Issue.ofOperand role expected e

/-- No operand has the wrong type. -/
def wellTyped (e : Expr) : Bool := e.issues.all (!·.complaint.isError)

end Expr

/-- An issue and the statement it was found in. -/
structure PlacedIssue where
  issue : Issue
  position : Position

namespace Statement

mutual

/-- The issues of a statement, those of its branches before those of its guard. -/
def issues (here : Position) : Statement → List PlacedIssue
  | branch _ guard onTrue onFalse _ =>
    blockIssues (here ++ [.branch true]) 0 onTrue ++
      blockIssues (here ++ [.branch false]) 0 onFalse ++
      (guard.issuesAs .guard .boolean).map (⟨·, here⟩)
  | assign _ target value =>
    (value.issuesAs (.assigned target) target.toAttribute.type).map (⟨·, here⟩)
  | finish _ _ => []

def blockIssues (above : Position) (i : Nat) : List Statement → List PlacedIssue
  | [] => []
  | s :: rest => s.issues (above ++ [.index i]) ++ blockIssues above (i + 1) rest

end

end Statement

namespace Policy

def issues (p : Policy) : List PlacedIssue := Statement.blockIssues [] 0 p.statements

/-- No guard and no assigned value has a type error. -/
def wellTyped (p : Policy) : Bool := p.issues.all (!·.issue.complaint.isError)

/-- The first type error in the order of checking. -/
def firstError? (p : Policy) : Option PlacedIssue := p.issues.find? (·.issue.complaint.isError)

end Policy

end RoutePolicy
