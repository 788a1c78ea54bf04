import RoutePolicy.Expr.Simplify
import RoutePolicy.Failure
import RoutePolicy.Statement

/-!
Named lists of networks and named community sets, and their use in place of the names. The first
line of a list whose range holds a network decides; a network that no line holds is denied.
-/

set_option autoImplicit false

namespace RoutePolicy

/-- What a line of a list does with the networks it holds. -/
inductive Action where
  | permit
  | deny
deriving DecidableEq

namespace Action

def name : Action → String
  | permit => "permit"
  | deny => "deny"

def ofName? (word : String) : Option Action := [permit, deny].find? (·.name = word)

end Action

/-- A line of a list of networks. -/
structure ListLine where
  action : Action
  range : String

namespace ListLine

def isValid (line : ListLine) : Bool := (NetworkRange.parse? line.range).isSome

/-- The conditions of the permitting lines: the line holds the subject and no earlier line does. -/
def permits (subject : Expr) (earlier : List Expr) : List ListLine → List Expr
  | [] => []
  | line :: rest =>
    let holds := Expr.inRanges none subject [line.range] none
    let later := permits subject (earlier ++ [holds]) rest
    match line.action with
    | .permit => .all (earlier.map (Expr.not none) ++ [holds]) :: later
    | .deny => later

/-- The condition under which a list permits the subject. -/
def condition (lines : List ListLine) (subject : Expr) : Outcome Expr :=
  match lines.find? (!·.isValid) with
  | some line => .error (.reference (.invalidRange line.range))
  | none =>
    match permits subject [] lines with
    | [] => .ok (.bool false)
    | conditions => .ok (Expr.any conditions).simplify

end ListLine

/-- The definitions of a node. -/
structure Definitions where
  lists : Table (List ListLine)
  sets : Table Expr

namespace Expr

mutual

/-- The expression with every name replaced by what it stands for. -/
def inline (defs : Definitions) : Expr → Outcome Expr
  | inList _ subject name _ =>
    match defs.lists.get? name with
    | none => .error (.reference (.undefinedList name))
    | some lines => do
      let subject ← subject.inline defs
      ListLine.condition lines subject
  | namedSet _ name =>
    match defs.sets.get? name with
    | none => .error (.reference (.undefinedSet name))
    | some set => .ok set
  | junction cls op operands => do
    let operands ← inlineAll defs operands
    .ok (junction cls op operands)
  | union cls operands => do
    let operands ← inlineAll defs operands
    .ok (union cls operands)
  | not cls operand => do
    let operand ← operand.inline defs
    .ok (not cls operand)
  | prepend cls asns operand => do
    let operand ← operand.inline defs
    .ok (prepend cls asns operand)
  | compare cls comparator left right => do
    let left ← left.inline defs
    let right ← right.inline defs
    .ok (compare cls comparator left right)
  | hasCommunity cls subject community => do
    let subject ← subject.inline defs
    .ok (hasCommunity cls subject community)
  | inRanges cls subject ranges setCls => do
    let subject ← subject.inline defs
    .ok (inRanges cls subject ranges setCls)
  | lit cls value => .ok (lit cls value)
  | attr cls name => .ok (attr cls name)
  | call cls policy => .ok (call cls policy)
  | adjust cls shift amount => .ok (adjust cls shift amount)
  | unsupported tag raw => .ok (unsupported tag raw)

def inlineAll (defs : Definitions) : List Expr → Outcome (List Expr)
  | [] => .ok []
  | e :: rest => do
    let first ← e.inline defs
    let others ← inlineAll defs rest
    .ok (first :: others)

end

end Expr

namespace Statement

mutual

def inline (defs : Definitions) : Statement → Outcome Statement
  | branch cls guard onTrue onFalse comment => do
    let guard ← guard.inline defs
    let onTrue ← inlineAll defs onTrue
    let onFalse ← inlineAll defs onFalse
    .ok (branch cls guard onTrue onFalse comment)
  | assign cls target value => do
    let value ← value.inline defs
    .ok (assign cls target value)
  | finish cls disposition => .ok (finish cls disposition)

def inlineAll (defs : Definitions) : List Statement → Outcome (List Statement)
  | [] => .ok []
  | s :: rest => do
    let first ← s.inline defs
    let others ← inlineAll defs rest
    .ok (first :: others)

end

end Statement

/-- The policy with every name replaced by what it stands for. -/
def Policy.inline (defs : Definitions) (p : Policy) : Outcome Policy := do
  let statements ← Statement.inlineAll defs p.statements
  .ok ⟨p.name, statements⟩

end RoutePolicy
