import RoutePolicy.Attribute
import RoutePolicy.Json.Text

/-!
Expressions over the attributes of a route.
-/

set_option autoImplicit false

namespace RoutePolicy

/-- The namespace-qualified class name a document used for a node, when it used one. -/
abbrev Spelling := Option String

/-- A constant. Addresses, networks and communities keep the text they were written with. -/
inductive Literal where
  | bool (value : Bool)
  | int (value : Int)
  | address (text : String)
  | network (text : String)
  | communities (members : List String)
  | asPath (asns : List Int)
deriving DecidableEq

/-- The two ways to join conditions. -/
inductive Junction where
  | all
  | any
deriving DecidableEq

/-- The direction of a change of local preference. -/
inductive Shift where
  | increment
  | decrement
deriving DecidableEq

namespace Shift

def name : Shift → String
  | increment => "increment"
  | decrement => "decrement"

def ofName? (word : String) : Option Shift := [increment, decrement].find? (·.name = word)

end Shift

/-- An expression. Every known node may carry its spelling, which has no meaning of its own. -/
inductive Expr where
  | lit (cls : Spelling) (value : Literal)
  | attr (cls : Spelling) (name : Attribute)
  | junction (cls : Spelling) (op : Junction) (operands : List Expr)
  | not (cls : Spelling) (operand : Expr)
  | compare (cls : Spelling) (comparator : Comparator) (left right : Expr)
  | hasCommunity (cls : Spelling) (subject : Expr) (community : String)
  | inRanges (cls : Spelling) (subject : Expr) (ranges : List String) (setCls : Spelling)
  | inList (cls : Spelling) (subject : Expr) (name : String) (setCls : Spelling)
  | union (cls : Spelling) (operands : List Expr)
  | prepend (cls : Spelling) (asns : List Int) (operand : Expr)
  | call (cls : Spelling) (policy : String)
  | adjust (cls : Spelling) (shift : Shift) (amount : Int)
  | namedSet (cls : Spelling) (name : String)
  | unsupported (tag : String) (raw : Json)

namespace Expr

instance : Inhabited Expr := ⟨lit none (.bool false)⟩

def bool (value : Bool) : Expr := lit none (.bool value)

def int (value : Int) : Expr := lit none (.int value)

def ref (name : Attribute) : Expr := attr none name

def all (operands : List Expr) : Expr := junction none .all operands

def any (operands : List Expr) : Expr := junction none .any operands

def bool? : Expr → Option Bool
  | lit _ (.bool value) => some value
  | _ => none

def isLiteral : Expr → Bool
  | lit _ _ => true
  | _ => false

def literal? : Expr → Option Literal
  | lit _ value => some value
  | _ => none

/-- The direct parts of an expression, in order. -/
def children : Expr → List Expr
  | junction _ _ operands => operands
  | union _ operands => operands
  | not _ operand => [operand]
  | prepend _ _ operand => [operand]
  | compare _ _ left right => [left, right]
  | hasCommunity _ subject _ => [subject]
  | inRanges _ subject _ _ => [subject]
  | inList _ subject _ _ => [subject]
  | _ => []

/-- The node with every direct part replaced. -/
def mapChildren (f : Expr → Expr) : Expr → Expr
  | junction cls op operands => junction cls op (operands.map f)
  | union cls operands => union cls (operands.map f)
  | not cls operand => not cls (f operand)
  | prepend cls asns operand => prepend cls asns (f operand)
  | compare cls comparator left right => compare cls comparator (f left) (f right)
  | hasCommunity cls subject community => hasCommunity cls (f subject) community
  | inRanges cls subject ranges setCls => inRanges cls (f subject) ranges setCls
  | inList cls subject name setCls => inList cls (f subject) name setCls
  | leaf => leaf

mutual

/-- The number of nodes. -/
def size : Expr → Nat
  | junction _ _ operands => 1 + sizeAll operands
  | union _ operands => 1 + sizeAll operands
  | not _ operand => 1 + operand.size
  | prepend _ _ operand => 1 + operand.size
  | compare _ _ left right => 1 + left.size + right.size
  | hasCommunity _ subject _ => 1 + subject.size
  | inRanges _ subject _ _ => 1 + subject.size
  | inList _ subject _ _ => 1 + subject.size
  | _ => 1

def sizeAll : List Expr → Nat
  | [] => 0
  | e :: rest => e.size + sizeAll rest

end

mutual

/-- The number of nodes on the longest way down. -/
def depth : Expr → Nat
  | junction _ _ operands => 1 + depthAll operands
  | union _ operands => 1 + depthAll operands
  | not _ operand => 1 + operand.depth
  | prepend _ _ operand => 1 + operand.depth
  | compare _ _ left right => 1 + max left.depth right.depth
  | hasCommunity _ subject _ => 1 + subject.depth
  | inRanges _ subject _ _ => 1 + subject.depth
  | inList _ subject _ _ => 1 + subject.depth
  | _ => 1

def depthAll : List Expr → Nat
  | [] => 0
  | e :: rest => max e.depth (depthAll rest)

end

mutual

/-- The nodes of an expression, each before its parts. -/
def nodes : Expr → List Expr
  | e@(junction _ _ operands) => e :: nodesAll operands
  | e@(union _ operands) => e :: nodesAll operands
  | e@(not _ operand) => e :: operand.nodes
  | e@(prepend _ _ operand) => e :: operand.nodes
  | e@(compare _ _ left right) => e :: (left.nodes ++ right.nodes)
  | e@(hasCommunity _ subject _) => e :: subject.nodes
  | e@(inRanges _ subject _ _) => e :: subject.nodes
  | e@(inList _ subject _ _) => e :: subject.nodes
  | e => [e]

def nodesAll : List Expr → List Expr
  | [] => []
  | e :: rest => e.nodes ++ nodesAll rest

end

/-- The attribute a node reads by itself. -/
def ownAttribute? : Expr → Option Attribute
  | attr _ name => some name
  | adjust _ _ _ => some .localPreference
  | _ => none

/-- The attributes read anywhere, in the order of their first use. -/
def attributes (e : Expr) : List Attribute := (e.nodes.filterMap ownAttribute?).eraseDups

/-- The policy a node calls by itself. -/
def ownCall? : Expr → Option String
  | call _ policy => some policy
  | _ => none

/-- The policies called anywhere, one entry a call. -/
def calls (e : Expr) : List String := e.nodes.filterMap ownCall?

/-- The word for a node's kind in messages. -/
def kind : Expr → String
  | lit _ (.bool _) => "bool"
  | lit _ (.int _) => "int"
  | lit _ (.address _) => "ip"
  | lit _ (.network _) => "network"
  | lit _ (.communities _) => "communitySet"
  | lit _ (.asPath _) => "asPath"
  | attr _ _ => "attr"
  | junction _ .all _ => "and"
  | junction _ .any _ => "or"
  | not _ _ => "not"
  | compare _ _ _ _ => "compare"
  | hasCommunity _ _ _ => "matchCommunity"
  | inRanges _ _ _ _ => "matchPrefix"
  | inList _ _ _ _ => "matchNamedPrefix"
  | union _ _ => "union"
  | prepend _ _ _ => "prepend"
  | call _ _ => "call"
  | adjust _ _ _ => "adjustLocalPref"
  | namedSet _ _ => "communityRef"
  | unsupported _ _ => "unsupported"

mutual

/-- Equality up to spelling. Constructs outside the vocabulary are compared by their text. -/
def same : Expr → Expr → Bool
  | lit _ a, lit _ b => a = b
  | attr _ a, attr _ b => a = b
  | junction _ op as, junction _ op' bs => op = op' && sameAll as bs
  | not _ a, not _ b => same a b
  | compare _ c l r, compare _ c' l' r' => c = c' && same l l' && same r r'
  | hasCommunity _ a c, hasCommunity _ b c' => c = c' && same a b
  | inRanges _ a rs _, inRanges _ b rs' _ => rs = rs' && same a b
  | inList _ a n _, inList _ b n' _ => n = n' && same a b
  | union _ as, union _ bs => sameAll as bs
  | prepend _ ns a, prepend _ ns' b => ns = ns' && same a b
  | call _ p, call _ p' => p = p'
  | adjust _ s n, adjust _ s' n' => s = s' && n = n'
  | namedSet _ n, namedSet _ n' => n = n'
  | unsupported t raw, unsupported t' raw' => t = t' && raw.chars = raw'.chars
  | _, _ => false

def sameAll : List Expr → List Expr → Bool
  | [], [] => true
  | a :: as, b :: bs => same a b && sameAll as bs
  | _, _ => false

end

end Expr

end RoutePolicy
