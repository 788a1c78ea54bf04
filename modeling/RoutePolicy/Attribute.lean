/-!
The vocabulary of routing policies: route attributes, value types, comparators and dispositions,
each with the word documents use for it.
-/

set_option autoImplicit false

namespace RoutePolicy

/-- An attribute of a route. -/
inductive Attribute where
  | network
  | nextHop
  | communities
  | localPreference
  | metric
  | weight
  | tag
  | asPath
deriving DecidableEq

namespace Attribute

def name : Attribute → String
  | network => "prefix"
  | nextHop => "nextHop"
  | communities => "communities"
  | localPreference => "localPreference"
  | metric => "metric"
  | weight => "weight"
  | tag => "tag"
  | asPath => "asPath"

def all : List Attribute :=
  [network, nextHop, communities, localPreference, metric, weight, tag, asPath]

def ofName? (word : String) : Option Attribute := all.find? (·.name = word)

theorem mem_all (a : Attribute) : a ∈ all := by cases a <;> decide

end Attribute

/-- An attribute a policy may assign: all but the network, which a route keeps. -/
inductive Settable where
  | localPreference
  | metric
  | weight
  | tag
  | communities
  | nextHop
  | asPath
deriving DecidableEq

namespace Settable

def toAttribute : Settable → Attribute
  | localPreference => .localPreference
  | metric => .metric
  | weight => .weight
  | tag => .tag
  | communities => .communities
  | nextHop => .nextHop
  | asPath => .asPath

def all : List Settable :=
  [localPreference, metric, weight, tag, communities, nextHop, asPath]

def ofName? (word : String) : Option Settable := all.find? (·.toAttribute.name = word)

end Settable

/-- The type of an expression's value. -/
inductive ValueType where
  | boolean
  | integer
  | communities
  | network
  | address
  | asPath
  | unknown
deriving DecidableEq

namespace ValueType

def name : ValueType → String
  | boolean => "boolean"
  | integer => "integer"
  | communities => "communities"
  | network => "prefix"
  | address => "ip"
  | asPath => "aspath"
  | unknown => "unknown"

end ValueType

/-- The type of an attribute's values. -/
def Attribute.type : Attribute → ValueType
  | network => .network
  | nextHop => .address
  | communities => .communities
  | localPreference => .integer
  | metric => .integer
  | weight => .integer
  | tag => .integer
  | asPath => .asPath

/-- A comparison of integers. -/
inductive Comparator where
  | eq
  | ge
  | gt
  | le
  | lt
deriving DecidableEq

namespace Comparator

def name : Comparator → String
  | eq => "EQ"
  | ge => "GE"
  | gt => "GT"
  | le => "LE"
  | lt => "LT"

def all : List Comparator := [eq, ge, gt, le, lt]

def ofName? (word : String) : Option Comparator := all.find? (·.name = word)

def holds : Comparator → Int → Int → Bool
  | eq, a, b => a = b
  | ge, a, b => b ≤ a
  | gt, a, b => b < a
  | le, a, b => a ≤ b
  | lt, a, b => a < b

end Comparator

/-- How a policy ends. -/
inductive Disposition where
  | accept
  | reject
  | pass
deriving DecidableEq

namespace Disposition

def name : Disposition → String
  | accept => "accept"
  | reject => "reject"
  | pass => "pass"

def all : List Disposition := [accept, reject, pass]

def ofName? (word : String) : Option Disposition := all.find? (·.name = word)

end Disposition

end RoutePolicy
