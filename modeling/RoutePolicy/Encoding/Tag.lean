import RoutePolicy.Statement

/-!
The class names of the service's encoding. A name may be qualified by namespaces; only its last
segment counts.
-/

set_option autoImplicit false

namespace RoutePolicy.Encoding

/-- The segment after the last point and then after the last dollar sign. -/
def lastSegment (name : String) : String :=
  String.ofList (Text.afterLast '$' (Text.afterLast '.' name.toList))

/-- The classes of expressions. -/
inductive ExprTag where
  | boolean
  | integer
  | ref
  | all
  | any
  | not
  | compare
  | hasCommunity
  | matchNetworks
  | communities
  | union
  | address
  | network
  | asPath
  | prepend
  | call
  | increment
  | decrement
  | namedSet
deriving DecidableEq

namespace ExprTag

def name : ExprTag → String
  | boolean => "StaticBooleanExpr"
  | integer => "LiteralLong"
  | ref => "RouteAttribute"
  | all => "Conjunction"
  | any => "Disjunction"
  | not => "Not"
  | compare => "IntComparison"
  | hasCommunity => "MatchCommunity"
  | matchNetworks => "MatchPrefixSet"
  | communities => "LiteralCommunitySet"
  | union => "CommunitySetUnion"
  | address => "LiteralIp"
  | network => "LiteralPrefix"
  | asPath => "LiteralAsPath"
  | prepend => "PrependAsPath"
  | call => "CallExpr"
  | increment => "IncrementLocalPreference"
  | decrement => "DecrementLocalPreference"
  | namedSet => "CommunitySetReference"

def values : List ExprTag :=
  [boolean, integer, ref, all, any, not, compare, hasCommunity, matchNetworks, communities, union,
   address, network, asPath, prepend, call, increment, decrement, namedSet]

def ofName? (word : String) : Option ExprTag := values.find? (·.name = word)

end ExprTag

/-- The classes of sets of networks. -/
inductive SetTag where
  | explicit
  | named
deriving DecidableEq

namespace SetTag

def name : SetTag → String
  | explicit => "ExplicitPrefixSet"
  | named => "NamedPrefixSet"

def values : List SetTag := [explicit, named]

def ofName? (word : String) : Option SetTag := values.find? (·.name = word)

end SetTag

/-- The classes of statements; every settable attribute has one of its own. -/
inductive StatementTag where
  | branch
  | finish
  | assign (target : Settable)
deriving DecidableEq

namespace StatementTag

def name : StatementTag → String
  | branch => "If"
  | finish => "StaticStatement"
  | assign .localPreference => "SetLocalPreference"
  | assign .metric => "SetMetric"
  | assign .weight => "SetWeight"
  | assign .tag => "SetTag"
  | assign .communities => "SetCommunities"
  | assign .nextHop => "SetNextHop"
  | assign .asPath => "SetAsPath"

def values : List StatementTag := branch :: finish :: Settable.all.map assign

def ofName? (word : String) : Option StatementTag := values.find? (·.name = word)

end StatementTag

/-- The member that holds the value an assignment gives. -/
def valueKey : Settable → String
  | .localPreference => "localPreference"
  | .metric => "metric"
  | .weight => "weight"
  | .tag => "tag"
  | .communities => "communitySetExpr"
  | .nextHop => "expr"
  | .asPath => "asPath"

/-- The word for how a policy ends. -/
def endingName : Disposition → String
  | .accept => "ExitAccept"
  | .reject => "ExitReject"
  | .pass => "FallThrough"

def ending? (word : String) : Option Disposition := Disposition.all.find? (endingName · = word)

/-- The largest AS number. -/
def maxAsn : Int := 4294967295

end RoutePolicy.Encoding
