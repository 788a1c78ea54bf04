import RoutePolicy.Attribute
import RoutePolicy.Failure.Location
import RoutePolicy.Json.Text

/-!
What can go wrong, and the words for it.
-/

set_option autoImplicit false

namespace RoutePolicy

/-- The part an operand plays in its expression or statement. -/
inductive Role where
  | operandOf (kind : String)
  | leftSide
  | rightSide
  | communitySubject
  | networkSubject
  | prependTarget
  | guard
  | assigned (target : Settable)
deriving DecidableEq

def Role.text : Role → String
  | operandOf kind => s!"Operand of {kind}"
  | leftSide => "Left side of comparison"
  | rightSide => "Right side of comparison"
  | communitySubject => "Community match subject"
  | networkSubject => "Prefix match subject"
  | prependTarget => "Prepend target"
  | guard => "Guard"
  | assigned target => "Value assigned to " ++ target.toAttribute.name

/-- What is wrong with the type of an expression. -/
inductive Complaint where
  | mismatch (role : Role) (expected actual : ValueType)
  | uncheckable (tag : String)
deriving DecidableEq

/-- A construct that cannot be checked is only a warning. -/
def Complaint.isError : Complaint → Bool
  | mismatch _ _ _ => true
  | uncheckable _ => false

def Complaint.text : Complaint → String
  | mismatch role expected actual =>
    role.text ++ " must be " ++ expected.name ++ ", got " ++ actual.name
  | uncheckable tag => s!"Unsupported construct '{tag}' cannot be checked"

/-- A document that is no policy. -/
inductive EncodingFault where
  | expectedObject
  | expectedStatements
  | missing (key : String)
  | notString (key : String)
  | notInteger (key : String)
  | notArray (key : String)
  | empty (key : String)
  | negative (key : String)
  | invalidRangeItem (item : Json)
  | invalidCommunityItem (item : Json)
  | invalidAsn (item : Json)
  | unknownBoolean (word : String)
  | unknownAttribute (word : String)
  | unknownComparator (word : String)
  | unknownEnding (word : String)
  | invalidCommunity (word : String)
  | invalidAddress (word : String)
  | invalidNetwork (word : String)
  | unsupportedSet (tag : String)
  | unsupportedExpression (tag : String)
  | unsupportedStatement (tag : String)
  | invalidComment

def EncodingFault.text : EncodingFault → String
  | expectedObject => "Expected an object"
  | expectedStatements => "Expected an array of statements"
  | missing key => s!"Missing required field '{key}'"
  | notString key => s!"Field '{key}' must be a string"
  | notInteger key => s!"Field '{key}' must be an integer"
  | notArray key => s!"Field '{key}' must be an array"
  | empty key => s!"Field '{key}' must not be empty"
  | negative key => s!"Field '{key}' must not be negative"
  | invalidRangeItem item => "Invalid prefix range " ++ item.compact
  | invalidCommunityItem item => "Invalid community " ++ item.compact
  | invalidAsn item => "Invalid AS number " ++ item.compact
  | unknownBoolean word => s!"Unknown boolean constant '{word}'"
  | unknownAttribute word => s!"Unknown route attribute '{word}'"
  | unknownComparator word => s!"Unknown comparator '{word}'"
  | unknownEnding word => s!"Unknown static statement '{word}'"
  | invalidCommunity word => s!"Invalid community '{word}'"
  | invalidAddress word => s!"Invalid address '{word}'"
  | invalidNetwork word => s!"Invalid prefix '{word}'"
  | unsupportedSet tag => s!"Unsupported prefix set '{tag}'"
  | unsupportedExpression tag => s!"Unsupported expression '{tag}'"
  | unsupportedStatement tag => s!"Unsupported statement '{tag}'"
  | invalidComment => "Field 'comment' must be a string or null"

/-- A reference that definitions do not resolve. -/
inductive ReferenceFault where
  | invalidRange (text : String)
  | undefinedList (name : String)
  | undefinedSet (name : String)

def ReferenceFault.text : ReferenceFault → String
  | invalidRange range => s!"Invalid prefix range '{range}'"
  | undefinedList name => s!"Undefined prefix list '{name}'"
  | undefinedSet name => s!"Undefined community set '{name}'"

/-- Parts that do not make a topology. -/
inductive TopologyFault where
  | invalidNetwork (text : String)
  | danglingPolicy
  | undefinedCallee (name : String)
  | duplicateNode
  | unknownNode
  | unknownInterface

def TopologyFault.text : TopologyFault → String
  | invalidNetwork network => s!"Invalid prefix '{network}'"
  | danglingPolicy => "Interface references an undefined policy"
  | undefinedCallee name => s!"Policy calls undefined policy '{name}'"
  | duplicateNode => "Duplicate node"
  | unknownNode => "Edge references an unknown node"
  | unknownInterface => "Edge references an unknown interface"

/-- A document that is no condensed topology. -/
inductive CondensedFault where
  | expectedDocument
  | unsupportedVersion (found : Json)
  | expectedObject
  | expectedArray
  | expectedEndpoint
  | expectedEdge
  | expectedNetwork
  | invalidAsn
  | invalidExternal
  | conflictingPolicies
  | misnamedPolicy

def CondensedFault.text : CondensedFault → String
  | expectedDocument => "Expected an IR document object"
  | unsupportedVersion found => "Unsupported IR version " ++ found.compact
  | expectedObject => "Expected an object"
  | expectedArray => "Expected an array"
  | expectedEndpoint => "Expected a [node, interface] pair"
  | expectedEdge => "Expected a [from, to] pair"
  | expectedNetwork => "Expected a prefix string"
  | invalidAsn => "Field asn must be a non-negative integer"
  | invalidExternal => "Field external must be true or false"
  | conflictingPolicies => "Conflicting definitions of policy"
  | misnamedPolicy => "Policy is listed under another name"

/-- Tables of the analysis service that describe no network. -/
inductive TableFault where
  | expectedTables
  | notArray (table : String)
  | expectedRow
  | notString (key : String)
  | notAsn (key : String)
  | expectedNode
  | expectedInterface
  | expectedLines
  | expectedLine
  | unknownAction (word : String)
  | invalidRange (text : String)
  | expectedProcess
  | expectedNeighbors
  | expectedNeighbor
  | invalidPeer (text : String)
  | expectedPolicyList
  | expectedPolicyName
  | missingDefinition
  | notCommunities
  | invalidAddress
  | peerNamedLikeNode

def TableFault.text : TableFault → String
  | expectedTables => "Expected raw service data object"
  | notArray table => s!"Table '{table}' must be an array"
  | expectedRow => "Expected a row object"
  | notString key => s!"Field '{key}' must be a string"
  | notAsn key => s!"Field '{key}' must be an AS number"
  | expectedNode => "Expected a node reference"
  | expectedInterface => "Expected an interface reference \x7b hostname, interface \x7d"
  | expectedLines => "Expected a list of route filter lines"
  | expectedLine => "Expected a route filter line"
  | unknownAction word => s!"Unknown route filter action '{word}'"
  | invalidRange range => s!"Invalid route filter range '{range}'"
  | expectedProcess => "Expected a BGP process"
  | expectedNeighbors => "Expected a neighbor table"
  | expectedNeighbor => "Expected a neighbor config"
  | invalidPeer peer => s!"Invalid neighbor address '{peer}'"
  | expectedPolicyList => "Expected a list of policy names"
  | expectedPolicyName => "Expected a policy name"
  | missingDefinition => "Missing structure definition"
  | notCommunities => "Community set must be a constant set of communities"
  | invalidAddress => "Invalid interface address"
  | peerNamedLikeNode => "External peer has the name of a node in the snapshot"

/-- A document that cannot be read. -/
inductive DocumentFault where
  | encoding (fault : EncodingFault)
  | reference (fault : ReferenceFault)
  | topology (fault : TopologyFault)
  | condensed (fault : CondensedFault)
  | table (fault : TableFault)
  | illTyped (complaint : Complaint)
  | other (message : String)

def DocumentFault.text : DocumentFault → String
  | encoding fault => fault.text
  | reference fault => fault.text
  | topology fault => fault.text
  | condensed fault => fault.text
  | table fault => fault.text
  | illTyped complaint => "Type error: " ++ complaint.text
  | other message => message

/-- A policy that cannot be evaluated. -/
inductive EvaluationFault where
  | undefinedAttribute (name : Attribute)
  | unassignableAttribute (name : Attribute)
  | callOutside (policy : String)
  | unresolvedList (name : String)
  | unresolvedSet (name : String)
  | unsupported (tag : String)
  | typeMismatch (kind : String) (expected actual : ValueType)
  | unadjustable (kind : String)
  | symbolic (kind : String)
  | guardLiteral (kind : String)
  | recursiveCall (policy : String)
  | undefinedCall (policy : String)
  | tooManyPaths (limit : Int)
  | tooManyChainPaths (limit : Int)
  | other (message : String)

def EvaluationFault.text : EvaluationFault → String
  | undefinedAttribute name => "Route attribute '" ++ name.name ++ "' is not defined"
  | unassignableAttribute name => "Cannot assign undefined route attribute '" ++ name.name ++ "'"
  | callOutside policy => s!"Cannot evaluate call to policy '{policy}' here"
  | unresolvedList name => s!"Unresolved prefix list '{name}'"
  | unresolvedSet name => s!"Unresolved community set '{name}'"
  | unsupported tag => s!"Cannot evaluate unsupported construct '{tag}'"
  | typeMismatch kind expected actual =>
    s!"Type mismatch in {kind}: expected " ++ expected.name ++ ", got " ++ actual.name
  | unadjustable kind => s!"Cannot adjust a local preference of kind '{kind}'"
  | symbolic kind => s!"Expression of kind '{kind}' depends on symbolic route attributes"
  | guardLiteral kind => s!"Guard evaluated to a {kind} literal"
  | recursiveCall policy => s!"Recursive call to policy '{policy}'"
  | undefinedCall policy => s!"Call to undefined policy '{policy}'"
  | tooManyPaths limit => s!"Policy exceeds {limit} execution paths"
  | tooManyChainPaths limit => s!"Policy chain exceeds {limit} execution paths"
  | other message => message

/-- A query that cannot be asked. -/
inductive QueryFault where
  | unknownSource (node : String)
  | invalidDestination (text : String)
  | notInteger (name : Attribute)
  | invalidNetwork (text : String)
  | invalidNextHop (text : String)
  | invalidCommunity (text : String)
  | invalidAsPath
  | notQueryFile (path : String)
  | noEntryDestination (entry : String)
  | entryField (field expectation : String)
  | unknownRouteAttribute (entry name : String)
  | other (message : String)

def QueryFault.text : QueryFault → String
  | unknownSource node => s!"Unknown source node '{node}'"
  | invalidDestination text => s!"Invalid destination '{text}'"
  | notInteger name => "Route attribute '" ++ name.name ++ "' must be an integer"
  | invalidNetwork text => s!"Invalid route prefix '{text}'"
  | invalidNextHop text => s!"Invalid next hop '{text}'"
  | invalidCommunity text => s!"Invalid community '{text}'"
  | invalidAsPath => "Route AS path must hold non-negative integers"
  | notQueryFile path => s!"Invalid query file {path}: expected a 'queries' list"
  | noEntryDestination entry => s!"{entry} must have a destination"
  | entryField field expectation => s!"{field} must be {expectation}"
  | unknownRouteAttribute entry name => s!"{entry}.route: unknown attribute '{name}'"
  | other message => message

/-- A setting that is refused. -/
inductive SettingFault where
  | notMapping
  | unknownKey (key : String)
  | sectionNotMapping (key : String)
  | notUrl
  | notBoolean
  | unknownLevel (shown : String)
  | notPositive (key : String)
  | notNatural (key : String)

def SettingFault.text : SettingFault → String
  | notMapping => "expected a mapping at the top level"
  | unknownKey key => s!"unknown key '{key}'"
  | sectionNotMapping key => s!"'{key}' must be a mapping"
  | notUrl => "'service.url' must be an http(s) URL"
  | notBoolean => "'simplify' must be true or false"
  | unknownLevel shown => s!"unknown logLevel '{shown}'"
  | notPositive key => s!"'{key}' must be a positive integer"
  | notNatural key => s!"'{key}' must be a non-negative integer"

/-- Settings that cannot be loaded. -/
inductive ConfigFault where
  | setting (source : String) (fault : SettingFault)
  | timeoutVariable (text : String)
  | levelVariable (text : String)
  | notFound (path : String)
  | unreadable (path reason : String)
  | other (message : String)

def ConfigFault.text : ConfigFault → String
  | setting source fault => s!"{source}: " ++ fault.text
  | timeoutVariable text => s!"ROUTE_CONDENSER_TIMEOUT_MS must be a positive integer, got '{text}'"
  | levelVariable text => s!"ROUTE_CONDENSER_LOG_LEVEL: unknown level '{text}'"
  | notFound path => s!"Config file not found: {path}"
  | unreadable path reason => s!"{path}: {reason}"
  | other message => message

/-- An answer of the analysis service that is no answer to the request. -/
inductive RequestFault where
  | status (code : Number) (body : String)
  | notAnObject
  | timedOut (milliseconds : Number)
  | failed (reason : String)
  | noSnapshot
  | noRows (question : String)
  | invalidRow (question : String)
  | other (message : String) (code : Option Number) (body : Option String)

namespace RequestFault

def text : RequestFault → String
  | status code _ => "Service returned status " ++ code.text
  | notAnObject => "Invalid response format"
  | timedOut milliseconds => "Request timed out after " ++ milliseconds.text ++ "ms"
  | failed reason => s!"Request failed: {reason}"
  | noSnapshot => "Missing or invalid snapshot in response"
  | noRows question => s!"Missing or invalid rows for {question}"
  | invalidRow question => s!"Invalid row in {question} answer"
  | other message _ _ => message

def code? : RequestFault → Option Number
  | status code _ => some code
  | other _ code _ => code
  | _ => none

def body? : RequestFault → Option String
  | status _ body => some body
  | other _ _ body => body
  | _ => none

end RequestFault

/-- The service could not be reached in all attempts. -/
inductive OutageFault where
  | down (url lastMessage : String)
  | other (message : String)

namespace OutageFault

def text : OutageFault → String
  | down url lastMessage => s!"Analysis service at {url} is unavailable: {lastMessage}"
  | other message => message

/-- The message of the last attempt. -/
def last? : OutageFault → Option String
  | down _ lastMessage => some lastMessage
  | other _ => none

end OutageFault

/-- The stable codes of failures. -/
inductive FailureCode where
  | parse
  | interpret
  | cycleBound
  | query
  | serviceUnavailable
  | service
  | config
deriving DecidableEq

namespace FailureCode

def text : FailureCode → String
  | parse => "PARSE_ERROR"
  | interpret => "INTERPRET_ERROR"
  | cycleBound => "CYCLE_BOUND"
  | query => "QUERY_ERROR"
  | serviceUnavailable => "SERVICE_UNAVAILABLE"
  | service => "SERVICE_ERROR"
  | config => "CONFIG_ERROR"

def all : List FailureCode :=
  [parse, interpret, cycleBound, query, serviceUnavailable, service, config]

def ofText? (word : String) : Option FailureCode := all.find? (·.text = word)

end FailureCode

/-- The cause of a failure. -/
inductive Cause where
  | malformed (fault : DocumentFault) (place : Location)
  | evaluation (fault : EvaluationFault)
  | cycleBound (limit : Number)
  | query (fault : QueryFault)
  | unavailable (fault : OutageFault)
  | request (fault : RequestFault)
  | config (fault : ConfigFault)
  | general (code : FailureCode) (message : String)

namespace Cause

def code : Cause → FailureCode
  | malformed _ _ => .parse
  | evaluation _ => .interpret
  | cycleBound _ => .cycleBound
  | query _ => .query
  | unavailable _ => .serviceUnavailable
  | request _ => .service
  | config _ => .config
  | general code _ => code

/-- The words for a cause; a document's fault names its place unless that is the root. -/
def message : Cause → String
  | malformed fault place =>
    if place.text.isEmpty then fault.text else fault.text ++ " at " ++ place.text
  | evaluation fault => fault.text
  | cycleBound limit =>
    "Propagation did not reach a fixed point within " ++ limit.text ++
      " steps; result is inconclusive"
  | query fault => fault.text
  | unavailable fault => fault.text
  | request fault => fault.text
  | config fault => fault.text
  | general _ message => message

end Cause

end RoutePolicy
