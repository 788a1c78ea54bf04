import RoutePolicy.Encoding.Tag
import RoutePolicy.Failure
import RoutePolicy.Ipv4.Network

/-!
Reading policies from the service's encoding. Every reader fails with a place relative to the value
it was given; the enclosing reader puts its own step in front.
-/

set_option autoImplicit false

namespace RoutePolicy.Encoding

variable {α : Type}

def fail (fault : EncodingFault) : Outcome α := .error (.encoding fault)

def failAt (key : String) (fault : EncodingFault) : Outcome α := Outcome.within (.field key) (fail fault)

/-- The members of an object that holds finite numbers only. -/
def members (j : Json) : Outcome (Table Json) :=
  match j.members? with
  | some ms => .ok ms
  | none => fail .expectedObject

def field (ms : Table Json) (key : String) : Outcome Json :=
  match ms.get? key with
  | some value => .ok value
  | none => fail (.missing key)

def stringField (ms : Table Json) (key : String) : Outcome String := do
  match ← field ms key with
  | .str text => .ok text
  | _ => failAt key (.notString key)

def integerField (ms : Table Json) (key : String) : Outcome Int := do
  match ← field ms key with
  | .num n =>
    match n.toSafeInt? with
    | some i => .ok i
    | none => failAt key (.notInteger key)
  | _ => failAt key (.notInteger key)

/-- An integer that is not negative. -/
def amountField (ms : Table Json) (key : String) : Outcome Int := do
  let amount ← integerField ms key
  if amount < 0 then failAt key (.negative key) else .ok amount

def arrayField (ms : Table Json) (key : String) : Outcome (List Json) := do
  match ← field ms key with
  | .arr items => .ok items
  | _ => failAt key (.notArray key)

/-- Reads items one after another; a failure names the item's position. -/
def eachFrom (position : Nat) : (items : List Json) → ((item : Json) → item ∈ items → Outcome α) →
    Outcome (List α)
  | [], _ => .ok []
  | item :: rest, read => do
    let first ← Outcome.within (.index position) (read item (.head rest))
    let others ← eachFrom (position + 1) rest fun other h => read other (.tail item h)
    .ok (first :: others)

def each (items : List Json) (read : (item : Json) → item ∈ items → Outcome α) : Outcome (List α) :=
  eachFrom 0 items read

/-- The texts of an array, each of which has to pass a check. -/
def textList (ms : Table Json) (key : String) (check : String → Bool) (fault : Json → EncodingFault) :
    Outcome (List String) := do
  let items ← arrayField ms key
  Outcome.within (.field key) <| each items fun item _ =>
    match item with
    | .str text => if check text then .ok text else fail (fault item)
    | _ => fail (fault item)

def asn? (item : Json) : Option Int :=
  match item with
  | .num n => n.toInt?.filter fun i => 0 ≤ i ∧ i ≤ maxAsn
  | _ => none

def asnList (ms : Table Json) (key : String) : Outcome (List Int) := do
  let items ← arrayField ms key
  Outcome.within (.field key) <| each items fun item _ =>
    match asn? item with
    | some asn => .ok asn
    | none => fail (.invalidAsn item)

/-- The last segment of an object's class name. -/
def className (ms : Table Json) : Outcome String := do
  let name ← stringField ms "class"
  .ok (lastSegment name)

/-- The class name of an object, if it is qualified. -/
def spelling (ms : Table Json) : Spelling :=
  match ms.get? "class" with
  | some (.str name) => if name = lastSegment name then none else some name
  | _ => none

/-- Reads a member; a failure names its key. -/
def child (ms : Table Json) (key : String)
    (read : (value : Json) → sizeOf value < sizeOf (Json.obj ms) → Outcome α) : Outcome α :=
  match h : ms.get? key with
  | some value => Outcome.within (.field key) (read value (Json.sizeOf_get? h))
  | none => fail (.missing key)

/-- Reads the items of a member that must not be empty. -/
def operands (ms : Table Json) (key : String)
    (read : (value : Json) → sizeOf value < sizeOf (Json.obj ms) → Outcome α) : Outcome (List α) :=
  child ms key fun value smaller =>
    match value, smaller with
    | .arr [], _ => fail (.empty key)
    | .arr items, smaller =>
      each items fun item h => read item (Nat.lt_trans (Json.sizeOf_mem h) smaller)
    | _, _ => fail (.notArray key)

/-- The networks a match names: written out or by the name of a list. -/
inductive NetworkSet where
  | ranges (texts : List String) (cls : Spelling)
  | list (name : String) (cls : Spelling)

def NetworkSet.read (j : Json) : Outcome NetworkSet := do
  let ms ← members j
  let tag ← className ms
  match SetTag.ofName? tag with
  | some .named => do
    let name ← stringField ms "name"
    .ok (.list name (spelling ms))
  | some .explicit => do
    let texts ← textList ms "prefixSpace" (fun s => (NetworkRange.parse? s).isSome) .invalidRangeItem
    .ok (.ranges texts (spelling ms))
  | none => fail (.unsupportedSet tag)

def NetworkSet.toExpr (cls : Spelling) (subject : Expr) : NetworkSet → Expr
  | ranges texts setCls => .inRanges cls subject texts setCls
  | list name setCls => .inList cls subject name setCls

def readBoolean (ms : Table Json) : Outcome Bool := do
  match ← stringField ms "type" with
  | "True" => .ok true
  | "False" => .ok false
  | word => failAt "type" (.unknownBoolean word)

def readAttribute (ms : Table Json) : Outcome Attribute := do
  let word ← stringField ms "attribute"
  match Attribute.ofName? word with
  | some name => .ok name
  | none => failAt "attribute" (.unknownAttribute word)

def readComparator (ms : Table Json) : Outcome Comparator := do
  let word ← stringField ms "comparator"
  match Comparator.ofName? word with
  | some comparator => .ok comparator
  | none => failAt "comparator" (.unknownComparator word)

/-- A text member that has to pass a check. -/
def checkedText (ms : Table Json) (key : String) (check : String → Bool)
    (fault : String → EncodingFault) : Outcome String := do
  let text ← stringField ms key
  if check text then .ok text else failAt key (fault text)

/-- Reads an expression. A class outside the vocabulary is kept as it is, or refused. -/
def readExpr (keep : Bool) (j : Json) : Outcome Expr :=
  match j with
  | .obj ms =>
    if (Json.obj ms).isFinite then do
      let tag ← className ms
      let cls := spelling ms
      match ExprTag.ofName? tag with
      | some .boolean => do
        let value ← readBoolean ms
        .ok (.lit cls (.bool value))
      | some .integer => do
        let value ← integerField ms "value"
        .ok (.lit cls (.int value))
      | some .ref => do
        let name ← readAttribute ms
        .ok (.attr cls name)
      | some .all => do
        let es ← operands ms "conjuncts" fun value _ => readExpr keep value
        .ok (.junction cls .all es)
      | some .any => do
        let es ← operands ms "disjuncts" fun value _ => readExpr keep value
        .ok (.junction cls .any es)
      | some .not => do
        let e ← child ms "expr" fun value _ => readExpr keep value
        .ok (.not cls e)
      | some .compare => do
        let comparator ← readComparator ms
        let left ← child ms "left" fun value _ => readExpr keep value
        let right ← child ms "right" fun value _ => readExpr keep value
        .ok (.compare cls comparator left right)
      | some .hasCommunity => do
        let community ← checkedText ms "community" isCommunity .invalidCommunity
        let subject ← child ms "communitySetExpr" fun value _ => readExpr keep value
        .ok (.hasCommunity cls subject community)
      | some .matchNetworks => do
        let subject ← child ms "prefix" fun value _ => readExpr keep value
        let set ← child ms "prefixSet" fun value _ => NetworkSet.read value
        .ok (set.toExpr cls subject)
      | some .communities => do
        let texts ← textList ms "communitySet" isCommunity .invalidCommunityItem
        .ok (.lit cls (.communities texts))
      | some .union => do
        let es ← operands ms "exprs" fun value _ => readExpr keep value
        .ok (.union cls es)
      | some .address => do
        let text ← checkedText ms "ip" (fun s => (Address.parse? s).isSome) .invalidAddress
        .ok (.lit cls (.address text))
      | some .network => do
        let text ← checkedText ms "prefix" (fun s => (Network.parseWithLength? s).isSome)
          .invalidNetwork
        .ok (.lit cls (.network text))
      | some .asPath => do
        let asns ← asnList ms "asns"
        .ok (.lit cls (.asPath asns))
      | some .prepend => do
        let asns ← asnList ms "asns"
        let e ← child ms "expr" fun value _ => readExpr keep value
        .ok (.prepend cls asns e)
      | some .call => do
        let policy ← stringField ms "calledPolicyName"
        .ok (.call cls policy)
      | some .increment => do
        let amount ← amountField ms "addend"
        .ok (.adjust cls .increment amount)
      | some .decrement => do
        let amount ← amountField ms "subtrahend"
        .ok (.adjust cls .decrement amount)
      | some .namedSet => do
        let name ← stringField ms "name"
        .ok (.namedSet cls name)
      | none => if keep then .ok (.unsupported tag j) else fail (.unsupportedExpression tag)
    else fail .expectedObject
  | _ => fail .expectedObject
termination_by sizeOf j
decreasing_by all_goals assumption

def readComment (ms : Table Json) : Outcome Comment :=
  match ms.get? "comment" with
  | none => .ok .absent
  | some .null => .ok .null
  | some (.str words) => .ok (.text words)
  | some _ => failAt "comment" .invalidComment

def readEnding (ms : Table Json) : Outcome Disposition := do
  let word ← stringField ms "type"
  match ending? word with
  | some disposition => .ok disposition
  | none => failAt "type" (.unknownEnding word)

/-- Reads the items of an array of statements. -/
def block (j : Json) (read : (item : Json) → sizeOf item < sizeOf j → Outcome α) : Outcome (List α) :=
  match j, read with
  | .arr items, read => each items fun item h => read item (Json.sizeOf_mem h)
  | _, _ => fail .expectedStatements

/-- Reads a statement. A class outside the vocabulary is refused. -/
def readStatement (keep : Bool) (j : Json) : Outcome Statement :=
  match j with
  | .obj ms =>
    if (Json.obj ms).isFinite then do
      let tag ← className ms
      let cls := spelling ms
      match StatementTag.ofName? tag with
      | some .branch => do
        let comment ← readComment ms
        let guard ← child ms "guard" fun value _ => readExpr keep value
        let onTrue ← child ms "trueStatements" fun value _ =>
          block value fun item _ => readStatement keep item
        let onFalse ← child ms "falseStatements" fun value _ =>
          block value fun item _ => readStatement keep item
        .ok (.branch cls guard onTrue onFalse comment)
      | some .finish => do
        let disposition ← readEnding ms
        .ok (.finish cls disposition)
      | some (.assign target) => do
        let value ← child ms (valueKey target) fun value _ => readExpr keep value
        .ok (.assign cls target value)
      | none => fail (.unsupportedStatement tag)
    else fail .expectedObject
  | _ => fail .expectedObject
termination_by sizeOf j
decreasing_by all_goals omega

/-- Reads an array of statements. -/
def readStatements (keep : Bool) (j : Json) : Outcome (List Statement) :=
  block j fun item _ => readStatement keep item

/-- Reads a policy: a name and its statements. -/
def readPolicy (keep : Bool) (j : Json) : Outcome Policy := do
  let ms ← members j
  let name ← stringField ms "name"
  let statements ← child ms "statements" fun value _ => readStatements keep value
  .ok ⟨name, statements⟩

/-- Reads a value that stands at a path of a larger document. -/
def readAt (path : String) (read : Json → Outcome α) (j : Json) : Outcome α :=
  Outcome.under (Location.start path) (read j)

end RoutePolicy.Encoding
