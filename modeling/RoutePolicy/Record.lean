import RoutePolicy.Encoding.Writer
import RoutePolicy.Failure
import RoutePolicy.Ipv4.Network

/-!
Route records: what is known of a route's attributes. A slot holds a literal, or an expression over
the attributes of the route that came in.
-/

set_option autoImplicit false

namespace RoutePolicy

/-- The plain value of a literal. -/
def Literal.toJson : Literal → Json
  | bool value => .bool value
  | int value => .int value
  | address text => .str text
  | network text => .str text
  | communities members => .strs members
  | asPath asns => Encoding.asns asns

/-- A value given for an attribute, not yet checked. -/
inductive Given where
  | network (text : String)
  | nextHop (text : String)
  | communities (texts : List String)
  | localPreference (value : Number)
  | metric (value : Number)
  | weight (value : Number)
  | tag (value : Number)
  | asPath (asns : List Number)

namespace Given

def name : Given → Attribute
  | network _ => .network
  | nextHop _ => .nextHop
  | communities _ => .communities
  | localPreference _ => .localPreference
  | metric _ => .metric
  | weight _ => .weight
  | tag _ => .tag
  | asPath _ => .asPath

def toJson : Given → Json
  | network text => .str text
  | nextHop text => .str text
  | communities texts => .strs texts
  | localPreference value => .num value
  | metric value => .num value
  | weight value => .num value
  | tag value => .num value
  | asPath asns => .arr (asns.map .num)

def integer (name : Attribute) (value : Number) : Outcome Literal :=
  match value.toSafeInt? with
  | some i => .ok (.int i)
  | none => .error (.query (.notInteger name))

/-- The literal a given value stands for. -/
def literal : Given → Outcome Literal
  | network text =>
    if (Network.parseWithLength? text).isSome then .ok (.network text)
    else .error (.query (.invalidNetwork text))
  | nextHop text =>
    if (Address.parse? text).isSome then .ok (.address text)
    else .error (.query (.invalidNextHop text))
  | communities texts =>
    match texts.find? (!isCommunity ·) with
    | some text => .error (.query (.invalidCommunity text))
    | none => .ok (.communities texts)
  | localPreference value => integer .localPreference value
  | metric value => integer .metric value
  | weight value => integer .weight value
  | tag value => integer .tag value
  | asPath asns =>
    match asns.mapM Number.toNat? with
    | some asns => .ok (.asPath (asns.map Int.ofNat))
    | none => .error (.query .invalidAsPath)

/-- The value given for an attribute. -/
def find? (values : List Given) (name : Attribute) : Option Given :=
  values.find? (·.name = name)

/-- The values with the network replaced. -/
def withNetwork (values : List Given) (text : String) : List Given :=
  values.filter (·.name ≠ .network) ++ [network text]

end Given

/-- Slots by attribute. No attribute has two. -/
structure Record where
  slots : List (Attribute × Expr)

namespace Record

/-- Every listed attribute stands for itself. -/
def symbolic (names : List Attribute) : Record :=
  ⟨names.eraseDups.map fun name => (name, .ref name)⟩

/-- The slot of an attribute: a given value, else the attribute itself or nothing. -/
def givenSlot (values : List Given) (openSlots : Bool) (name : Attribute) :
    Outcome (Option (Attribute × Expr)) :=
  match Given.find? values name with
  | some given => do
    let literal ← given.literal
    .ok (some (name, .lit none literal))
  | none => .ok (if openSlots then some (name, .ref name) else none)

def givenSlots (values : List Given) (openSlots : Bool) :
    List Attribute → Outcome (List (Attribute × Expr))
  | [] => .ok []
  | name :: rest => do
    let slot ← givenSlot values openSlots name
    let others ← givenSlots values openSlots rest
    .ok (slot.toList ++ others)

/-- A record of given values. An attribute that is not given stands for itself if slots are left
open, and has no slot otherwise. -/
def ofGiven (values : List Given) (openSlots : Bool) : Outcome Record := do
  let slots ← givenSlots values openSlots Attribute.all
  .ok ⟨slots⟩

def get? (r : Record) (name : Attribute) : Option Expr :=
  (r.slots.find? (·.1 = name)).map Prod.snd

def has (r : Record) (name : Attribute) : Bool := (r.get? name).isSome

def lookup (r : Record) (name : Attribute) : Outcome Expr :=
  match r.get? name with
  | some slot => .ok slot
  | none => .error (.evaluation (.undefinedAttribute name))

/-- The record with one slot replaced; a slot cannot be added. -/
def assign (r : Record) (name : Attribute) (value : Expr) : Outcome Record :=
  if r.has name then
    .ok ⟨r.slots.map fun slot => if slot.1 = name then (name, value) else slot⟩
  else .error (.evaluation (.unassignableAttribute name))

/-- Replaces slots one after another. -/
def assignAll (r : Record) : List (Attribute × Expr) → Outcome Record
  | [] => .ok r
  | (name, value) :: rest => do
    let r ← r.assign name value
    assignAll r rest

def names (r : Record) : List Attribute := r.slots.map Prod.fst

def isConcrete (r : Record) (name : Attribute) : Bool := (r.get? name).any Expr.isLiteral

def slotJson : Expr → Json
  | .lit _ value => value.toJson
  | e => Encoding.writeExpr e

/-- Plain values where slots are literals, encoded expressions elsewhere. -/
def toJson (r : Record) : Json := .obj (r.slots.map fun slot => (slot.1.name, slotJson slot.2))

end Record

end RoutePolicy
