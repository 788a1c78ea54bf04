import RoutePolicy.Ipv4.Address

/-!
Networks, which are address prefixes such as `10.0.0.0/8`, and ranges of networks such as
`10.0.0.0/8:16-24`.
-/

set_option autoImplicit false

namespace RoutePolicy

/-- The network of all addresses that agree with `address` in the first `length` bits. -/
structure Network where
  address : Nat
  length : Nat
deriving DecidableEq

namespace Network

/-- The address with all bits beyond the first `length` cleared. -/
def mask (address length : Nat) : Nat := address >>> (32 - length) <<< (32 - length)

/-- The network of a length that holds an address. -/
def holding (address length : Nat) : Network := ⟨mask address length, length⟩

def ofChars? (strict : Bool) (cs : List Char) : Option Network := do
  let (address, length) := (Text.cut '/' cs).getD (cs, ['3', '2'])
  let length ← (Text.numeral? 2 length).filter (· ≤ 32)
  let address ← Address.ofChars? address
  if strict ∧ mask address length ≠ address then none else some (holding address length)

/-- An address with an optional length, 32 without one; no bit beyond the length may be set. -/
def parse? (text : String) : Option Network := ofChars? true text.toList

/-- An address with an optional length, bits beyond the length being cleared. -/
def parseLenient? (text : String) : Option Network := ofChars? false text.toList

/-- A network written with its length. -/
def parseWithLength? (text : String) : Option Network :=
  if text.toList.contains '/' then parse? text else none

def text (n : Network) : String :=
  Address.text n.address ++ "/" ++ String.ofList (Nat.toDigits 10 n.length)

/-- Whether `inner` lies inside `outer`; a network lies inside itself. -/
def contains (outer inner : Network) : Bool :=
  outer.length ≤ inner.length ∧ mask inner.address outer.length = outer.address

/-- The network that an interface address of a length belongs to. -/
def ofInterface? (address : String) (length : Nat) : Option Network :=
  if 32 < length then none else (Address.parse? address).map (holding · length)

end Network

/-- The networks inside `within` whose length lies between two bounds. -/
structure NetworkRange where
  within : Network
  min : Nat
  max : Nat
deriving DecidableEq

namespace NetworkRange

/-- The bounds `min-max`. -/
def bounds? (cs : List Char) : Option (Nat × Nat) := do
  let (min, max) ← Text.cut '-' cs
  pure (← Text.numeral? 2 min, ← Text.numeral? 2 max)

/-- A network with its length and optional bounds after a colon; without them only the network
itself matches. -/
def parse? (text : String) : Option NetworkRange :=
  let cs := text.toList
  let network (head : List Char) := if head.contains '/' then Network.ofChars? true head else none
  match Text.cut ':' cs with
  | none => (network cs).map fun n => ⟨n, n.length, n.length⟩
  | some (head, tail) => do
    let n ← network head
    let (min, max) ← bounds? tail
    if min < n.length ∨ max < min ∨ 32 < max then none else some ⟨n, min, max⟩

def covers (range : NetworkRange) (n : Network) : Bool :=
  range.min ≤ n.length && n.length ≤ range.max && range.within.contains n

/-- Whether the written range covers a network; a malformed range covers none. -/
def textCovers (range : String) (n : Network) : Bool := (parse? range).any (·.covers n)

end NetworkRange

end RoutePolicy
