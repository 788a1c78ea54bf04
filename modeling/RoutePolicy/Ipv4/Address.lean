import RoutePolicy.Text.Pieces

/-!
IPv4 addresses, as numbers below `2 ^ 32`, and standard communities.
-/

set_option autoImplicit false

namespace RoutePolicy

namespace Address

/-- One to three digits, at most 255. -/
def octet? (cs : List Char) : Option Nat := (Text.numeral? 3 cs).filter (· ≤ 255)

def ofChars? (cs : List Char) : Option Nat :=
  match Text.split '.' cs with
  | [a, b, c, d] => do
    let a ← octet? a
    let b ← octet? b
    let c ← octet? c
    let d ← octet? d
    pure (((a * 256 + b) * 256 + c) * 256 + d)
  | _ => none

/-- Four decimal groups between points; leading zeros are allowed. -/
def parse? (text : String) : Option Nat := ofChars? text.toList

/-- The four octets of an address, the highest first; they take the sign of the number. -/
def octets (address : Int) : List Int :=
  [24, 16, 8, 0].map fun (low : Nat) => (address >>> low).tmod 256

/-- The octets of a natural number are natural. -/
theorem octets_natCast (address : Nat) :
    octets address =
      [24, 16, 8, 0].map fun (low : Nat) => ((address >>> low % 256 : Nat) : Int) := by
  simp only [octets, Int.ofNat_tmod]
  rfl

def text (address : Int) : String := ".".intercalate ((octets address).map toString)

end Address

/-- Two decimal numbers of 16 bits around a colon. -/
def isCommunity (text : String) : Bool :=
  match Text.split ':' text.toList with
  | [asn, value] =>
    ((Text.numeral? 5 asn).any (· ≤ 65535)) && ((Text.numeral? 5 value).any (· ≤ 65535))
  | _ => false

end RoutePolicy
