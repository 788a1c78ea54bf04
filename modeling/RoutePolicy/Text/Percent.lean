/-!
Texts as parts of a URL's path.
-/

set_option autoImplicit false

namespace RoutePolicy.Text

/-- The characters a path keeps as they are. -/
def isUnreserved (c : Char) : Bool :=
  ('a' ≤ c ∧ c ≤ 'z') ∨ ('A' ≤ c ∧ c ≤ 'Z') ∨ ('0' ≤ c ∧ c ≤ '9') ∨
    c ∈ ['-', '_', '.', '!', '~', '*', '\x27', '(', ')']

def percentByte (b : UInt8) : List Char :=
  let digit (n : Nat) : Char := (Nat.digitChar n).toUpper
  ['%', digit (b.toNat / 16), digit (b.toNat % 16)]

/-- All characters but the unreserved ones as the percent codes of their UTF-8 bytes. -/
def percentEncode (s : String) : String :=
  String.ofList <| s.toList.flatMap fun c =>
    if isUnreserved c then [c] else (String.singleton c).toUTF8.toList.flatMap percentByte

end RoutePolicy.Text
