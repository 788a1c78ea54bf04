/-!
Cutting texts at a character, and the decimal numerals of addresses, ranges and communities.
-/

set_option autoImplicit false

namespace RoutePolicy.Text

/-- The text before the first `sep` and the text after it. -/
def cut (sep : Char) : List Char → Option (List Char × List Char)
  | [] => none
  | c :: rest =>
    if c = sep then some ([], rest)
    else (cut sep rest).map fun (before, after) => (c :: before, after)

/-- The pieces between separators; there is always at least one. -/
def split (sep : Char) : List Char → List (List Char)
  | [] => [[]]
  | c :: rest =>
    if c = sep then [] :: split sep rest
    else match split sep rest with
      | [] => [[c]]
      | piece :: pieces => (c :: piece) :: pieces

/-- The text after the last `sep`, or the whole text. -/
def afterLast (sep : Char) : List Char → List Char
  | [] => []
  | c :: rest =>
    if sep ∈ rest then afterLast sep rest
    else if c = sep then rest
    else c :: rest

def isDigit (c : Char) : Bool := '0' ≤ c ∧ c ≤ '9'

def digitValue (c : Char) : Nat := c.toNat - '0'.toNat

/-- The value of decimal digits. -/
def digitsValue (cs : List Char) : Nat :=
  cs.foldl (fun value c => 10 * value + digitValue c) 0

/-- The value of a numeral of one to `width` ASCII digits; leading zeros are allowed. -/
def numeral? (width : Nat) (cs : List Char) : Option Nat :=
  if cs ≠ [] ∧ cs.length ≤ width ∧ cs.all isDigit then some (digitsValue cs) else none

end RoutePolicy.Text
