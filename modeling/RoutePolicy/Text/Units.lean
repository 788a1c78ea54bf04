/-!
The UTF-16 code units of a text, which fix the order in which keys and file names are sorted.
-/

set_option autoImplicit false

namespace RoutePolicy.Text

/-- One unit for a character of the basic plane, a high and a low surrogate for any other. -/
def charUnits (c : Char) : List Nat :=
  let n := c.toNat
  if n < 0x10000 then [n]
  else [0xD800 + (n - 0x10000) / 0x400, 0xDC00 + (n - 0x10000) % 0x400]

def units (s : String) : List Nat := s.toList.flatMap charUnits

/-- The dictionary order of lists of units. -/
def unitsLe : List Nat → List Nat → Bool
  | [], _ => true
  | _ :: _, [] => false
  | a :: as, b :: bs => a < b || (a == b && unitsLe as bs)

/-- The order of two texts by their units. -/
def le (a b : String) : Bool := unitsLe (units a) (units b)

/-- The text with the given units. A surrogate without its partner becomes the replacement
character, since no text holds one. -/
def ofUnits : List Nat → List Char
  | [] => []
  | [unit] => [single unit]
  | high :: low :: rest =>
    if 0xD800 ≤ high ∧ high < 0xDC00 ∧ 0xDC00 ≤ low ∧ low < 0xE000 then
      Char.ofNat (0x10000 + (high - 0xD800) * 0x400 + (low - 0xDC00)) :: ofUnits rest
    else single high :: ofUnits (low :: rest)
where
  single (unit : Nat) : Char :=
    if 0xD800 ≤ unit ∧ unit < 0xE000 then Char.ofNat 0xFFFD else Char.ofNat unit

end RoutePolicy.Text
