/-!
Sets of characters, as ranges of code points.
-/

set_option autoImplicit false

namespace RoutePolicy.Text

/-- The code points from one to another, both included. -/
structure CodeRange where
  first : Nat
  last : Nat

namespace CodeRange

def has (range : CodeRange) (code : Nat) : Bool := range.first ≤ code && code ≤ range.last

/-- Whether one of the ranges has the character. -/
def anyHas (ranges : List CodeRange) (c : Char) : Bool := ranges.any (·.has c.toNat)

end CodeRange

end RoutePolicy.Text
