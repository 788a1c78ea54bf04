/-!
Positions of statements within a policy.
-/

set_option autoImplicit false

namespace RoutePolicy

/-- A step down: to a statement of a block, or into one of the two branches. -/
inductive Turn where
  | index (i : Nat)
  | branch (taken : Bool)
deriving DecidableEq

/-- The steps from a policy's block to a statement, the outermost first. -/
abbrev Position := List Turn

namespace Position

def turnText : Turn → String
  | .index i => toString i
  | .branch taken => if taken then "true" else "false"

/-- The steps with points between them, such as `1.true.0`. -/
def text (position : Position) : String := ".".intercalate (position.map turnText)

end Position

end RoutePolicy
