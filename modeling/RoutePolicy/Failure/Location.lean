/-!
Places within a document.
-/

set_option autoImplicit false

namespace RoutePolicy

/-- One step into a document. -/
inductive Step where
  | field (key : String)
  | index (position : Nat)
deriving DecidableEq

/-- The steps from the root of a document to a value, the outermost first. -/
abbrev Location := List Step

namespace Location

/-- The text of a place with one more step: a point before a key unless the text is empty, brackets
around a position. -/
def extend (text : String) : Step → String
  | .field key => if text.isEmpty then key else s!"{text}.{key}"
  | .index position => s!"{text}[{position}]"

def text (place : Location) : String := place.foldl extend ""

/-- The place where a reading starts: a path that was followed before counts as one step. -/
def start (path : String) : Location := if path.isEmpty then [] else [.field path]

end Location

end RoutePolicy
