import RoutePolicy.Json

/-!
Parts of a value, for readers that accept or refuse a document as a whole.
-/

set_option autoImplicit false

namespace RoutePolicy.Json

variable {α β : Type}

def text? : Json → Option String
  | str text => some text
  | _ => none

def bool? : Json → Option Bool
  | bool value => some value
  | _ => none

def number? : Json → Option Number
  | num n => some n
  | _ => none

def int? (j : Json) : Option Int := j.number?.bind Number.toInt?

def items? : Json → Option (List Json)
  | arr items => some items
  | _ => none

def entries? : Json → Option (Table Json)
  | obj members => some members
  | _ => none

/-- A list all of whose items can be read. -/
def listOf? (item : Json → Option α) (j : Json) : Option (List α) := j.items?.bind (·.mapM item)

/-- An object all of whose members can be read. -/
def tableOf? (member : Json → Option α) (j : Json) : Option (Table α) :=
  j.entries?.bind (·.mapM fun entry => (member entry.2).map fun value => (entry.1, value))

def pairOf? (first : Json → Option α) (second : Json → Option β) : Json → Option (α × β)
  | arr [a, b] => do
    let a ← first a
    let b ← second b
    some (a, b)
  | _ => none

/-- A member that must be there. -/
def field? (member : Json → Option α) (j : Json) (key : String) : Option α :=
  (j.get? key).bind member

/-- A member that may be missing, but must be readable if it is there. -/
def optional? (member : Json → Option α) (j : Json) (key : String) : Option (Option α) :=
  match j.get? key with
  | none => some none
  | some value => (member value).map some

/-- A member, or something else if it is missing. -/
def fieldOr? (member : Json → Option α) (otherwise : α) (j : Json) (key : String) : Option α :=
  (optional? member j key).map (·.getD otherwise)

end RoutePolicy.Json
