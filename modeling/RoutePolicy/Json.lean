import RoutePolicy.Number
import RoutePolicy.Table

/-!
JSON values. Objects keep the order of their members.
-/

set_option autoImplicit false

namespace RoutePolicy

/-- A JSON value. -/
inductive Json where
  | null
  | bool (value : Bool)
  | num (value : Number)
  | str (text : String)
  | arr (items : List Json)
  | obj (members : List (String × Json))

namespace Json

instance : Inhabited Json := ⟨null⟩

def int (i : Int) : Json := num (.ofInt i)

def nat (n : Nat) : Json := num (.ofNat n)

def strs (texts : List String) : Json := arr (texts.map str)

/-- An object with its members in the order documents keep. -/
def object (members : List (String × Json)) : Json := obj (Table.arrange members)

/-- The value of a member; none where the value is no object. -/
def get? : Json → String → Option Json
  | obj members, key => Table.get? members key
  | _, _ => none

mutual

/-- Whether every number in the value is finite, as a written document requires. -/
def isFinite : Json → Bool
  | num n => n.isFinite
  | arr items => allFinite items
  | obj members => membersFinite members
  | _ => true

def allFinite : List Json → Bool
  | [] => true
  | item :: rest => item.isFinite && allFinite rest

def membersFinite : List (String × Json) → Bool
  | [] => true
  | (_, value) :: rest => value.isFinite && membersFinite rest

end

/-- The members of an object all of whose numbers are finite. -/
def members? (j : Json) : Option (Table Json) :=
  match j with
  | obj members => if j.isFinite then some members else none
  | _ => none

def isObject (j : Json) : Bool := j.members?.isSome

theorem sizeOf_get? {members : Table Json} {key : String} {value : Json}
    (found : Table.get? members key = some value) : sizeOf value < sizeOf (obj members) := by
  induction members with
  | nil => simp [Table.get?] at found
  | cons entry rest ih =>
    obtain ⟨name, old⟩ := entry
    rw [Table.get?] at found
    split at found
    · cases found
      simp
      omega
    · have smaller := ih found
      simp at smaller ⊢
      omega

theorem sizeOf_mem {items : List Json} {item : Json} (h : item ∈ items) :
    sizeOf item < sizeOf (arr items) := by
  have := List.sizeOf_lt_of_mem h
  simp
  omega

end Json

end RoutePolicy
