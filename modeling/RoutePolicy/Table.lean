import RoutePolicy.Text.Pieces

/-!
Tables by name, kept as lists of entries. Two orders occur: `put` keeps the order in which names
first came, `place` keeps the order of a document's object, where names that are array indices come
first and ascend.
-/

set_option autoImplicit false

namespace RoutePolicy

/-- Entries by name. No operation stores a name twice. -/
abbrev Table (α : Type) := List (String × α)

namespace Table

variable {α : Type}

def get? (t : Table α) (name : String) : Option α :=
  match t with
  | [] => none
  | (key, value) :: rest => if key = name then some value else get? rest name

def names (t : Table α) : List String := t.map Prod.fst

def values (t : Table α) : List α := t.map Prod.snd

def has (t : Table α) (name : String) : Bool := (t.get? name).isSome

theorem mem_names_of_get? {t : Table α} {name : String} {value : α}
    (found : t.get? name = some value) : name ∈ t.names := by
  induction t with
  | nil => simp [get?] at found
  | cons entry rest ih =>
    obtain ⟨key, old⟩ := entry
    rw [get?] at found
    split at found
    · next h => simp [names, h]
    · have := ih found
      simp [names] at this ⊢
      exact Or.inr this

/-- Replaces the entry of `name` where it stands, or adds one at the end. -/
def put (t : Table α) (name : String) (value : α) : Table α :=
  match t with
  | [] => [(name, value)]
  | (key, old) :: rest =>
    if key = name then (key, value) :: rest else (key, old) :: put rest name value

/-- Puts entries one after another. -/
def putAll (t : Table α) (entries : List (String × α)) : Table α :=
  entries.foldl (fun t entry => t.put entry.1 entry.2) t

/-- The number a name is the plain decimal numeral of, up to `4294967294`. -/
def index? (name : String) : Option Nat :=
  match name.toList with
  | ['0'] => some 0
  | cs =>
    if cs.head? = some '0' then none
    else (Text.numeral? 10 cs).filter (· ≤ 4294967294)

/-- Whether `name` stands before `other` in an object that does not hold `name` yet. -/
def precedes (name other : String) : Bool :=
  match index? name, index? other with
  | some i, some j => i < j
  | some _, none => true
  | none, _ => false

/-- Replaces the entry of `name` where it stands, or adds one where an object of a document has it:
indices ascending, then all other names in the order they came. -/
def place (t : Table α) (name : String) (value : α) : Table α :=
  if t.has name then t.put name value
  else
    let (before, after) := t.span fun entry => !precedes name entry.1
    before ++ (name, value) :: after

/-- The entries in the order of a document's object; of two entries for a name the later wins. -/
def arrange (entries : List (String × α)) : Table α :=
  entries.foldl (fun t entry => t.place entry.1 entry.2) []

end Table

end RoutePolicy
