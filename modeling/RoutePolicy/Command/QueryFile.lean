import RoutePolicy.Json.Parts
import RoutePolicy.Reachability.Query

/-!
Files with a list of queries.
-/

set_option autoImplicit false

namespace RoutePolicy.Command.QueryFile

def misfit {α : Type} (field expectation : String) : Outcome α :=
  .error (.query (.entryField field expectation))

def readText (field : String) : Json → Outcome String
  | .str text => .ok text
  | _ => misfit field "a string"

def readNumber (field : String) : Json → Outcome Number
  | .num n => .ok n
  | _ => misfit field "a number"

def readTexts (field : String) (j : Json) : Outcome (List String) :=
  match j.listOf? Json.text? with
  | some texts => .ok texts
  | none => misfit field "a list of strings"

def readNumbers (field : String) (j : Json) : Outcome (List Number) :=
  match j.listOf? Json.number? with
  | some numbers => .ok numbers
  | none => misfit field "a list of numbers"

/-- A value for an attribute of the route. -/
def readGiven (field : String) (name : Attribute) (j : Json) : Outcome Given :=
  match name with
  | .network => (readText field j).map .network
  | .nextHop => (readText field j).map .nextHop
  | .communities => (readTexts field j).map .communities
  | .localPreference => (readNumber field j).map .localPreference
  | .metric => (readNumber field j).map .metric
  | .weight => (readNumber field j).map .weight
  | .tag => (readNumber field j).map .tag
  | .asPath => (readNumbers field j).map .asPath

def readMembers (entry : String) : Table Json → Outcome (List Given)
  | [] => .ok []
  | (key, j) :: rest =>
    match Attribute.ofName? key with
    | none => .error (.query (.unknownRouteAttribute entry key))
    | some name => do
      let given ← readGiven s!"{entry}.route.{key}" name j
      let others ← readMembers entry rest
      .ok (given :: others)

def readRoute (entry : String) (j : Json) : Outcome (List Given) :=
  match j.members? with
  | some members => readMembers entry members
  | none => misfit s!"{entry}.route" "a mapping"

def readSource (entry : String) : Option Json → Outcome (Option String)
  | none => .ok none
  | some j => (readText s!"{entry}.source" j).map some

def readTrace (entry : String) : Option Json → Outcome (Option Bool)
  | none => .ok none
  | some (.bool trace) => .ok (some trace)
  | some _ => misfit s!"{entry}.trace" "true or false"

/-- The query of an entry of the list. -/
def readEntry (entry : String) (j : Json) : Outcome Query :=
  match j.members? with
  | none => .error (.query (.noEntryDestination entry))
  | some members =>
    match members.get? "destination" with
    | some (.str destination) => do
      let source ← readSource entry (members.get? "source")
      let trace ← readTrace entry (members.get? "trace")
      let route ← match members.get? "route" with
        | none => .ok none
        | some route => (readRoute entry route).map some
      .ok { destination, source, route, trace }
    | _ => .error (.query (.noEntryDestination entry))

def readEntries (i : Nat) : List Json → Outcome (List Query)
  | [] => .ok []
  | j :: rest => do
    let query ← readEntry s!"queries[{i}]" j
    let others ← readEntries (i + 1) rest
    .ok (query :: others)

/-- The queries of the document in a file. -/
def read (path : String) (j : Json) : Outcome (List Query) :=
  match j.get? "queries" with
  | some (.arr entries) => readEntries 0 entries
  | _ => .error (.query (.notQueryFile path))

end RoutePolicy.Command.QueryFile
