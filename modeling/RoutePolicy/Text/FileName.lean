import RoutePolicy.Text.Pieces
import RoutePolicy.Text.Units

/-!
File names with slashes between their components.
-/

set_option autoImplicit false

namespace RoutePolicy.FileName

def isAbsolute (name : String) : Bool := name.toList.head? = some '/'

/-- The components without blanks, single points, and components that are taken back by `..`; a
relative name may still start with `..`. -/
def reduce (absolute : Bool) : List String → List String → List String
  | done, [] => done.reverse
  | done, "" :: rest => reduce absolute done rest
  | done, "." :: rest => reduce absolute done rest
  | done, ".." :: rest =>
    match done with
    | [] => if absolute then reduce absolute [] rest else reduce absolute [".."] rest
    | ".." :: _ => reduce absolute (".." :: done) rest
    | _ :: before => reduce absolute before rest
  | done, component :: rest => reduce absolute (component :: done) rest

def components (name : String) : List String :=
  reduce (isAbsolute name) [] ((Text.split '/' name.toList).map String.ofList)

/-- The order of names by their components, each compared by its units. -/
def componentsLe : List String → List String → Bool
  | [], _ => true
  | _ :: _, [] => false
  | a :: as, b :: bs => if a = b then componentsLe as bs else Text.le a b

/-- The shortest name for the same file. -/
def normalize (name : String) : String :=
  let body := "/".intercalate (components name)
  if isAbsolute name then "/" ++ body else if body.isEmpty then "." else body

/-- The name as seen from a directory. -/
def resolve (directory name : String) : String :=
  normalize (if isAbsolute name then name else directory ++ "/" ++ name)

def withoutEndSlashes (cs : List Char) : List Char := (cs.reverse.dropWhile (· = '/')).reverse

/-- The last component. -/
def base (name : String) : String :=
  String.ofList (Text.afterLast '/' (withoutEndSlashes name.toList))

/-- All before the last component. -/
def directory (name : String) : String :=
  let cs := withoutEndSlashes name.toList
  let before := (cs.reverse.dropWhile (· ≠ '/')).reverse
  if before.isEmpty then (if isAbsolute name then "/" else ".") else String.ofList before

/-- A file beside another one. -/
def sibling (name other : String) : String := normalize (directory name ++ "/" ++ other)

/-- The name without the given ending, in any case. -/
def withoutEnding (ending name : String) : String :=
  let cs := name.toList
  let kept := cs.length - ending.length
  if ending.length ≤ cs.length ∧ (cs.drop kept).map Char.toLower = ending.toList then
    String.ofList (cs.take kept)
  else name

/-- Where the condensed form of a file goes: `net.json` to `net.ir.json`. -/
def condensed (name : String) : String :=
  sibling name (withoutEnding ".json" (base name) ++ ".ir.json")

end RoutePolicy.FileName
