import RoutePolicy.Command.Host
import RoutePolicy.Service.Script

/-!
A host in memory: a tree of files, variables, a scripted service, and all that was printed.
Directories are the heads of the names of files.
-/

set_option autoImplicit false

namespace RoutePolicy.Command

structure Workspace where
  /-- The components of the working directory. -/
  home : List String
  /-- Texts by the components of their names. No name has two. -/
  files : List (List String × String)
  environment : Table String
  service : Service.Script
  printed : List String
  complaints : List String

/-- What stands at a name. -/
inductive Place where
  | file (text : String)
  | directory
  | nothing
  /-- The name leads through a file as if it were a directory. -/
  | throughFile
deriving DecidableEq

namespace Workspace

def putFile (files : List (List String × String)) (name : List String) (text : String) :
    List (List String × String) :=
  match files with
  | [] => [(name, text)]
  | (other, old) :: rest =>
    if other = name then (other, text) :: rest else (other, old) :: putFile rest name text

/-- A workspace with the given files, by names as seen from the working directory. -/
def start (directory : String) (files : List (String × String)) (environment : Table String)
    (service : Service.Script) : Workspace where
  home := FileName.components directory
  files := files.foldl (fun stored (name, text) =>
    putFile stored (FileName.components (FileName.resolve directory name)) text) []
  environment := environment
  service := service
  printed := []
  complaints := []

def isDirectory (w : Workspace) (name : List String) : Bool :=
  name.isPrefixOf w.home || w.files.any fun file => name.isPrefixOf file.1

def find (w : Workspace) (name : List String) : Place :=
  match w.files.find? (·.1 = name) with
  | some (_, text) => .file text
  | none =>
    if w.isDirectory name then .directory
    else if w.files.any fun file => file.1.isPrefixOf name then .throughFile
    else .nothing

def inspect (w : Workspace) (path : String) : Except FileFault FileKind :=
  match w.find (FileName.components path) with
  | .file _ => .ok .file
  | .directory => .ok .directory
  | .nothing => .error (.missing .inspecting path)
  | .throughFile => .error (.throughFile .inspecting path)

def read (w : Workspace) (path : String) : Except FileFault String :=
  match w.find (FileName.components path) with
  | .file text => .ok text
  | .directory => .error .readingDirectory
  | .nothing => .error (.missing .opening path)
  | .throughFile => .error (.throughFile .opening path)

/-- A new file needs a directory to stand in. -/
def write (w : Workspace) (path text : String) : Except FileFault Workspace :=
  let name := FileName.components path
  let stored := { w with files := putFile w.files name text }
  match w.find name with
  | .file _ => .ok stored
  | .directory => .error (.writingDirectory path)
  | .throughFile => .error (.throughFile .opening path)
  | .nothing =>
    if w.isDirectory name.dropLast then .ok stored else .error (.missing .opening path)

def filesBelow (w : Workspace) (path : String) : List (List String) :=
  let directory := FileName.components path
  (w.files.filter fun file => directory.isPrefixOf file.1).map fun file =>
    file.1.drop directory.length

/-- The files below the working directory that are new or hold another text than before, as seen
from there, in the order of their names. -/
def changes (before after : Workspace) : List (List String × String) :=
  let changed := after.files.filter fun file =>
    after.home.isPrefixOf file.1 && !before.files.contains file
  let seen := changed.map fun file => (file.1.drop after.home.length, file.2)
  seen.mergeSort fun a b => FileName.componentsLe a.1 b.1

/-- An action of the scripted service. -/
def onService {α : Type} (act : Service.Scripted α) : StateM Workspace α := fun w =>
  let (result, service) := act w.service
  (result, { w with service := service })

def writeHere (path text : String) : StateM Workspace (Except FileFault Unit) := fun w =>
  match w.write path text with
  | .ok w => (.ok (), w)
  | .error fault => (.error fault, w)

/-- The workspace as surroundings of a command. -/
def host : Host (StateM Workspace) where
  directory := fun w => ("/" ++ "/".intercalate w.home, w)
  lookupVariable := fun name w => (w.environment.get? name, w)
  inspect := fun path w => (w.inspect path, w)
  read := fun path w => (w.read path, w)
  write := writeHere
  filesBelow := fun path w => (.ok (w.filesBelow path), w)
  print := fun line w => ((), { w with printed := w.printed ++ [line] })
  complain := fun line w => ((), { w with complaints := w.complaints ++ [line] })
  send := fun r => onService (Service.Script.send r)
  pause := fun delay => onService (Service.Script.pause delay)
  jitter := onService Service.Script.jitter

end Workspace

end RoutePolicy.Command
