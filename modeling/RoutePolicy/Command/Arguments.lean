import RoutePolicy.Table
import RoutePolicy.Text.Units

/-!
The words of a command line: a command, its positional words, flags, and options with values.
-/

set_option autoImplicit false

namespace RoutePolicy.Command

/-- A command line that makes no sense. -/
inductive UsageFault where
  | noValue (option : String)
  | unknownOption (letter : String)
  | unknownCommand (name : String)
  | usage (text : String)
deriving DecidableEq

def UsageFault.text : UsageFault → String
  | noValue option => s!"Option --{option} requires a value"
  | unknownOption letter => s!"Unknown option -{letter}"
  | unknownCommand name => s!"Unknown command: {name}"
  | usage text => s!"Usage: {text}"

structure Arguments where
  command : String
  positionals : List String
  flags : Table Unit
  options : Table String
deriving DecidableEq

namespace Arguments

def empty : Arguments := ⟨"", [], [], []⟩

def hasFlag (a : Arguments) (name : String) : Bool := a.flags.has name

def option? (a : Arguments) (name : String) : Option String := a.options.get? name

/-- Sets a flag. The name `__proto__` is no entry of any table of flags. -/
def addFlag (a : Arguments) (name : String) : Arguments :=
  if name = "__proto__" then a else { a with flags := a.flags.place name () }

def setOption (a : Arguments) (name value : String) : Arguments :=
  { a with options := a.options.place name value }

/-- The first word that is not empty is the command. -/
def addWord (a : Arguments) (word : String) : Arguments :=
  if a.command.isEmpty then { a with command := word }
  else { a with positionals := a.positionals ++ [word] }

/-- The options that take a value. -/
def valueOptions : List String := ["output", "config", "destination", "source", "queries"]

/-- The value of an option is the next word, unless that looks like an option. -/
def takeValue (option : String) : List String → Except UsageFault (String × List String)
  | [] => .error (.noValue option)
  | value :: rest =>
    if value.toList.head? = some '-' then .error (.noValue option) else .ok (value, rest)

/-- The flag a letter stands for. -/
def flagOf? : Char → Option String
  | 'b' => some "simplify-bools"
  | 'v' => some "verbose"
  | 'q' => some "quiet"
  | 'h' => some "help"
  | _ => none

/-- The letter of an unknown option, as far as it is one code unit. -/
def letterText (c : Char) : String := String.ofList ((Text.ofUnits ((Text.charUnits c).take 1)))

/-- The letters after a single dash. Every `o` takes one of the following words. -/
def letters (a : Arguments) : List Char → List String → Except UsageFault (Arguments × List String)
  | [], rest => .ok (a, rest)
  | 'o' :: more, rest => do
    let (value, rest) ← takeValue "output" rest
    letters (a.setOption "output" value) more rest
  | c :: more, rest =>
    match flagOf? c with
    | some flag => letters (a.addFlag flag) more rest
    | none => .error (.unknownOption (letterText c))

theorem length_takeValue {option value : String} {words rest : List String}
    (h : takeValue option words = .ok (value, rest)) : rest.length ≤ words.length := by
  cases words with
  | nil => simp [takeValue] at h
  | cons word others =>
    rw [takeValue] at h
    split at h
    · simp at h
    · cases h
      simp

theorem length_letters {a a' : Arguments} {cs : List Char} {words rest : List String}
    (h : letters a cs words = .ok (a', rest)) : rest.length ≤ words.length := by
  fun_induction letters a cs words with
  | case1 => cases h; exact Nat.le_refl _
  | case2 a more words ih =>
    cases found : takeValue "output" words with
    | error f => simp [found, bind, Except.bind] at h
    | ok pair =>
      simp only [found, bind, Except.bind] at h
      exact Nat.le_trans (ih pair.1 pair.2 h) (length_takeValue found)
  | case3 a more words c _ flag _ ih => exact ih h
  | case4 => simp at h

/-- Reads words one after another. -/
def readFrom (a : Arguments) (words : List String) : Except UsageFault Arguments :=
  match words with
  | [] => .ok a
  | word :: rest =>
    match word.toList with
    | '-' :: '-' :: name =>
      let name := String.ofList name
      if valueOptions.contains name then
        match _taken : takeValue name rest with
        | .error fault => .error fault
        | .ok (value, rest') => readFrom (a.setOption name value) rest'
      else readFrom (a.addFlag name) rest
    | '-' :: c :: more =>
      match _taken : letters a (c :: more) rest with
      | .error fault => .error fault
      | .ok (a', rest') => readFrom a' rest'
    | _ => readFrom (a.addWord word) rest
termination_by words.length
decreasing_by
  · have := length_takeValue _taken
    simp
    omega
  · simp
  · have := length_letters _taken
    simp
    omega
  · simp

/-- The arguments that words make. -/
def read (words : List String) : Except UsageFault Arguments := readFrom empty words

end Arguments

end RoutePolicy.Command
