import RoutePolicy.Json
import RoutePolicy.Number.Text
import RoutePolicy.Text.Units

/-!
The texts of a JSON value: compact, indented, and canonical. Two values have one canonical text when
they differ in the order of members only.
-/

set_option autoImplicit false

namespace RoutePolicy.Json

def hexDigit (n : Nat) : Char := Nat.digitChar n

/-- A character within quotes. Quotes, backslashes and control characters are escaped, and nothing
else. -/
def escape (c : Char) : List Char :=
  if c = '"' then ['\\', '"']
  else if c = '\\' then ['\\', '\\']
  else if c = '\n' then ['\\', 'n']
  else if c = '\r' then ['\\', 'r']
  else if c = '\t' then ['\\', 't']
  else if c = '\x08' then ['\\', 'b']
  else if c = '\x0c' then ['\\', 'f']
  else if c.toNat < 0x20 then
    ['\\', 'u', '0', '0', hexDigit (c.toNat / 16), hexDigit (c.toNat % 16)]
  else [c]

def quoted (s : String) : List Char := '"' :: s.toList.flatMap escape ++ ['"']

/-- Numbers that are not finite have no text in a document and are written as `null`. -/
def numberChars (n : Number) : List Char :=
  if n.isFinite then n.text.toList else "null".toList

mutual

/-- The characters of the compact text. -/
def chars : Json → List Char
  | null => "null".toList
  | bool true => "true".toList
  | bool false => "false".toList
  | num n => numberChars n
  | str s => quoted s
  | arr items => '[' :: itemChars items ++ [']']
  | obj members => '\x7b' :: memberChars members ++ ['\x7d']

def itemChars : List Json → List Char
  | [] => []
  | [item] => item.chars
  | item :: rest => item.chars ++ ',' :: itemChars rest

def memberChars : List (String × Json) → List Char
  | [] => []
  | [(key, value)] => quoted key ++ ':' :: value.chars
  | (key, value) :: rest => quoted key ++ ':' :: value.chars ++ ',' :: memberChars rest

end

/-- The text without blanks. -/
def compact (j : Json) : String := String.ofList j.chars

def indentation (depth : Nat) : List Char := '\n' :: List.replicate (2 * depth) ' '

mutual

/-- The characters of the text with one item or member a line, two blanks a level. -/
def indented (depth : Nat) : Json → List Char
  | arr [] => ['[', ']']
  | obj [] => ['\x7b', '\x7d']
  | arr items => '[' :: indentedItems (depth + 1) items ++ indentation depth ++ [']']
  | obj members => '\x7b' :: indentedMembers (depth + 1) members ++ indentation depth ++ ['\x7d']
  | j => j.chars

def indentedItems (depth : Nat) : List Json → List Char
  | [] => []
  | item :: rest =>
    indentation depth ++ item.indented depth ++
      (if rest.isEmpty then [] else [',']) ++ indentedItems depth rest

def indentedMembers (depth : Nat) : List (String × Json) → List Char
  | [] => []
  | (key, value) :: rest =>
    indentation depth ++ quoted key ++ ':' :: ' ' :: value.indented depth ++
      (if rest.isEmpty then [] else [',']) ++ indentedMembers depth rest

end

/-- The text with indentation. -/
def pretty (j : Json) : String := String.ofList (j.indented 0)

/-- Entries by the code units of their keys. -/
def sortEntries (members : List (String × Json)) : List (String × Json) :=
  members.mergeSort fun a b => Text.le a.1 b.1

mutual

/-- The value with the members of all its objects sorted; an object still has its indices first. -/
def sorted : Json → Json
  | arr items => arr (sortedItems items)
  | obj members => object (sortEntries (sortedMembers members))
  | j => j

def sortedItems : List Json → List Json
  | [] => []
  | item :: rest => item.sorted :: sortedItems rest

def sortedMembers : List (String × Json) → List (String × Json)
  | [] => []
  | (key, value) :: rest => (key, value.sorted) :: sortedMembers rest

end

/-- One text for all orders of members. -/
def canonical (j : Json) : String := j.sorted.compact

mutual

/-- The text of a value in a running sentence: items joined by commas, no quotes. -/
def plain : Json → String
  | null => "null"
  | bool true => "true"
  | bool false => "false"
  | num n => n.text
  | str s => s
  | arr items => plainItems items
  | obj _ => "[object Object]"

def plainItems : List Json → String
  | [] => ""
  | [null] => ""
  | [item] => item.plain
  | null :: rest => "," ++ plainItems rest
  | item :: rest => item.plain ++ "," ++ plainItems rest

end

end RoutePolicy.Json
