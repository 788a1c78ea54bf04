import RoutePolicy.Text.Capital
import RoutePolicy.Text.CaseIgnorable
import RoutePolicy.Text.Cased

/-!
Texts in small letters. A capital sigma that ends a word is written by the final sigma; it ends a
word if a cased character stands before it and none behind it, case-ignorable ones being passed over
on both sides.
-/

set_option autoImplicit false

namespace RoutePolicy.Text

/-- Whether the first character that is not case-ignorable is cased. -/
def startsCased (cs : List Char) : Bool := (cs.find? (!isCaseIgnorable ·)).any isCased

/-- The small letters of a character, given whether a word goes on before it and behind it. -/
def lowerWithin (before behind : Bool) (c : Char) : List Char :=
  if c = '\u03A3' ∧ before ∧ !behind then ['\u03C2'] else lowerChar c

/-- The small letters of a text, given whether a word goes on before it. -/
def lowerFrom (before : Bool) : List Char → List Char
  | [] => []
  | c :: rest =>
    lowerWithin before (startsCased rest) c ++
      lowerFrom (if isCaseIgnorable c then before else isCased c) rest

/-- The text in small letters. -/
def lower (text : String) : String := String.ofList (lowerFrom false text.toList)

end RoutePolicy.Text
