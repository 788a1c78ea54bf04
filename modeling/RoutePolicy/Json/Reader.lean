import RoutePolicy.Json
import RoutePolicy.Text.Units

/-!
Reading JSON text. Each step takes characters off the front and returns the rest; the text's length
bounds the number of steps.
-/

set_option autoImplicit false

namespace RoutePolicy.Json

def isBlank (c : Char) : Bool := c = ' ' ∨ c = '\n' ∨ c = '\r' ∨ c = '\t'

def skipBlanks (cs : List Char) : List Char := cs.dropWhile isBlank

def hexValue? (c : Char) : Option Nat :=
  if Text.isDigit c then some (c.toNat - '0'.toNat)
  else if 'a' ≤ c ∧ c ≤ 'f' then some (c.toNat - 'a'.toNat + 10)
  else if 'A' ≤ c ∧ c ≤ 'F' then some (c.toNat - 'A'.toNat + 10)
  else none

/-- The character a one-letter escape stands for. -/
def unescape? : Char → Option Char
  | '"' => some '"'
  | '\\' => some '\\'
  | '/' => some '/'
  | 'b' => some '\x08'
  | 'f' => some '\x0c'
  | 'n' => some '\n'
  | 'r' => some '\r'
  | 't' => some '\t'
  | _ => none

/-- The code units up to the closing quote. -/
def readUnits : List Char → Option (List Nat × List Char)
  | [] => none
  | '"' :: rest => some ([], rest)
  | '\\' :: 'u' :: a :: b :: c :: d :: rest => do
    let unit := (← hexValue? a) * 4096 + (← hexValue? b) * 256 + (← hexValue? c) * 16 + (← hexValue? d)
    let (units, after) ← readUnits rest
    pure (unit :: units, after)
  | '\\' :: c :: rest => do
    let plain ← unescape? c
    let (units, after) ← readUnits rest
    pure (Text.charUnits plain ++ units, after)
  | c :: rest =>
    if c.toNat < 0x20 ∨ c = '\\' then none
    else do
      let (units, after) ← readUnits rest
      pure (Text.charUnits c ++ units, after)

def readString (cs : List Char) : Option (String × List Char) :=
  (readUnits cs).map fun (units, rest) => (String.ofList (Text.ofUnits units), rest)

/-- The leading digits and the rest. -/
def readDigits (cs : List Char) : List Char × List Char :=
  (cs.takeWhile Text.isDigit, cs.dropWhile Text.isDigit)

/-- The digits after a point, if there is one. -/
def readFraction : List Char → Option (List Char × List Char)
  | '.' :: rest =>
    let (digits, after) := readDigits rest
    if digits.isEmpty then none else some (digits, after)
  | cs => some ([], cs)

/-- The exponent, zero if none is written. -/
def readExponent : List Char → Option (Int × List Char)
  | c :: rest =>
    if c = 'e' ∨ c = 'E' then
      let (negative, rest) := match rest with
        | '-' :: after => (true, after)
        | '+' :: after => (false, after)
        | after => (false, after)
      let (digits, after) := readDigits rest
      if digits.isEmpty then none
      else
        let size : Int := Text.digitsValue digits
        some (if negative then -size else size, after)
    else some (0, c :: rest)
  | [] => some (0, [])

def readNumber (cs : List Char) : Option (Number × List Char) := do
  let (negative, cs) := match cs with
    | '-' :: rest => (true, rest)
    | _ => (false, cs)
  let (whole, rest) := readDigits cs
  if whole.isEmpty ∨ (whole.head? = some '0' ∧ whole ≠ ['0']) then none else
  let (fraction, rest) ← readFraction rest
  let (exponent, rest) ← readExponent rest
  let coefficient := Text.digitsValue (whole ++ fraction)
  pure (.ofScientific negative coefficient (exponent - fraction.length), rest)

mutual

def readValue : Nat → List Char → Option (Json × List Char)
  | 0, _ => none
  | fuel + 1, cs =>
    match skipBlanks cs with
    | 'n' :: 'u' :: 'l' :: 'l' :: rest => some (null, rest)
    | 't' :: 'r' :: 'u' :: 'e' :: rest => some (bool true, rest)
    | 'f' :: 'a' :: 'l' :: 's' :: 'e' :: rest => some (bool false, rest)
    | '"' :: rest => (readString rest).map fun (s, after) => (str s, after)
    | '[' :: rest =>
      match skipBlanks rest with
      | ']' :: after => some (arr [], after)
      | _ => (readItems fuel rest).map fun (items, after) => (arr items, after)
    | '\x7b' :: rest =>
      match skipBlanks rest with
      | '\x7d' :: after => some (obj [], after)
      | _ => (readMembers fuel rest).map fun (members, after) => (object members, after)
    | rest => (readNumber rest).map fun (n, after) => (num n, after)

def readItems : Nat → List Char → Option (List Json × List Char)
  | 0, _ => none
  | fuel + 1, cs => do
    let (item, rest) ← readValue fuel cs
    match skipBlanks rest with
    | ',' :: rest =>
      let (items, after) ← readItems fuel rest
      pure (item :: items, after)
    | ']' :: after => pure ([item], after)
    | _ => none

def readMembers : Nat → List Char → Option (List (String × Json) × List Char)
  | 0, _ => none
  | fuel + 1, cs => do
    match skipBlanks cs with
    | '"' :: rest =>
      let (key, rest) ← readString rest
      match skipBlanks rest with
      | ':' :: rest =>
        let (value, rest) ← readValue fuel rest
        match skipBlanks rest with
        | ',' :: rest =>
          let (members, after) ← readMembers fuel rest
          pure ((key, value) :: members, after)
        | '\x7d' :: after => pure ([(key, value)], after)
        | _ => none
      | _ => none
    | _ => none

end

/-- The value a text holds; none when the text is not JSON. -/
def read? (text : String) : Option Json := do
  let cs := text.toList
  let (value, rest) ← readValue (cs.length + 1) cs
  if (skipBlanks rest).isEmpty then some value else none

end RoutePolicy.Json
