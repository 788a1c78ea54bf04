import RoutePolicy.Number
import RoutePolicy.Text.Blank
import RoutePolicy.Text.Pieces

/-!
Numerals of settings: decimal, with an optional sign, point and exponent, or unsigned with base 2, 8
or 16. Blanks around a numeral do not count, and blanks alone are zero.
-/

set_option autoImplicit false

namespace RoutePolicy.Number

/-- The value of a digit in a base up to 16. -/
def digit? (base : Nat) (c : Char) : Option Nat :=
  let value :=
    if Text.isDigit c then Text.digitValue c
    else if 'a' ≤ c ∧ c ≤ 'f' then c.toNat - 'a'.toNat + 10
    else if 'A' ≤ c ∧ c ≤ 'F' then c.toNat - 'A'.toNat + 10
    else base
  if value < base then some value else none

/-- Digits of a base. -/
def based? (base : Nat) (cs : List Char) : Option Number :=
  if cs.isEmpty then none
  else (cs.mapM (digit? base)).map fun digits =>
    ofScientific false (digits.foldl (fun value d => base * value + d) 0) 0

/-- A sign and the rest. -/
def sign : List Char → Bool × List Char
  | '-' :: rest => (true, rest)
  | '+' :: rest => (false, rest)
  | cs => (false, cs)

/-- An exponent and nothing more; nothing at all is the exponent zero. -/
def exponent? : List Char → Option Int
  | [] => some 0
  | c :: rest =>
    if c = 'e' ∨ c = 'E' then
      let (negative, digits) := sign rest
      if digits.isEmpty ∨ !digits.all Text.isDigit then none
      else
        let size : Int := Text.digitsValue digits
        some (if negative then -size else size)
    else none

/-- Digits with an optional point among them, and an optional exponent. -/
def decimal? (negative : Bool) (cs : List Char) : Option Number := do
  let whole := cs.takeWhile Text.isDigit
  let rest := cs.dropWhile Text.isDigit
  let (fraction, rest) := match rest with
    | '.' :: after => (after.takeWhile Text.isDigit, after.dropWhile Text.isDigit)
    | _ => ([], rest)
  if whole.isEmpty ∧ fraction.isEmpty then none else
  let exponent ← exponent? rest
  pure (ofScientific negative (Text.digitsValue (whole ++ fraction)) (exponent - fraction.length))

def numeral? (cs : List Char) : Option Number :=
  match cs with
  | [] => some (.finite 0)
  | '0' :: 'x' :: digits => based? 16 digits
  | '0' :: 'X' :: digits => based? 16 digits
  | '0' :: 'o' :: digits => based? 8 digits
  | '0' :: 'O' :: digits => based? 8 digits
  | '0' :: 'b' :: digits => based? 2 digits
  | '0' :: 'B' :: digits => based? 2 digits
  | cs =>
    let (negative, rest) := sign cs
    if String.ofList rest = "Infinity" then some (.infinite negative) else decimal? negative rest

/-- The number a text stands for, undefined when it is no numeral. -/
def ofText (text : String) : Number := (numeral? (Text.trim text.toList)).getD .undefined

end RoutePolicy.Number
