import RoutePolicy.Number

/-!
The text of a number: the fewest decimal digits that read back as the number, written positionally
while the point stays near them. Reading takes decimal digits apart the other way.
-/

set_option autoImplicit false

namespace RoutePolicy.Number

/-- Digits and the place of the point: the value is `0.digits * 10 ^ point`. -/
structure Digits where
  digits : List Char
  point : Int
deriving DecidableEq

/-- The place of the point of a positive rational above `10 ^ -340`. -/
def decimalPoint (q : Rat) : Int :=
  (Nat.toDigits 10 (q.num.natAbs * Nat.pow 10 340 / q.den)).length - (340 : Int)

/-- The neighbours of `q` on the grid of `10 ^ exponent`, the nearer one first. -/
def gridNeighbours (q : Rat) (exponent : Int) : List Nat :=
  let scaledDown := q * scaled 1 10 (-exponent)
  let below := scaledDown.floor.toNat
  let rest := scaledDown - (below : Rat)
  if rest < 1/2 ∨ (rest = 1/2 ∧ below % 2 = 0) then [below, below + 1] else [below + 1, below]

/-- The shortest decimal of a positive number that reads back, tried from `count` digits on; the
nearest to the number if there are several. -/
def shortestFrom (q : Rat) (point : Int) (count : Nat) : Nat → Nat × Int
  | 0 => (0, 0)
  | fuel + 1 =>
    let exponent := point - count
    match (gridNeighbours q exponent).find? fun c => round (scaled c 10 exponent) = .finite q with
    | some c => (c, exponent)
    | none => shortestFrom q point (count + 1) fuel

/-- The digits of a decimal in scientific form, without zeros at the end. -/
def Digits.ofDecimal (decimal : Nat × Int) : Digits :=
  let all := Nat.toDigits 10 decimal.1
  { digits := (all.reverse.dropWhile (· = '0')).reverse, point := decimal.2 + all.length }

/-- Seventeen digits are always enough. -/
def shortest (q : Rat) : Digits := .ofDecimal (shortestFrom q (decimalPoint q) 1 17)

/-- Written out while the point falls within 21 digits to the right or 6 zeros to the left, with an
exponent otherwise. -/
def Digits.layout (d : Digits) : List Char :=
  let count : Int := d.digits.length
  if count ≤ d.point ∧ d.point ≤ 21 then
    d.digits ++ List.replicate (d.point - count).toNat '0'
  else if 0 < d.point ∧ d.point ≤ 21 then
    d.digits.take d.point.toNat ++ '.' :: d.digits.drop d.point.toNat
  else if -6 < d.point ∧ d.point ≤ 0 then
    '0' :: '.' :: List.replicate (-d.point).toNat '0' ++ d.digits
  else
    let exponent := d.point - 1
    let mantissa := match d.digits with
      | [] => []
      | [c] => [c]
      | c :: rest => c :: '.' :: rest
    let sign := if exponent < 0 then '-' else '+'
    mantissa ++ 'e' :: sign :: Nat.toDigits 10 exponent.natAbs

/-- The digits of a positive rational; integers below `2 ^ 53` need no search. -/
def positiveText (q : Rat) : List Char :=
  if q.den = 1 ∧ q.num.natAbs ≤ maxSafe then Nat.toDigits 10 q.num.natAbs
  else (shortest q).layout

/-- The text of a number. -/
def text : Number → String
  | undefined => "NaN"
  | infinite true => "-Infinity"
  | infinite false => "Infinity"
  | finite q =>
    if q.num < 0 then String.ofList ('-' :: positiveText (-q)) else String.ofList (positiveText q)

end RoutePolicy.Number
