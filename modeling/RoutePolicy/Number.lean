/-!
Numbers as documents hold them: the values of binary64, kept as exact rationals, with two infinities
and one undefined value. Every operation is computed exactly and then rounded once.
-/

set_option autoImplicit false

namespace RoutePolicy

/-- A number of a document. The two zeros of binary64 are one value here. -/
inductive Number where
  | finite (value : Rat)
  | infinite (negative : Bool)
  | undefined
deriving DecidableEq

namespace Number

/-- `num / den` to the nearest natural number; a half goes to the even neighbour. -/
def roundDiv (num den : Nat) : Nat :=
  let below := num / den
  let twice := 2 * (num % den)
  if twice < den ∨ (twice = den ∧ below % 2 = 0) then below else below + 1

/-- The exponent `e` with `2 ^ e ≤ num / den < 2 ^ (e + 1)`, for positive arguments. -/
def binaryExponent (num den : Nat) : Int :=
  let guess : Int := (num.log2 : Int) - (den.log2 : Int)
  let reached : Bool :=
    if 0 ≤ guess then den <<< guess.toNat ≤ num else den ≤ num <<< (-guess).toNat
  if reached then guess else guess - 1

/-- `coefficient * base ^ exponent`, exactly. -/
def scaled (coefficient base : Nat) (exponent : Int) : Rat :=
  if 0 ≤ exponent then ((coefficient * Nat.pow base exponent.toNat : Nat) : Rat)
  else mkRat coefficient (Nat.pow base (-exponent).toNat)

/-- The binary64 number nearest to a rational: 53 significant bits, no bit below `2 ^ -1074`, a half
to the even neighbour, and infinity from `2 ^ 1024` on. -/
def round (q : Rat) : Number :=
  if q.num = 0 then .finite 0 else
  let num := q.num.natAbs
  let unit := max (binaryExponent num q.den - 52) (-1074)
  let significand :=
    if 0 ≤ unit then roundDiv num (q.den <<< unit.toNat)
    else roundDiv (num <<< (-unit).toNat) q.den
  let magnitude := scaled significand 2 unit
  if (1 <<< 1024 : Nat) ≤ magnitude then .infinite (q.num < 0)
  else .finite (if q.num < 0 then -magnitude else magnitude)

/-- The integer nearest to `i` that has at most 53 significant bits. -/
def roundInt (i : Int) : Int :=
  let size := i.natAbs
  if size < 1 <<< 53 then i else
  let unit := 1 <<< (size.log2 - 52)
  let rounded : Int := (roundDiv size unit * unit : Nat)
  if i < 0 then -rounded else rounded

def ofInt (i : Int) : Number := round (i : Rat)

def ofNat (n : Nat) : Number := ofInt n

instance {n : Nat} : OfNat Number n := ⟨ofNat n⟩

/-- A decimal in scientific form. Exponents far outside the range are decided by size alone. -/
def ofScientific (negative : Bool) (coefficient : Nat) (exponent : Int) : Number :=
  if coefficient = 0 then .finite 0 else
  let size := exponent + (Nat.toDigits 10 coefficient).length
  if 400 < size then .infinite negative
  else if size < -400 then .finite 0
  else
    let magnitude := scaled coefficient 10 exponent
    round (if negative then -magnitude else magnitude)

def isFinite : Number → Bool
  | finite _ => true
  | _ => false

/-- The integer a number stands for, if it is one. -/
def toInt? : Number → Option Int
  | finite q => if q.den = 1 then some q.num else none
  | _ => none

/-- The largest integer up to which all integers are numbers: `2 ^ 53 - 1`. -/
def maxSafe : Nat := 9007199254740991

/-- The integer a number stands for, if its neighbours are numbers too. -/
def toSafeInt? (n : Number) : Option Int :=
  n.toInt?.filter (·.natAbs ≤ maxSafe)

/-- A natural number, if the number is one. -/
def toNat? (n : Number) : Option Nat :=
  n.toInt?.bind fun i => if 0 ≤ i then some i.toNat else none

def isNegative : Number → Bool
  | finite q => q < 0
  | infinite negative => negative
  | undefined => false

def neg : Number → Number
  | finite q => finite (-q)
  | infinite negative => infinite (!negative)
  | undefined => undefined

def add : Number → Number → Number
  | finite a, finite b => round (a + b)
  | finite _, infinite n => infinite n
  | infinite n, finite _ => infinite n
  | infinite m, infinite n => if m = n then infinite m else undefined
  | _, _ => undefined

def mul : Number → Number → Number
  | finite a, finite b => round (a * b)
  | finite a, infinite n => if a = 0 then undefined else infinite (n != decide (a < 0))
  | infinite n, finite a => if a = 0 then undefined else infinite (n != decide (a < 0))
  | infinite m, infinite n => infinite (m != n)
  | _, _ => undefined

/-- The order of numbers; an undefined number is not below anything, nor above. -/
def le : Number → Number → Bool
  | finite a, finite b => a ≤ b
  | infinite true, finite _ => true
  | finite _, infinite negative => !negative
  | infinite false, finite _ => false
  | infinite m, infinite n => m || !n
  | _, _ => false

instance : Add Number := ⟨add⟩
instance : Mul Number := ⟨mul⟩
instance : Neg Number := ⟨neg⟩

/-- The smaller of two numbers, undefined when one of them is. -/
def min (a b : Number) : Number :=
  if a = undefined ∨ b = undefined then undefined
  else if a.le b then a else b

/-- A power of two, infinite when it is too large and zero when it is too small. -/
def twoPow (exponent : Int) : Number :=
  if 1024 ≤ exponent then .infinite false
  else if exponent < -1074 then .finite 0
  else .finite (scaled 1 2 exponent)

/-- The nearest integer, a half going up. -/
def nearest : Number → Number
  | finite q => round ((q + 1/2).floor : Rat)
  | n => n

end Number

end RoutePolicy
