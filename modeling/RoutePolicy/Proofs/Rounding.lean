import Mathlib.Algebra.Order.Field.Power
import Mathlib.Data.Int.Log
import Mathlib.Data.Rat.Floor
import Mathlib.Tactic.FieldSimp
import Mathlib.Tactic.Linarith
import Mathlib.Tactic.NormNum
import Mathlib.Tactic.Ring
import RoutePolicy.Proofs.SafeIntegers

/-!
Rounding to binary64. The numbers that rounding keeps are the significands of at most 53 bits at a
unit of at least `2 ^ -1074`, and everything within `2 ^ -54` of such a number, relative to it, is
rounded to it.
-/

set_option autoImplicit false

namespace RoutePolicy.Number

/-! ### Units and significands -/

theorem scaled_eq (coefficient : Nat) {base : Nat} (positive : base ≠ 0) (exponent : Int) :
    scaled coefficient base exponent = coefficient * (base : Rat) ^ exponent := by
  have nonzero : (base : Rat) ≠ 0 := Nat.cast_ne_zero.mpr positive
  unfold scaled
  split
  · rename_i nonnegative
    obtain ⟨n, rfl⟩ := Int.eq_ofNat_of_zero_le nonnegative
    simp [zpow_natCast]
  · rename_i negative
    obtain ⟨n, same⟩ : ∃ n : Nat, -exponent = n := ⟨(-exponent).toNat, by omega⟩
    have own : exponent = -(n : Int) := by omega
    rw [own, neg_neg, Int.toNat_natCast, Rat.mkRat_eq_div, zpow_neg, zpow_natCast]
    simp [div_eq_mul_inv]

/-- A fraction is rounded to the integer it is less than a half away from. -/
theorem roundDiv_eq {num den value : Nat} (positive : 0 < den)
    (below : 2 * num < (2 * value + 1) * den) (above : 2 * value * den < 2 * num + den) :
    roundDiv num den = value := by
  have parts := Nat.div_add_mod num den
  have small := Nat.mod_lt num positive
  unfold roundDiv
  dsimp only
  generalize num / den = quotient at parts ⊢
  generalize num % den = rest at parts small ⊢
  subst parts
  have upper : quotient ≤ value := by
    by_contra larger
    have next : den * (value + 1) ≤ den * quotient := Nat.mul_le_mul_left _ (by omega)
    nlinarith
  have lower : value ≤ quotient + 1 := by
    by_contra smaller
    have next : den * (quotient + 2) ≤ den * value := Nat.mul_le_mul_left _ (by omega)
    nlinarith
  rcases Nat.lt_or_ge quotient value with less | same
  · obtain rfl : value = quotient + 1 := by omega
    have half : den < 2 * rest := by nlinarith
    rw [if_neg (by omega)]
  · obtain rfl : value = quotient := by omega
    have half : 2 * rest < den := by nlinarith
    rw [if_pos (.inl half)]

/-- The integer nearest to `num / den` in units of `2 ^ unit`. -/
def significand (num den : Nat) (unit : Int) : Nat :=
  if 0 ≤ unit then roundDiv num (den <<< unit.toNat) else roundDiv (num <<< (-unit).toNat) den

/-- What lies less than half a unit from a multiple of the unit has that multiple's significand. -/
theorem significand_eq {num den value : Nat} {unit : Int} (positive : 0 < den)
    (near : |(num : Rat) / den - value * 2 ^ unit| < 2 ^ unit / 2) :
    significand num den unit = value := by
  have filled : (0 : Rat) < den := Nat.cast_pos.mpr positive
  have scale : (0 : Rat) < 2 ^ unit := by positivity
  obtain ⟨above, below⟩ := abs_lt.mp near
  have upper : 2 * (num : Rat) < (2 * value + 1) * (den * 2 ^ unit) := by
    have less : (num : Rat) / den < (2 * value + 1) * 2 ^ unit / 2 := by linarith
    rw [div_lt_iff₀ filled] at less
    linarith
  have lower : 2 * (value : Rat) * (den * 2 ^ unit) < 2 * num + den * 2 ^ unit := by
    have more : (2 * value - 1) * 2 ^ unit / 2 < (num : Rat) / den := by linarith
    rw [lt_div_iff₀ filled] at more
    linarith
  unfold significand
  split
  · rename_i nonnegative
    obtain ⟨n, rfl⟩ := Int.eq_ofNat_of_zero_le nonnegative
    rw [zpow_natCast] at upper lower
    rw [Int.toNat_natCast, Nat.shiftLeft_eq]
    exact roundDiv_eq (by positivity) (by exact_mod_cast upper) (by exact_mod_cast lower)
  · rename_i negative
    obtain ⟨n, same⟩ : ∃ n : Nat, -unit = n := ⟨(-unit).toNat, by omega⟩
    have own : unit = -(n : Int) := by omega
    have whole : (0 : Rat) < 2 ^ n := by positivity
    rw [own, zpow_neg, zpow_natCast] at upper lower
    rw [same, Int.toNat_natCast, Nat.shiftLeft_eq]
    refine roundDiv_eq positive ?_ ?_
    · have scaledUp : 2 * ((num : Rat) * 2 ^ n) < (2 * value + 1) * den := by
        have times := mul_lt_mul_of_pos_right upper whole
        field_simp at times
        linarith
      exact_mod_cast scaledUp
    · have scaledUp : 2 * (value : Rat) * den < 2 * (num * 2 ^ n) + den := by
        have times := mul_lt_mul_of_pos_right lower whole
        field_simp at times
        linarith
      exact_mod_cast scaledUp

theorem roundDiv_le {num den value : Nat} (positive : 0 < den) (most : num ≤ value * den) :
    roundDiv num den ≤ value := by
  have parts := Nat.div_add_mod num den
  have upper : num / den ≤ value := Nat.div_le_of_le_mul (by rwa [Nat.mul_comm])
  unfold roundDiv
  dsimp only
  split
  · exact upper
  · rename_i notBelow
    rcases Nat.lt_or_eq_of_le upper with less | same
    · omega
    · rw [same, Nat.mul_comm] at parts
      omega

theorem significand_le {num den value : Nat} {unit : Int} (positive : 0 < den)
    (most : (num : Rat) / den ≤ value * 2 ^ unit) : significand num den unit ≤ value := by
  have filled : (0 : Rat) < den := Nat.cast_pos.mpr positive
  rw [div_le_iff₀ filled] at most
  unfold significand
  split
  · rename_i nonnegative
    obtain ⟨n, rfl⟩ := Int.eq_ofNat_of_zero_le nonnegative
    rw [zpow_natCast] at most
    rw [Int.toNat_natCast, Nat.shiftLeft_eq]
    refine roundDiv_le (by positivity) ?_
    have same : (num : Rat) ≤ value * (den * 2 ^ n) := by linarith
    exact_mod_cast same
  · rename_i negative
    obtain ⟨n, same⟩ : ∃ n : Nat, -unit = n := ⟨(-unit).toNat, by omega⟩
    have own : unit = -(n : Int) := by omega
    have whole : (0 : Rat) < 2 ^ n := by positivity
    rw [own, zpow_neg, zpow_natCast] at most
    rw [same, Int.toNat_natCast, Nat.shiftLeft_eq]
    refine roundDiv_le positive ?_
    have times := mul_le_mul_of_nonneg_right most whole.le
    field_simp at times
    exact_mod_cast times

/-! ### Units of binades -/

theorem log2_bounds {n : Nat} (positive : n ≠ 0) :
    (2 : Rat) ^ (n.log2 : Int) ≤ n ∧ (n : Rat) < 2 ^ ((n.log2 : Int) + 1) := by
  constructor
  · rw [zpow_natCast]
    exact_mod_cast Nat.log2_self_le positive
  · have upper : n < 2 ^ (n.log2 + 1) := Nat.lt_log2_self
    have power : ((n.log2 : Int) + 1) = ((n.log2 + 1 : Nat) : Int) := by push_cast; rfl
    rw [power, zpow_natCast]
    exact_mod_cast upper

/-- Whether a fraction reaches a power of two, decided on its parts. -/
theorem reached_iff {num den : Nat} (positive : den ≠ 0) (guess : Int) :
    ((if 0 ≤ guess then decide (den <<< guess.toNat ≤ num)
      else decide (den ≤ num <<< (-guess).toNat)) = true) ↔ (2 : Rat) ^ guess ≤ num / den := by
  have filled : (0 : Rat) < den := Nat.cast_pos.mpr (Nat.pos_of_ne_zero positive)
  rw [le_div_iff₀ filled]
  split
  · rename_i nonnegative
    obtain ⟨n, rfl⟩ := Int.eq_ofNat_of_zero_le nonnegative
    rw [decide_eq_true_eq, Int.toNat_natCast, Nat.shiftLeft_eq, zpow_natCast, mul_comm]
    exact_mod_cast Iff.rfl
  · rename_i negative
    obtain ⟨n, same⟩ : ∃ n : Nat, -guess = n := ⟨(-guess).toNat, by omega⟩
    have own : guess = -(n : Int) := by omega
    have whole : (0 : Rat) < 2 ^ n := by positivity
    rw [decide_eq_true_eq, same, own, Int.toNat_natCast, Nat.shiftLeft_eq, zpow_neg, zpow_natCast,
      inv_mul_le_iff₀ whole, mul_comm (2 ^ n : Rat)]
    exact_mod_cast Iff.rfl

/-- The logarithm is the exponent between whose powers a number lies. -/
theorem log_eq {base : Nat} (large : 1 < base) {q : Rat} {e : Int} (positive : 0 < q)
    (lower : (base : Rat) ^ e ≤ q) (upper : q < (base : Rat) ^ (e + 1)) : Int.log base q = e := by
  have least := (Int.zpow_le_iff_le_log large positive).mp lower
  have most := (Int.lt_zpow_iff_log_lt large positive).mp upper
  omega

theorem binaryExponent_eq {num den : Nat} (top : num ≠ 0) (bottom : den ≠ 0) :
    binaryExponent num den = Int.log 2 ((num : Rat) / den) := by
  have filled : (0 : Rat) < den := Nat.cast_pos.mpr (Nat.pos_of_ne_zero bottom)
  have positive : (0 : Rat) < num / den := div_pos (Nat.cast_pos.mpr (Nat.pos_of_ne_zero top)) filled
  obtain ⟨topLower, topUpper⟩ := log2_bounds top
  obtain ⟨bottomLower, bottomUpper⟩ := log2_bounds bottom
  have two : (2 : Rat) ≠ 0 := by norm_num
  have upper : (num : Rat) / den < 2 ^ ((num.log2 : Int) - den.log2 + 1) := by
    rw [div_lt_iff₀ filled]
    calc (num : Rat) < 2 ^ ((num.log2 : Int) + 1) := topUpper
      _ = 2 ^ ((num.log2 : Int) - den.log2 + 1) * 2 ^ (den.log2 : Int) := by
        rw [← zpow_add₀ two]
        congr 1
        omega
      _ ≤ 2 ^ ((num.log2 : Int) - den.log2 + 1) * den := by gcongr
  have lower : (2 : Rat) ^ ((num.log2 : Int) - den.log2 - 1) ≤ num / den := by
    rw [le_div_iff₀ filled]
    calc (2 : Rat) ^ ((num.log2 : Int) - den.log2 - 1) * den
        ≤ 2 ^ ((num.log2 : Int) - den.log2 - 1) * 2 ^ ((den.log2 : Int) + 1) := by gcongr
      _ = 2 ^ (num.log2 : Int) := by
        rw [← zpow_add₀ two]
        congr 1
        omega
      _ ≤ num := topLower
  unfold binaryExponent
  dsimp only
  by_cases enough : (2 : Rat) ^ ((num.log2 : Int) - den.log2) ≤ num / den
  · rw [if_pos ((reached_iff bottom _).mpr enough)]
    exact (log_eq (by decide) positive (by exact_mod_cast enough) (by exact_mod_cast upper)).symm
  · rw [if_neg (mt (reached_iff bottom _).mp enough)]
    have less := not_le.mp enough
    refine (log_eq (by decide) positive (by exact_mod_cast lower) ?_).symm
    rw [sub_add_cancel]
    exact_mod_cast less

/-- The unit in which a number is rounded: its leading bit is the 53rd, unless the unit would be
below `2 ^ -1074`. -/
def unitOf (q : Rat) : Int := max (Int.log 2 q - 52) (-1074)

/-- The magnitude a positive number is rounded to, before it is compared with the largest one. -/
def magnitude (q : Rat) : Rat := significand q.num.natAbs q.den (unitOf q) * 2 ^ unitOf q

theorem num_div_den {q : Rat} (positive : 0 < q) : (q.num.natAbs : Rat) / q.den = q := by
  have nonnegative : 0 ≤ q.num := (Rat.num_pos.mpr positive).le
  have own : ((q.num.natAbs : Int) : Rat) = q.num := by rw [Int.natAbs_of_nonneg nonnegative]
  rw [Int.cast_natCast] at own
  rw [own, Rat.num_div_den]

theorem round_of_pos {q : Rat} (positive : 0 < q) :
    round q =
      if ((1 <<< 1024 : Nat) : Rat) ≤ magnitude q then .infinite false else .finite (magnitude q) := by
  have top : 0 < q.num := Rat.num_pos.mpr positive
  have exponent : binaryExponent q.num.natAbs q.den = Int.log 2 q := by
    rw [binaryExponent_eq (by omega) q.den_nz, num_div_den positive]
  have above : ¬q.num < 0 := by omega
  unfold round
  rw [if_neg top.ne']
  dsimp only
  rw [exponent, scaled_eq _ (by decide), if_neg above, decide_eq_false above]
  rfl

theorem round_neg (q : Rat) : round (-q) = (round q).neg := by
  unfold round
  rw [Rat.num_neg_eq_neg_num, Rat.den_neg_eq_den, Int.natAbs_neg]
  by_cases zero : q.num = 0
  · simp [zero, neg]
  · dsimp only
    generalize scaled _ 2 _ = size
    rw [if_neg (by omega), if_neg zero]
    rcases Int.lt_or_gt_of_ne zero with negative | positive
    · have flipped : ¬-q.num < 0 := by omega
      simp only [negative, flipped, if_true, if_false, decide_true, decide_false]
      split
      · rfl
      · simp only [neg, neg_neg]
    · have flipped : -q.num < 0 := by omega
      have own : ¬q.num < 0 := by omega
      simp only [own, flipped, if_true, if_false, decide_true, decide_false]
      split
      · rfl
      · rfl

/-! ### Numbers that rounding keeps -/

/-- A number that rounding keeps is a multiple of its unit, below the largest magnitude. -/
theorem multiple_of_round {x : Rat} (positive : 0 < x) (kept : round x = .finite x) :
    (∃ m : Nat, x = m * 2 ^ unitOf x) ∧ x < ((1 <<< 1024 : Nat) : Rat) := by
  rw [round_of_pos positive] at kept
  split at kept
  · cases kept
  · rename_i small
    have own : magnitude x = x := Number.finite.inj kept
    exact ⟨⟨_, own.symm⟩, own ▸ not_le.mp small⟩

/-- A number is rounded to a multiple of its unit less than half a unit away. -/
theorem round_eq {q x : Rat} {m : Nat} (positive : 0 < q) (value : x = m * 2 ^ unitOf q)
    (near : |q - x| < 2 ^ unitOf q / 2) (limit : x < ((1 <<< 1024 : Nat) : Rat)) :
    round q = .finite x := by
  have nearest : significand q.num.natAbs q.den (unitOf q) = m := by
    apply significand_eq q.den_pos
    rw [num_div_den positive, ← value]
    exact near
  have size : magnitude q = x := by rw [magnitude, nearest, value]
  rw [round_of_pos positive, size, if_neg (not_le.mpr limit)]

/-- The binade of a positive number. -/
theorem log_bounds {x : Rat} (positive : 0 < x) :
    (2 : Rat) ^ Int.log 2 x ≤ x ∧ x < 2 ^ (Int.log 2 x + 1) := by
  have lower := Int.zpow_log_le_self (b := 2) (by decide) positive
  have upper := Int.lt_zpow_succ_log_self (b := 2) (by decide) x
  exact ⟨by exact_mod_cast lower, by exact_mod_cast upper⟩

/-- A binade has at most 53 bits above its unit. -/
theorem binade_le (x : Rat) : (2 : Rat) ^ (Int.log 2 x + 1) ≤ 2 ^ (53 : Nat) * 2 ^ unitOf x := by
  rw [← zpow_natCast, ← zpow_add₀ (by norm_num)]
  apply zpow_le_zpow_right₀ (by norm_num)
  unfold unitOf
  omega

/-- A positive multiple of its unit is at least the unit. -/
theorem unit_le {x : Rat} {m : Nat} (positive : 0 < x) (value : x = m * 2 ^ unitOf x) :
    (2 : Rat) ^ unitOf x ≤ x := by
  have unit : (0 : Rat) < 2 ^ unitOf x := by positivity
  have some : (1 : Rat) ≤ m := by
    rcases Nat.eq_zero_or_pos m with rfl | more
    · rw [Nat.cast_zero, zero_mul] at value
      exact absurd value positive.ne'
    · exact_mod_cast more
  have times := mul_le_mul_of_nonneg_right some unit.le
  rwa [one_mul, ← value] at times

/-- A multiple of the unit leaves a whole unit to the end of its binade. -/
theorem succ_unit_le {x : Rat} {m : Nat} (positive : 0 < x) (value : x = m * 2 ^ unitOf x) :
    x + 2 ^ unitOf x ≤ 2 ^ (Int.log 2 x + 1) := by
  have unit : (0 : Rat) < 2 ^ unitOf x := by positivity
  obtain ⟨-, upper⟩ := log_bounds positive
  have higher : unitOf x < Int.log 2 x + 1 :=
    (zpow_lt_zpow_iff_right₀ (by norm_num)).mp ((unit_le positive value).trans_lt upper)
  obtain ⟨k, steps⟩ : ∃ k : Nat, Int.log 2 x + 1 = k + unitOf x :=
    ⟨(Int.log 2 x + 1 - unitOf x).toNat, by omega⟩
  rw [steps, zpow_add₀ (by norm_num), zpow_natCast] at upper ⊢
  have less : (m : Rat) < 2 ^ k := lt_of_mul_lt_mul_right (value ▸ upper) unit.le
  have next : ((m + 1 : Nat) : Rat) ≤ 2 ^ k := by exact_mod_cast (by exact_mod_cast less : m < 2 ^ k)
  calc x + 2 ^ unitOf x = ((m + 1 : Nat) : Rat) * 2 ^ unitOf x := by
        push_cast
        rw [add_mul, one_mul, ← value]
    _ ≤ 2 ^ k * 2 ^ unitOf x := by gcongr

section

variable {q x : Rat} {m : Nat}

/-- A relative distance below `2 ^ -54` is less than half a unit. -/
theorem half_unit (positive : 0 < x) (near : |q - x| * 2 ^ 54 < x) : |q - x| < 2 ^ unitOf x / 2 := by
  obtain ⟨-, upper⟩ := log_bounds positive
  have most := binade_le x
  linarith

theorem pos_of_near (near : |q - x| * 2 ^ 54 < x) : 0 < q := by
  have less : |q - x| < x := lt_of_le_of_lt (le_mul_of_one_le_right (abs_nonneg _) (by norm_num)) near
  linarith [(abs_lt.mp less).1]

/-- A number near a multiple of its unit lies in the binade of the multiple or in the one below. -/
theorem log_near (positive : 0 < x) (value : x = m * 2 ^ unitOf x) (near : |q - x| * 2 ^ 54 < x) :
    Int.log 2 q ≤ Int.log 2 x ∧ Int.log 2 x ≤ Int.log 2 q + 1 := by
  have large : (1 : Rat) < 2 := by norm_num
  have unit : (0 : Rat) < 2 ^ unitOf x := by positivity
  have room := succ_unit_le positive value
  obtain ⟨lower, -⟩ := log_bounds positive
  obtain ⟨qLower, qUpper⟩ := log_bounds (pos_of_near near)
  obtain ⟨-, below⟩ := abs_lt.mp (half_unit positive near)
  have half : |q - x| < x / 2 := by linarith [abs_nonneg (q - x)]
  obtain ⟨above, -⟩ := abs_lt.mp half
  constructor
  · have less : (2 : Rat) ^ Int.log 2 q < 2 ^ (Int.log 2 x + 1) := by linarith
    have exponents := (zpow_lt_zpow_iff_right₀ large).mp less
    omega
  · have less : (2 : Rat) ^ (Int.log 2 x - 1) < 2 ^ (Int.log 2 q + 1) := by
      rw [zpow_sub_one₀ (by norm_num)]
      linarith
    have exponents := (zpow_lt_zpow_iff_right₀ large).mp less
    omega

/-- Where the number nearby lies in the binade below, the multiple is a power of two. -/
theorem power_of_lower (positive : 0 < x) (value : x = m * 2 ^ unitOf x)
    (near : |q - x| * 2 ^ 54 < x) (normal : unitOf x = Int.log 2 x - 52)
    (lower : Int.log 2 x = Int.log 2 q + 1) : x = 2 ^ (52 : Nat) * 2 ^ unitOf x := by
  have unit : (0 : Rat) < 2 ^ unitOf x := by positivity
  obtain ⟨least, -⟩ := log_bounds positive
  obtain ⟨-, less⟩ := log_bounds (pos_of_near near)
  obtain ⟨above, -⟩ := abs_lt.mp (half_unit positive near)
  have binade : (2 : Rat) ^ Int.log 2 x = 2 ^ (52 : Nat) * 2 ^ unitOf x := by
    rw [← zpow_natCast, ← zpow_add₀ (by norm_num)]
    congr 1
    omega
  rw [← lower, binade] at less
  rw [binade] at least
  generalize (2 : Rat) ^ unitOf x = u at *
  subst value
  have filled : (2 : Rat) ^ (52 : Nat) ≤ m := le_of_mul_le_mul_right least unit
  rcases Nat.eq_or_lt_of_le (by exact_mod_cast filled : 2 ^ 52 ≤ m) with same | more
  · rw [← same]
    push_cast
    rfl
  · have next : (2 : Rat) ^ (52 : Nat) + 1 ≤ m := by exact_mod_cast more
    have times := mul_le_mul_of_nonneg_right next unit.le
    linarith

/-- Everything within `2 ^ -54` of a number that rounding keeps, relative to the number, is rounded
to it. -/
theorem round_near (positive : 0 < x) (kept : round x = .finite x) (near : |q - x| * 2 ^ 54 < x) :
    round q = .finite x := by
  obtain ⟨⟨m, value⟩, limit⟩ := multiple_of_round positive kept
  have close := half_unit positive near
  obtain ⟨most, least⟩ := log_near positive value near
  by_cases same : unitOf q = unitOf x
  · rw [← same] at value close
    exact round_eq (pos_of_near near) value close limit
  -- The unit below a power of two is half the unit above it, and then half of that one counts.
  · have halved : unitOf x = unitOf q + 1 := by
      unfold unitOf at same ⊢
      omega
    have power : x = 2 ^ (52 : Nat) * 2 ^ unitOf x := by
      apply power_of_lower positive value near
      · unfold unitOf at same ⊢
        omega
      · unfold unitOf at same
        omega
    rw [halved, zpow_add_one₀ (by norm_num)] at power
    have whole : x = (2 ^ 53 : Nat) * 2 ^ unitOf q := by
      push_cast
      linarith
    exact round_eq (pos_of_near near) whole (by linarith) limit

end

/-- A number of at most 53 bits in a unit that is not too small is a multiple of its own unit. -/
theorem multiple_of_unit {m : Nat} {unit : Int} (some : 0 < m) (most : m ≤ 2 ^ 53)
    (least : -1074 ≤ unit) : ∃ k : Nat, (m : Rat) * 2 ^ unit = k * 2 ^ unitOf (m * 2 ^ unit) := by
  have scale : (0 : Rat) < 2 ^ unit := by positivity
  have positive : (0 : Rat) < m * 2 ^ unit := mul_pos (Nat.cast_pos.mpr some) scale
  rcases Nat.lt_or_eq_of_le most with less | rfl
  · have upper : (m : Rat) * 2 ^ unit < 2 ^ (unit + 53) := by
      have bits : (m : Rat) < 2 ^ (53 : Int) := by exact_mod_cast less
      rw [zpow_add₀ (by norm_num), mul_comm]
      exact mul_lt_mul_of_pos_left bits scale
    have binade : Int.log 2 ((m : Rat) * 2 ^ unit) < unit + 53 :=
      (Int.lt_zpow_iff_log_lt (by decide) positive).mp (by exact_mod_cast upper)
    obtain ⟨steps, same⟩ : ∃ steps : Nat, unit = steps + unitOf ((m : Rat) * 2 ^ unit) := by
      unfold unitOf
      exact ⟨(unit - max (Int.log 2 ((m : Rat) * 2 ^ unit) - 52) (-1074)).toNat, by omega⟩
    refine ⟨m * 2 ^ steps, ?_⟩
    generalize unitOf ((m : Rat) * 2 ^ unit) = own at same
    rw [same, zpow_add₀ (by norm_num), zpow_natCast]
    push_cast
    ring
  · have power : ((2 ^ 53 : Nat) : Rat) * 2 ^ unit = 2 ^ (unit + 53) := by
      rw [zpow_add₀ (by norm_num)]
      push_cast
      ring
    have binade : Int.log 2 (((2 ^ 53 : Nat) : Rat) * 2 ^ unit) = unit + 53 := by
      rw [power]
      exact_mod_cast Int.log_zpow (R := Rat) (b := 2) (by decide) (unit + 53)
    refine ⟨2 ^ 52, ?_⟩
    have own : unitOf (((2 ^ 53 : Nat) : Rat) * 2 ^ unit) = unit + 1 := by
      unfold unitOf
      rw [binade]
      omega
    rw [own, zpow_add_one₀ (by norm_num)]
    push_cast
    ring

/-- Rounding keeps what has been rounded. -/
theorem round_of_round {q x : Rat} (rounded : round q = .finite x) : round x = .finite x := by
  have positiveCase : ∀ {q x : Rat}, 0 < q → round q = .finite x → round x = .finite x := by
    intro q x positive rounded
    rw [round_of_pos positive] at rounded
    split at rounded
    · cases rounded
    rename_i small
    have limit := not_le.mp small
    obtain rfl := Number.finite.inj rounded
    have bits : significand q.num.natAbs q.den (unitOf q) ≤ 2 ^ 53 := by
      apply significand_le q.den_pos
      rw [num_div_den positive]
      have upper := (log_bounds positive).2.le.trans (binade_le q)
      exact_mod_cast upper
    rcases Nat.eq_zero_or_pos (significand q.num.natAbs q.den (unitOf q)) with none | some
    · rw [magnitude, none, Nat.cast_zero, zero_mul]
      rfl
    · obtain ⟨k, value⟩ := multiple_of_unit some bits (le_max_right _ (-1074 : Int))
      have own : 0 < magnitude q := mul_pos (Nat.cast_pos.mpr some) (by positivity)
      refine round_eq own value ?_ limit
      rw [sub_self, abs_zero]
      positivity
  rcases lt_trichotomy q 0 with negative | rfl | positive
  · have flipped : round (-q) = .finite (-x) := by rw [round_neg, rounded, neg]
    have kept := positiveCase (by linarith) flipped
    have back := round_neg (-x)
    rwa [neg_neg, kept, neg, neg_neg] at back
  · obtain rfl : 0 = x := Number.finite.inj rounded
    rfl
  · exact positiveCase positive rounded

/-- A value of binary64 that is finite: a number that rounding keeps. -/
def IsDouble (n : Number) : Prop := ∃ q, n = finite q ∧ round q = finite q

/-- No positive value is below the smallest unit, and none reaches the largest magnitude. -/
theorem double_bounds {x : Rat} (positive : 0 < x) (kept : round x = .finite x) :
    (2 : Rat) ^ (-1074 : Int) ≤ x ∧ x < ((1 <<< 1024 : Nat) : Rat) := by
  obtain ⟨⟨m, value⟩, limit⟩ := multiple_of_round positive kept
  refine ⟨le_trans ?_ (unit_le positive value), limit⟩
  exact zpow_le_zpow_right₀ (by norm_num) (le_max_right _ _)

end RoutePolicy.Number
