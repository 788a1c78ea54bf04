import Mathlib.Data.Rat.Lemmas
import Mathlib.Algebra.Order.Field.Rat
import Mathlib.Tactic.Positivity
import RoutePolicy.Number.Text

/-!
The integers up to `2 ^ 53 - 1`: as numbers of documents they are not rounded, and their texts are
plain decimals that tell them apart.
-/

set_option autoImplicit false

namespace RoutePolicy.Number

theorem roundDiv_one (n : Nat) : roundDiv n 1 = n := by
  simp [roundDiv, Nat.mod_one]

theorem binaryExponent_one {n : Nat} (positive : n ≠ 0) : binaryExponent n 1 = n.log2 := by
  have below : 1 <<< n.log2 ≤ n := by
    rw [Nat.shiftLeft_eq, Nat.one_mul]
    exact Nat.log2_self_le positive
  have one : Nat.log2 1 = 0 := by decide
  simp [binaryExponent, one, below]

theorem shiftLeft_le {m n : Nat} (le : m ≤ n) : 1 <<< m ≤ 1 <<< n := by
  rw [Nat.shiftLeft_eq, Nat.shiftLeft_eq, Nat.one_mul, Nat.one_mul]
  exact Nat.pow_le_pow_right (by decide) le

/-- The bits of a safe integer fit without rounding. -/
theorem scaled_significand {n : Nat} (positive : n ≠ 0) (safe : n ≤ maxSafe) :
    scaled (if 0 ≤ max ((n.log2 : Int) - 52) (-1074) then
      roundDiv n (1 <<< (max ((n.log2 : Int) - 52) (-1074)).toNat)
      else roundDiv (n <<< (-max ((n.log2 : Int) - 52) (-1074)).toNat) 1) 2
      (max ((n.log2 : Int) - 52) (-1074)) = n := by
  have short : n.log2 < 53 := (Nat.log2_lt positive).mpr (by unfold maxSafe at safe; omega)
  have unit : max ((n.log2 : Int) - 52) (-1074) = (n.log2 : Int) - 52 := by omega
  rw [unit]
  by_cases full : n.log2 = 52
  · simp [full, roundDiv_one, scaled]
  · have negative : ¬0 ≤ (n.log2 : Int) - 52 := by omega
    rw [if_neg negative, roundDiv_one, scaled, if_neg negative, Nat.shiftLeft_eq]
    have filled : ((2 : Rat) ^ (-((n.log2 : Int) - 52)).toNat) ≠ 0 := by positivity
    rw [Rat.mkRat_eq_div, Nat.pow_eq]
    push_cast
    exact mul_div_cancel_right₀ _ filled

/-- Safe integers are numbers of documents. -/
theorem ofInt_safe {i : Int} (safe : i.natAbs ≤ maxSafe) : ofInt i = .finite i := by
  unfold ofInt round
  rw [Rat.num_intCast, Rat.den_intCast]
  split
  · rename_i zero
    rw [zero]
    rfl
  · rename_i nonzero
    have positive : i.natAbs ≠ 0 := by omega
    dsimp only
    rw [binaryExponent_one positive, scaled_significand positive safe]
    have bounded : ¬((1 <<< 1024 : Nat) : Rat) ≤ (i.natAbs : Rat) := by
      have small : maxSafe < 1 <<< 53 := by decide
      have large := shiftLeft_le (show 53 ≤ 1024 by decide)
      rw [Nat.cast_le, Nat.not_le]
      exact (safe.trans_lt small).trans_le large
    rw [if_neg bounded]
    congr 1
    split
    · rename_i negative
      rw [← Int.cast_natCast, ← Int.cast_neg]
      congr 1
      omega
    · rename_i nonnegative
      rw [← Int.cast_natCast]
      congr 1
      omega

/-- The text of a safe integer: its decimal digits, after a sign if it is negative. -/
theorem text_safe {i : Int} (safe : i.natAbs ≤ maxSafe) : (finite i).text =
    String.ofList (if i < 0 then '-' :: Nat.toDigits 10 i.natAbs else Nat.toDigits 10 i.natAbs) := by
  have own : positiveText (i : Rat) = Nat.toDigits 10 i.natAbs := by
    simp [positiveText, safe]
  have negated : positiveText (-(i : Rat)) = Nat.toDigits 10 i.natAbs := by
    simp [positiveText, safe]
  have sign : (i : Rat) < 0 ↔ i < 0 := by
    rw [← Int.cast_zero, Int.cast_lt]
  simp only [text, own, negated]
  split <;> split <;> simp_all

/-- Numbers of documents that their texts tell apart. -/
structure Legible (S : Number → Prop) : Prop where
  finite : ∀ n, S n → n.isFinite = true
  filled : ∀ n, S n → n.text ≠ ""
  apart : ∀ m n, S m → S n → m.text = n.text → m = n

/-- A safe integer as a number of a document. -/
def IsSafe (n : Number) : Prop := ∃ i : Int, i.natAbs ≤ maxSafe ∧ n = finite i

theorem toDigits_inj {m n : Nat} (same : Nat.toDigits 10 m = Nat.toDigits 10 n) : m = n := by
  have read := congrArg (fun digits => Nat.ofDigitChars 10 digits 0) same
  simpa only [Nat.ofDigitChars_ten_toDigits] using read

theorem minus_not_mem (n : Nat) : '-' ∉ Nat.toDigits 10 n := by
  intro member
  have digit := Nat.isDigit_of_mem_toDigits (by decide) (by decide) member
  exact absurd digit (by decide)

/-- Safe integers with the same text are the same. -/
theorem text_safe_inj {i j : Int} (left : i.natAbs ≤ maxSafe) (right : j.natAbs ≤ maxSafe)
    (same : (finite i).text = (finite j).text) : i = j := by
  rw [text_safe left, text_safe right, String.ofList_inj] at same
  split_ifs at same with negative other other
  · have sizes := toDigits_inj (List.cons.inj same).2
    omega
  · exact absurd (same ▸ List.mem_cons_self) (minus_not_mem j.natAbs)
  · exact absurd (same ▸ List.mem_cons_self) (minus_not_mem i.natAbs)
  · have sizes := toDigits_inj same
    omega

/-- Safe integers are told apart by their texts. -/
theorem legible_safe : Legible IsSafe where
  finite := by
    rintro _ ⟨i, _, rfl⟩
    rfl
  filled := by
    rintro _ ⟨i, safe, rfl⟩
    rw [text_safe safe, ne_eq, String.ofList_eq_empty_iff]
    split
    · exact List.cons_ne_nil _ _
    · exact Nat.toDigits_ne_nil
  apart := by
    rintro _ _ ⟨i, left, rfl⟩ ⟨j, right, rfl⟩ same
    rw [text_safe_inj left right same]

end RoutePolicy.Number
