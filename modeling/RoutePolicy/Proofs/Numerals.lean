import Mathlib.Algebra.Order.Floor.Semifield
import RoutePolicy.Json.Reader
import RoutePolicy.Proofs.Rounding

/-!
The text of a number reads back as the number. Seventeen digits are enough, since neighbours on a
grid of seventeen digits are nearer to each other than numbers of 53 bits.
-/

set_option autoImplicit false

namespace RoutePolicy.Number

/-! ### Decimal digits -/

theorem digitsValue_eq (cs : List Char) : Text.digitsValue cs = Nat.ofDigitChars 10 cs 0 := rfl

/-- The place of the leading digit. -/
theorem log_natCast {n : Nat} (positive : n ≠ 0) :
    Int.log 10 (n : Rat) = (Nat.toDigits 10 n).length - 1 := by
  have own : (0 : Rat) < n := Nat.cast_pos.mpr (Nat.pos_of_ne_zero positive)
  have upper : n < 10 ^ (Nat.toDigits 10 n).length :=
    (Nat.length_toDigits_le_iff (by decide) Nat.length_toDigits_pos).mp le_rfl
  have lower : 10 ^ ((Nat.toDigits 10 n).length - 1) ≤ n := by
    rcases Nat.eq_zero_or_pos ((Nat.toDigits 10 n).length - 1) with none | more
    · rw [none]
      exact Nat.one_le_iff_ne_zero.mpr positive
    · have longer := mt (Nat.length_toDigits_le_iff (n := n) (by decide : 1 < 10) more).mpr
      have filled : 0 < (Nat.toDigits 10 n).length := Nat.length_toDigits_pos
      omega
  have length : 1 ≤ (Nat.toDigits 10 n).length := Nat.length_toDigits_pos
  obtain ⟨k, same⟩ := Nat.exists_eq_add_of_le length
  rw [same, Nat.add_sub_cancel_left] at lower
  rw [same, Nat.add_comm] at upper
  rw [same]
  refine log_eq (by decide) own ?_ ?_
  · push_cast
    rw [add_sub_cancel_left, zpow_natCast]
    exact_mod_cast lower
  · push_cast
    rw [add_sub_cancel_left, ← Nat.cast_one, ← Nat.cast_add, zpow_natCast]
    exact_mod_cast upper

theorem digitChar_ne_zero : ∀ d < 10, d ≠ 0 → Nat.digitChar d ≠ '0' := by decide

/-- The digits of a positive number start with no zero. -/
theorem head_toDigits {n : Nat} : n ≠ 0 → (Nat.toDigits 10 n).head? ≠ some '0' := by
  induction n using Nat.strongRecOn with
  | ind n ih =>
    intro positive
    rw [Nat.toDigits_eq_if (by decide)]
    split
    · rename_i small
      exact fun same => digitChar_ne_zero n small positive (Option.some.inj same)
    · rename_i large
      have first := ih (n / 10) (by omega) (by omega)
      rwa [List.head?_append_of_ne_nil _ Nat.toDigits_ne_nil]

/-! ### The point -/

theorem floor_mul {q : Rat} (positive : 0 < q) (k : Nat) :
    q.num.natAbs * k / q.den = ⌊q * k⌋₊ := by
  rw [← Nat.floor_div_eq_div (K := Rat)]
  congr 1
  push_cast
  rw [mul_div_right_comm, num_div_den positive]

theorem log_mul_pow {q : Rat} (positive : 0 < q) (k : Nat) :
    Int.log 10 (q * 10 ^ k) = Int.log 10 q + k := by
  have ten : (10 : Rat) ≠ 0 := by norm_num
  have lower := Int.zpow_log_le_self (b := 10) (by decide) positive
  have upper := Int.lt_zpow_succ_log_self (b := 10) (by decide) q
  push_cast at lower upper
  refine log_eq (by decide) (by positivity) ?_ ?_
  · push_cast
    rw [zpow_add₀ ten, zpow_natCast]
    gcongr
  · push_cast
    rw [add_right_comm, zpow_add₀ ten, zpow_natCast]
    gcongr

theorem decimalPoint_eq {q : Rat} (positive : 0 < q) (large : 1 ≤ q * 10 ^ 340) :
    decimalPoint q = Int.log 10 q + 1 := by
  have whole : q.num.natAbs * Nat.pow 10 340 / q.den = ⌊q * 10 ^ 340⌋₊ := by
    have floor := floor_mul positive (Nat.pow 10 340)
    rwa [Nat.pow_eq, Nat.cast_pow, Nat.cast_ofNat] at floor
  have some : ⌊q * 10 ^ 340⌋₊ ≠ 0 := (Nat.floor_pos.mpr large).ne'
  have length := log_natCast some
  rw [Int.log_natCast, ← Int.log_of_one_le_right 10 large, log_mul_pow positive] at length
  unfold decimalPoint
  rw [whole]
  push_cast at length
  omega

/-! ### The search -/

variable {q : Rat} {point : Int}

/-- The neighbours on a grid are the points just below and just above the number. -/
theorem gridNeighbours_spec (positive : 0 < q) (exponent : Int) :
    ∃ below : Nat, (below : Rat) * 10 ^ exponent ≤ q ∧ q < (below + 1) * 10 ^ exponent ∧
      ∀ c, c ∈ gridNeighbours q exponent ↔ c = below ∨ c = below + 1 := by
  have step : (0 : Rat) < 10 ^ exponent := by positivity
  have grid : q * scaled 1 10 (-exponent) = q / 10 ^ exponent := by
    rw [scaled_eq 1 (by decide), zpow_neg, Nat.cast_one, one_mul, div_eq_mul_inv]
    rfl
  have nonnegative : 0 ≤ q / 10 ^ exponent := (div_pos positive step).le
  have lower : ((q / 10 ^ exponent).floor.toNat : Rat) ≤ q / 10 ^ exponent :=
    Nat.floor_le nonnegative
  have upper : q / 10 ^ exponent < (q / 10 ^ exponent).floor.toNat + 1 := Nat.lt_floor_add_one _
  refine ⟨(q / 10 ^ exponent).floor.toNat, (le_div_iff₀ step).mp lower, (div_lt_iff₀ step).mp upper, ?_⟩
  intro c
  unfold gridNeighbours
  dsimp only
  rw [grid]
  split
  · simp
  · simp [or_comm]

/-- On a grid of seventeen digits, one of the neighbours is rounded to the number. -/
theorem seventeen_digits (positive : 0 < q) (kept : round q = .finite q) :
    ∃ c ∈ gridNeighbours q (Int.log 10 q + 1 - 17),
      round (c * 10 ^ (Int.log 10 q + 1 - 17)) = .finite q := by
  obtain ⟨below, lower, upper, mem⟩ := gridNeighbours_spec positive (Int.log 10 q + 1 - 17)
  have step : (0 : Rat) < 10 ^ (Int.log 10 q + 1 - 17) := by positivity
  have digits : (10 : Rat) ^ (Int.log 10 q + 1 - 17) * 10 ^ (16 : Nat) ≤ q := by
    have exponents : Int.log 10 q + 1 - 17 + (16 : Nat) = Int.log 10 q := by omega
    have least := Int.zpow_log_le_self (b := 10) (by decide) positive
    rw [← zpow_natCast, ← zpow_add₀ (by norm_num), exponents]
    exact_mod_cast least
  -- Half a step is below `10 ^ -16 / 2` of the number, and that is below `2 ^ -54` of it.
  by_cases half : q - below * 10 ^ (Int.log 10 q + 1 - 17) ≤ 10 ^ (Int.log 10 q + 1 - 17) / 2
  · refine ⟨below, (mem _).mpr (.inl rfl), round_near positive kept ?_⟩
    rw [abs_sub_comm, abs_of_nonneg (by linarith)]
    linarith
  · refine ⟨below + 1, (mem _).mpr (.inr rfl), round_near positive kept ?_⟩
    push_cast
    rw [abs_of_nonneg (by linarith)]
    linarith

/-- What the search has found: a decimal that is rounded to the number, of its order of size. -/
structure Found (q : Rat) (decimal : Nat × Int) : Prop where
  reads : round (decimal.1 * 10 ^ decimal.2) = .finite q
  upper : decimal.1 * (10 : Rat) ^ decimal.2 ≤ 2 * q
  lower : q ≤ 10 ^ (17 : Nat) * (10 : Rat) ^ decimal.2

/-- The search stops at seventeen digits at the latest. -/
theorem shortestFrom_found (positive : 0 < q) (kept : round q = .finite q) :
    ∀ fuel count : Nat, 1 ≤ count → count ≤ 17 → 17 < count + fuel →
      Found q (shortestFrom q (Int.log 10 q + 1) count fuel) := by
  intro fuel
  induction fuel with
  | zero =>
    intro count _ most less
    omega
  | succ fuel ih =>
    intro count least most less
    rw [shortestFrom]
    split
    · rename_i c found
      obtain ⟨below, lower, upper, mem⟩ := gridNeighbours_spec positive (Int.log 10 q + 1 - count)
      have reads := List.find?_some found
      rw [decide_eq_true_eq] at reads
      rw [scaled_eq c (by decide)] at reads
      have leading := Int.zpow_log_le_self (b := 10) (by decide) positive
      have trailing := Int.lt_zpow_succ_log_self (b := 10) (by decide) q
      push_cast at leading trailing
      have step : (10 : Rat) ^ (Int.log 10 q + 1 - count) ≤ q :=
        (zpow_le_zpow_right₀ (by norm_num) (by omega)).trans leading
      refine ⟨by exact_mod_cast reads, ?_, ?_⟩
      · have next : (c : Rat) ≤ below + 1 := by
          rcases (mem c).mp (List.mem_of_find?_eq_some found) with rfl | rfl
          · linarith
          · push_cast
            rfl
        have times := mul_le_mul_of_nonneg_right next
          (by positivity : (0 : Rat) ≤ 10 ^ (Int.log 10 q + 1 - count))
        dsimp only
        linarith
      · refine trailing.le.trans ?_
        dsimp only
        rw [← zpow_natCast, ← zpow_add₀ (by norm_num)]
        exact zpow_le_zpow_right₀ (by norm_num) (by omega)
    · rename_i none
      rcases Nat.lt_or_ge count 17 with more | last
      · exact ih (count + 1) (by omega) more (by omega)
      · obtain rfl : count = 17 := by omega
        obtain ⟨c, member, reads⟩ := seventeen_digits positive kept
        have refused := List.find?_eq_none.mp none c member
        rw [scaled_eq c (by decide)] at refused
        exact absurd (decide_eq_true (by exact_mod_cast reads)) refused

/-! ### Digits -/

namespace Digits

/-- The number that digits and a point stand for. -/
def value (d : Digits) : Rat :=
  Nat.ofDigitChars 10 d.digits 0 * 10 ^ (d.point - d.digits.length)

/-- There are digits, and the first is no zero. -/
structure Proper (d : Digits) : Prop where
  digits : ∀ c ∈ d.digits, c.isDigit = true
  filled : d.digits ≠ []
  first : d.digits.head? ≠ some '0'

/-- Zeros at the end of a numeral, set apart. -/
theorem strip_append (cs : List Char) :
    ∃ zeros, (cs.reverse.dropWhile (· = '0')).reverse ++ List.replicate zeros '0' = cs := by
  have leading : ∀ ds : List Char, ∃ zeros, List.replicate zeros '0' ++ ds.dropWhile (· = '0') = ds := by
    intro ds
    induction ds with
    | nil => exact ⟨0, rfl⟩
    | cons d rest ih =>
      by_cases zero : d = '0'
      · subst zero
        obtain ⟨zeros, same⟩ := ih
        exact ⟨zeros + 1, by rw [List.replicate_succ, List.cons_append, List.dropWhile_cons_of_pos rfl, same]⟩
      · exact ⟨0, by rw [List.dropWhile_cons_of_neg (by simpa using zero)]; rfl⟩
  obtain ⟨zeros, same⟩ := leading cs.reverse
  refine ⟨zeros, ?_⟩
  rw [← List.reverse_inj, List.reverse_append, List.reverse_reverse, List.reverse_replicate, same]

theorem ofDecimal_spec {c : Nat} (positive : c ≠ 0) (exponent : Int) :
    (ofDecimal (c, exponent)).Proper ∧ (ofDecimal (c, exponent)).value = c * 10 ^ exponent := by
  obtain ⟨zeros, parts⟩ := strip_append (Nat.toDigits 10 c)
  unfold ofDecimal
  dsimp only
  generalize ((Nat.toDigits 10 c).reverse.dropWhile (· = '0')).reverse = digits at parts ⊢
  have first := head_toDigits positive
  have value : Nat.ofDigitChars 10 (Nat.toDigits 10 c) 0 = c := Nat.ofDigitChars_ten_toDigits
  have all : ∀ d ∈ Nat.toDigits 10 c, d.isDigit = true :=
    fun d member => Nat.isDigit_of_mem_toDigits (by decide) (by decide) member
  rw [← parts] at first value all ⊢
  have filled : digits ≠ [] := by
    rintro rfl
    cases zeros with
    | zero => simp at value; omega
    | succ zeros => exact first rfl
  refine ⟨⟨fun d member => all d (List.mem_append_left _ member), filled, ?_⟩, ?_⟩
  · rwa [List.head?_append_of_ne_nil _ filled] at first
  · have shift : (10 : Rat) ^ (exponent + zeros) = 10 ^ exponent * 10 ^ zeros := by
      rw [zpow_add₀ (by norm_num), zpow_natCast]
    rw [Nat.ofDigitChars_append, Nat.ofDigitChars_replicate_zero] at value
    have power : exponent + (digits ++ List.replicate zeros '0').length - digits.length =
        exponent + zeros := by
      rw [List.length_append, List.length_replicate]
      push_cast
      ring
    rw [Digits.value, power, shift, ← value]
    push_cast
    ring

end Digits

/-! ### Reading -/

/-- What ends a numeral: nothing that could continue it. -/
def Closes (rest : List Char) : Prop :=
  ∀ c ∈ rest.head?, c.isDigit = false ∧ c ≠ '.' ∧ c ≠ 'e' ∧ c ≠ 'E'

theorem isDigit_eq : Text.isDigit = Char.isDigit := by
  funext c
  simp [Text.isDigit, Char.isDigit, Char.le_def]

theorem readDigits_append {digits tail : List Char} (all : ∀ c ∈ digits, c.isDigit = true)
    (ends : ∀ c ∈ tail.head?, c.isDigit = false) :
    Json.readDigits (digits ++ tail) = (digits, tail) := by
  have none : tail.takeWhile Char.isDigit = [] ∧ tail.dropWhile Char.isDigit = tail := by
    cases tail with
    | nil => exact ⟨rfl, rfl⟩
    | cons c rest =>
      have other : ¬c.isDigit = true := by simpa using ends c rfl
      exact ⟨List.takeWhile_cons_of_neg other, List.dropWhile_cons_of_neg other⟩
  unfold Json.readDigits
  rw [isDigit_eq, List.takeWhile_append_of_pos all, List.dropWhile_append_of_pos all, none.1, none.2,
    List.append_nil]

/-- A numeral after its sign. -/
def signed (negative : Bool) (cs : List Char) : List Char := if negative then '-' :: cs else cs

variable {whole fraction tail after rest : List Char} {exponent : Int}

/-- A numeral reads as its digits and exponent say. -/
theorem readNumber_parts (negative : Bool) (whole tail : List Char) (digits : ∀ c ∈ whole, c.isDigit = true)
    (filled : whole ≠ []) (leading : whole.head? = some '0' → whole = ['0'])
    (ends : ∀ c ∈ tail.head?, c.isDigit = false)
    (fractionRead : Json.readFraction tail = some (fraction, after))
    (exponentRead : Json.readExponent after = some (exponent, rest)) :
    Json.readNumber (signed negative (whole ++ tail)) =
      some (ofScientific negative (Nat.ofDigitChars 10 (whole ++ fraction) 0)
        (exponent - fraction.length), rest) := by
  have accepted : ¬(whole.isEmpty = true ∨ (whole.head? = some '0' ∧ whole ≠ ['0'])) := by
    rintro (empty | ⟨zero, longer⟩)
    · exact filled (List.isEmpty_iff.mp empty)
    · exact longer (leading zero)
  cases negative with
  | true =>
    simp only [Json.readNumber, signed, if_true, readDigits_append digits ends, if_neg accepted,
      fractionRead, exponentRead, digitsValue_eq, Option.bind_eq_bind, Option.bind_some]
    rfl
  | false =>
    obtain ⟨first, more, rfl⟩ := List.exists_cons_of_ne_nil filled
    have unsigned : first ≠ '-' := by
      rintro rfl
      exact absurd (digits '-' List.mem_cons_self) (by decide)
    have parts := readDigits_append digits ends
    rw [List.cons_append] at parts
    simp only [Json.readNumber, signed, Bool.false_eq_true, if_false, List.cons_append]
    split
    · rename_i dash
      exact absurd (List.cons.inj dash).1 unsigned
    · simp only [parts, if_neg accepted, fractionRead, exponentRead, digitsValue_eq,
        Option.bind_eq_bind, Option.bind_some]
      rfl

theorem Closes.digits (closes : Closes rest) : ∀ c ∈ rest.head?, c.isDigit = false :=
  fun c first => (closes c first).1

theorem readFraction_closed (closes : ∀ c ∈ tail.head?, c ≠ '.') :
    Json.readFraction tail = some ([], tail) := by
  unfold Json.readFraction
  split
  · exact absurd rfl (closes '.' rfl)
  · rfl

theorem readFraction_point (fraction tail : List Char)
    (digits : ∀ c ∈ fraction, c.isDigit = true) (filled : fraction ≠ []) (ends : ∀ c ∈ tail.head?, c.isDigit = false) :
    Json.readFraction ('.' :: (fraction ++ tail)) = some (fraction, tail) := by
  unfold Json.readFraction
  simp only [readDigits_append digits ends]
  rw [if_neg (by simpa using filled)]

theorem readExponent_closed (closes : Closes rest) : Json.readExponent rest = some (0, rest) := by
  unfold Json.readExponent
  split
  · rename_i c more
    obtain ⟨-, -, small, capital⟩ := closes c rfl
    rw [if_neg (by simp [small, capital])]
  · rfl

theorem readExponent_mark (exponent : Int) (closes : Closes rest) :
    Json.readExponent ('e' :: (if exponent < 0 then '-' else '+') ::
      (Nat.toDigits 10 exponent.natAbs ++ rest)) = some (exponent, rest) := by
  have digits : ∀ c ∈ Nat.toDigits 10 exponent.natAbs, c.isDigit = true :=
    fun c member => Nat.isDigit_of_mem_toDigits (by decide) (by decide) member
  have filled : ¬(Nat.toDigits 10 exponent.natAbs).isEmpty = true := by simp
  unfold Json.readExponent
  by_cases negative : exponent < 0
  · simp only [negative, if_true, true_or, readDigits_append digits closes.digits, if_neg filled,
      digitsValue_eq, Nat.ofDigitChars_ten_toDigits]
    congr 2
    omega
  · simp only [negative, if_false, if_true, true_or, readDigits_append digits closes.digits,
      if_neg filled, digitsValue_eq, Nat.ofDigitChars_ten_toDigits, Bool.false_eq_true]
    congr 2
    omega

/-- What a text reads as: a decimal of a given value. -/
def Reads (negative : Bool) (cs : List Char) (value : Rat) (rest : List Char) : Prop :=
  ∃ (coefficient : Nat) (exponent : Int), coefficient * (10 : Rat) ^ exponent = value ∧
    Json.readNumber (signed negative cs) = some (ofScientific negative coefficient exponent, rest)

/-- The value of a decimal written with a point. -/
theorem reads_parts (negative : Bool) (whole tail : List Char)
    (digits : ∀ c ∈ whole, c.isDigit = true) (filled : whole ≠ []) (leading : whole.head? = some '0' → whole = ['0']) (ends : ∀ c ∈ tail.head?, c.isDigit = false)
    (fractionRead : Json.readFraction tail = some (fraction, after))
    (exponentRead : Json.readExponent after = some (exponent, rest)) :
    Reads negative (whole ++ tail)
      (Nat.ofDigitChars 10 (whole ++ fraction) 0 * 10 ^ (exponent - fraction.length)) rest :=
  ⟨_, _, rfl, readNumber_parts negative _ _ digits filled leading ends fractionRead exponentRead⟩

section

variable {d : Digits} (proper : d.Proper) (negative : Bool) (closes : Closes rest)

include proper closes

/-- All digits before the point, and zeros up to it. -/
theorem reads_whole (zeros : Nat) (place : d.point = d.digits.length + zeros) :
    Reads negative (d.digits ++ List.replicate zeros '0' ++ rest) d.value rest := by
  have digits : ∀ c ∈ d.digits ++ List.replicate zeros '0', c.isDigit = true := by
    intro c member
    rcases List.mem_append.mp member with own | zero
    · exact proper.digits c own
    · rw [List.eq_of_mem_replicate zero]
      rfl
  have leading : (d.digits ++ List.replicate zeros '0').head? = some '0' →
      d.digits ++ List.replicate zeros '0' = ['0'] := by
    rw [List.head?_append_of_ne_nil _ proper.filled]
    exact fun zero => absurd zero proper.first
  have read := reads_parts negative _ _ digits (by simp [proper.filled]) leading closes.digits
    (readFraction_closed fun c head => (closes c head).2.1) (readExponent_closed closes)
  convert read using 1
  rw [Digits.value, place, List.append_nil, Nat.ofDigitChars_append, Nat.ofDigitChars_replicate_zero,
    add_sub_cancel_left, zpow_natCast]
  push_cast
  simp [mul_comm]

/-- The point among the digits. -/
theorem reads_pointed {place : Nat} (more : 0 < place) (inside : place < d.digits.length)
    (own : d.point = place) :
    Reads negative (d.digits.take place ++ '.' :: d.digits.drop place ++ rest) d.value rest := by
  have parts := List.take_append_drop place d.digits
  have filled : d.digits.take place ≠ [] := by
    simp [proper.filled]
    omega
  have first : (d.digits.take place).head? ≠ some '0' := by
    have head := proper.first
    rwa [← parts, List.head?_append_of_ne_nil _ filled] at head
  have fraction := readFraction_point _ rest
    (fun c member => proper.digits c (List.mem_of_mem_drop member))
    (by simpa using inside : d.digits.drop place ≠ []) closes.digits
  have read := reads_parts negative _ ('.' :: (d.digits.drop place ++ rest))
    (fun c member => proper.digits c (List.mem_of_mem_take member))
    filled (fun zero => absurd zero first) (fun c point => by cases point; rfl) fraction
    (readExponent_closed closes)
  rw [parts] at read
  rw [List.append_assoc, List.cons_append]
  convert read using 1
  rw [Digits.value, own, List.length_drop]
  congr 2
  omega

/-- Zeros between the point and the digits. -/
theorem reads_small (zeros : Nat) (place : d.point = -zeros) :
    Reads negative ('0' :: '.' :: List.replicate zeros '0' ++ d.digits ++ rest) d.value rest := by
  have digits : ∀ c ∈ List.replicate zeros '0' ++ d.digits, c.isDigit = true := by
    intro c member
    rcases List.mem_append.mp member with zero | own
    · rw [List.eq_of_mem_replicate zero]
      rfl
    · exact proper.digits c own
  have fraction := readFraction_point _ rest digits (by simp [proper.filled]) closes.digits
  have read := reads_parts negative ['0']
    ('.' :: (List.replicate zeros '0' ++ d.digits ++ rest))
    (by simp) (by simp) (fun _ => rfl) (fun c point => by cases point; rfl) fraction
    (readExponent_closed closes)
  have power : d.point - d.digits.length = 0 - ((List.replicate zeros '0' ++ d.digits).length : Int) := by
    rw [List.length_append, List.length_replicate, place]
    push_cast
    ring
  have zero : Nat.ofDigitChars 10 ['0'] 0 = 0 := rfl
  convert read using 1
  · simp
  · rw [Digits.value, power, Nat.ofDigitChars_append, Nat.ofDigitChars_append, zero,
      Nat.ofDigitChars_replicate_zero, Nat.mul_zero]

/-- One digit before the point, and an exponent. -/
theorem reads_exponential :
    Reads negative ((match d.digits with
      | [] => []
      | [c] => [c]
      | c :: rest => c :: '.' :: rest) ++
      'e' :: (if d.point - 1 < 0 then '-' else '+') :: Nat.toDigits 10 (d.point - 1).natAbs ++ rest)
      d.value rest := by
  obtain ⟨first, others, same⟩ := List.exists_cons_of_ne_nil proper.filled
  have exponent := readExponent_mark (d.point - 1) closes
  have head : ([first] : List Char).head? = some '0' → [first] = ['0'] := by
    intro zero
    cases zero
    rfl
  have digits := proper.digits
  rw [same] at digits ⊢
  obtain ⟨here, later⟩ := List.forall_mem_cons.mp digits
  have single : ∀ c ∈ [first], c.isDigit = true := by simpa using here
  cases others with
  | nil =>
    have read := reads_parts negative _ _ single (List.cons_ne_nil _ _) head
      (fun c mark => by cases mark; rfl) (readFraction_closed fun c mark => by cases mark; decide) exponent
    convert read using 1
    · simp
    · rw [Digits.value, same]
      congr 2
      simp
  | cons second others =>
    have fraction := readFraction_point _ ('e' :: (if d.point - 1 < 0 then '-' else '+') ::
      (Nat.toDigits 10 (d.point - 1).natAbs ++ rest)) later (List.cons_ne_nil _ _)
      (fun c mark => by cases mark; rfl)
    have read := reads_parts negative _ _ single (List.cons_ne_nil _ _) head
      (fun c mark => by cases mark; rfl) fraction exponent
    convert read using 1
    · simp
    · rw [Digits.value, same]
      congr 2
      simp
      ring

end

/-- Written digits read as their value, in every layout. -/
theorem reads_layout {d : Digits} (proper : d.Proper) (negative : Bool) (closes : Closes rest) :
    Reads negative (d.layout ++ rest) d.value rest := by
  have one : 1 ≤ d.digits.length := List.length_pos_iff.mpr proper.filled
  unfold Digits.layout
  dsimp only
  split
  · exact reads_whole proper negative closes _ (by omega)
  split
  · exact reads_pointed proper negative closes (by omega) (by omega) (by omega)
  split
  · exact reads_small proper negative closes _ (by omega)
  · exact reads_exponential proper negative closes

/-! ### Round trip -/

/-- A decimal that is not far outside the range is rounded, whatever its digits and exponent. -/
theorem ofScientific_eq {coefficient : Nat} {exponent : Int} {value : Rat} (negative : Bool)
    (own : coefficient * (10 : Rat) ^ exponent = value) (lower : (10 : Rat) ^ (-400 : Int) ≤ value)
    (upper : value < 10 ^ (400 : Int)) :
    ofScientific negative coefficient exponent = round (if negative then -value else value) := by
  have step : (0 : Rat) < 10 ^ exponent := by positivity
  have positive : coefficient ≠ 0 := by
    rintro rfl
    have least : (0 : Rat) < 10 ^ (-400 : Int) := by positivity
    rw [Nat.cast_zero, zero_mul] at own
    linarith
  have large : (1 : Rat) < 10 := by norm_num
  have leading := Int.zpow_log_le_self (b := 10) (by decide)
    (Nat.cast_pos.mpr (Nat.pos_of_ne_zero positive) : (0 : Rat) < coefficient)
  have trailing := Int.lt_zpow_succ_log_self (b := 10) (by decide) (coefficient : Rat)
  rw [log_natCast positive] at leading trailing
  push_cast at leading trailing
  have least : (10 : Rat) ^ ((Nat.toDigits 10 coefficient).length - 1 + exponent : Int) ≤ value := by
    rw [zpow_add₀ (by norm_num), ← own]
    gcongr
  have most : value < (10 : Rat) ^ ((Nat.toDigits 10 coefficient).length + exponent : Int) := by
    rw [sub_add_cancel] at trailing
    rw [zpow_add₀ (by norm_num), ← own]
    gcongr
  have below := (zpow_lt_zpow_iff_right₀ large).mp (least.trans_lt upper)
  have above := (zpow_lt_zpow_iff_right₀ large).mp (lower.trans_lt most)
  unfold ofScientific
  rw [if_neg positive]
  dsimp only
  rw [if_neg (by omega), if_neg (by omega), scaled_eq _ (by decide)]
  push_cast
  rw [own]

/-- Powers of ten with whole exponents, as numbers. -/
theorem zpow_ten (n : Nat) : (10 : Rat) ^ (n : Int) = ((10 ^ n : Nat) : Rat) := by
  rw [zpow_natCast, Nat.cast_pow, Nat.cast_ofNat]

theorem zpow_two (n : Nat) : (2 : Rat) ^ (n : Int) = ((2 ^ n : Nat) : Rat) := by
  rw [zpow_natCast, Nat.cast_pow, Nat.cast_ofNat]

/-- The decimal range of finite numbers. -/
theorem decimal_bounds (positive : 0 < q) (kept : round q = .finite q) :
    (10 : Rat) ^ (-(324 : Nat) : Int) ≤ q ∧ q < 10 ^ ((309 : Nat) : Int) := by
  obtain ⟨least, limit⟩ := double_bounds positive kept
  constructor
  · refine le_trans ?_ least
    have unit : (-1074 : Int) = -(1074 : Nat) := rfl
    have small : 2 ^ 1074 ≤ 10 ^ 324 := by decide +kernel
    rw [unit, zpow_neg, zpow_neg, zpow_ten, zpow_two]
    exact inv_anti₀ (Nat.cast_pos.mpr (Nat.two_pow_pos 1074)) (Nat.cast_le.mpr small)
  · have large : 1 <<< 1024 ≤ 10 ^ 309 := by decide +kernel
    rw [zpow_ten]
    exact limit.trans_le (Nat.cast_le.mpr large)

theorem round_signed {value : Rat} (same : round value = round q) (negative : Bool) :
    round (if negative then -value else value) = round (if negative then -q else q) := by
  cases negative with
  | true => simp only [if_true, round_neg, same]
  | false => exact same

/-- Positive numbers read as what they are. -/
theorem reads_positiveText (positive : 0 < q) (kept : round q = .finite q) (negative : Bool)
    (closes : Closes rest) :
    Json.readNumber (signed negative (positiveText q ++ rest)) =
      some (round (if negative then -q else q), rest) := by
  obtain ⟨least, limit⟩ := decimal_bounds positive kept
  unfold positiveText
  split
  · rename_i safe
    have own : (q.num.natAbs : Rat) = q := by
      have parts := num_div_den positive
      rwa [safe.1, Nat.cast_one, div_one] at parts
    have some : q.num.natAbs ≠ 0 := by
      have top := Rat.num_pos.mpr positive
      omega
    obtain ⟨coefficient, exponent, value, read⟩ := reads_parts negative
      (Nat.toDigits 10 q.num.natAbs) rest
      (fun c member => Nat.isDigit_of_mem_toDigits (by decide) (by decide) member) Nat.toDigits_ne_nil
      (fun zero => absurd zero (head_toDigits some)) closes.digits
      (readFraction_closed fun c head => (closes c head).2.1) (readExponent_closed closes)
    have power : (10 : Rat) ^ (0 - (([] : List Char).length : Int)) = 1 := rfl
    rw [List.append_nil, Nat.ofDigitChars_ten_toDigits, own, power, mul_one] at value
    rw [read, ofScientific_eq negative value]
    · exact (zpow_le_zpow_right₀ (by norm_num) (by decide)).trans least
    · exact limit.trans_le (zpow_le_zpow_right₀ (by norm_num) (by decide))
  · have large : 1 ≤ q * 10 ^ 340 := by
      calc (1 : Rat) ≤ 10 ^ (-(324 : Nat) + (340 : Nat) : Int) := one_le_zpow₀ (by norm_num) (by decide)
        _ = 10 ^ (-(324 : Nat) : Int) * 10 ^ 340 := by rw [zpow_add₀ (by norm_num), zpow_natCast]
        _ ≤ q * 10 ^ 340 := by gcongr
    have search := shortestFrom_found positive kept 17 1 le_rfl (by decide) (by decide)
    unfold shortest
    rw [decimalPoint_eq positive large]
    generalize shortestFrom q (Int.log 10 q + 1) 1 17 = decimal at search ⊢
    obtain ⟨c, e⟩ := decimal
    obtain ⟨reads, upper, lower⟩ := search
    dsimp only at reads upper lower
    have some : c ≠ 0 := by
      rintro rfl
      rw [Nat.cast_zero, zero_mul] at reads
      have zero : 0 = q := Number.finite.inj reads
      exact absurd zero positive.ne
    obtain ⟨proper, value⟩ := Digits.ofDecimal_spec some e
    obtain ⟨coefficient, exponent, same, read⟩ := reads_layout proper negative closes
    rw [value] at same
    rw [read, ofScientific_eq negative same, round_signed (reads.trans kept.symm)]
    · have one : (1 : Rat) ≤ c := by exact_mod_cast Nat.one_le_iff_ne_zero.mpr some
      have step : (10 : Rat) ^ e ≤ c * 10 ^ e := le_mul_of_one_le_left (by positivity) one
      have digits : (10 : Rat) ^ (-400 : Int) * 10 ^ (17 : Nat) ≤ 10 ^ (-(324 : Nat) : Int) := by
        rw [← zpow_natCast, ← zpow_add₀ (by norm_num)]
        exact zpow_le_zpow_right₀ (by norm_num) (by decide)
      linarith
    · have filled : (0 : Rat) < 10 ^ ((309 : Nat) : Int) := by positivity
      have ten : (10 : Rat) ^ ((309 : Nat) : Int) * 10 ≤ 10 ^ (400 : Int) := by
        rw [← zpow_add_one₀ (by norm_num)]
        exact zpow_le_zpow_right₀ (by norm_num) (by decide)
      generalize (10 : Rat) ^ ((309 : Nat) : Int) = most at limit filled ten
      refine lt_of_lt_of_le ?_ ten
      linarith

/-- The text of a finite number of binary64 reads back as the number. -/
theorem readNumber_text {n : Number} (double : IsDouble n) (closes : Closes rest) :
    Json.readNumber (n.text.toList ++ rest) = some (n, rest) := by
  obtain ⟨q, rfl, kept⟩ := double
  rcases lt_trichotomy q 0 with negative | rfl | positive
  · have opposite : round (-q) = .finite (-q) := by rw [round_neg, kept, neg]
    have read := reads_positiveText (by linarith) opposite true closes
    rw [neg_neg] at read
    simpa [text, Rat.num_neg.mpr negative, signed, kept] using read
  · have digits : positiveText 0 = ['0'] := rfl
    have read := readNumber_parts false ['0'] rest (by simp) (List.cons_ne_nil _ _)
      (fun _ => rfl) closes.digits (readFraction_closed fun c head => (closes c head).2.1)
      (readExponent_closed closes)
    have none : Nat.ofDigitChars 10 (['0'] ++ []) 0 = 0 := rfl
    rw [none] at read
    simpa [text, digits, signed, ofScientific] using read
  · have read := reads_positiveText positive kept false closes
    have sign : ¬q.num < 0 := by
      have top := Rat.num_pos.mpr positive
      omega
    simpa [text, sign, signed, kept] using read

theorem closes_nil : Closes [] := by
  intro c impossible
  cases impossible

/-- The finite numbers of binary64 are told apart by their texts. -/
theorem legible_double : Legible IsDouble where
  finite := by
    rintro _ ⟨q, rfl, -⟩
    rfl
  filled := by
    intro n double empty
    have read := readNumber_text double closes_nil
    rw [empty] at read
    cases read
  apart := by
    intro m n left right same
    have read := readNumber_text left closes_nil
    rw [same, readNumber_text right closes_nil] at read
    cases read
    rfl

end RoutePolicy.Number
