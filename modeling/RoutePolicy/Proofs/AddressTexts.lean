import Mathlib.Algebra.Order.Ring.Nat
import RoutePolicy.Ipv4.Network

/-!
What the texts of addresses, networks, ranges and communities look like. Each form says what
stands where in the text and which value it has, without the readers; the readers accept exactly
these forms and find these values.
-/

set_option autoImplicit false

namespace RoutePolicy

/-! ### Pieces of texts -/

namespace Text

variable {sep : Char} {cs a b : List Char}

/-- The text is cut at the first separator. -/
theorem cut_eq_some : cut sep cs = some (a, b) ↔ cs = a ++ sep :: b ∧ sep ∉ a := by
  induction cs generalizing a with
  | nil => simp [cut]
  | cons c rest ih =>
      rw [cut]
      split
      · rename_i same
        subst same
        cases a with
        | nil => simp
        | cons d a =>
            constructor
            · intro same
              cases same
            · rintro ⟨whole, fresh⟩
              cases whole
              exact absurd List.mem_cons_self fresh
      · rename_i apart
        cases a with
        | nil => simp [apart]
        | cons d a =>
            have inner : (cut sep rest).map (fun pair => (c :: pair.1, pair.2)) = some (d :: a, b) ↔
                c = d ∧ cut sep rest = some (a, b) := by
              cases cut sep rest with
              | none => simp
              | some pair => simp [Prod.ext_iff, and_assoc]
            rw [inner, ih, List.cons_append, List.cons.injEq, List.mem_cons, not_or, and_assoc]
            refine and_congr_right fun same => and_congr_right fun _ => ?_
            rw [← same]
            exact (and_iff_right fun equal => apart equal.symm).symm

theorem cut_eq_none : cut sep cs = none ↔ sep ∉ cs := by
  induction cs with
  | nil => simp [cut]
  | cons c rest ih =>
      rw [cut]
      split
      · rename_i same
        simp [same]
      · rename_i apart
        rw [Option.map_eq_none_iff, ih, List.mem_cons, not_or]
        exact (and_iff_right fun equal => apart equal.symm).symm

theorem split_eq_splitOn : split sep cs = cs.splitOn sep := by
  induction cs with
  | nil => rfl
  | cons c rest ih =>
      rw [split, ih, List.splitOn_cons_eq_if_modifyHead]
      by_cases same : c = sep
      · simp [same]
      · rw [if_neg same, if_neg (by simpa using same)]
        obtain ⟨first, others, pieces⟩ := List.exists_cons_of_ne_nil (List.splitOn_ne_nil sep rest)
        rw [pieces, List.modifyHead_cons]

theorem fresh_of_mem_split {piece : List Char} (member : piece ∈ split sep cs) : sep ∉ piece := by
  induction cs generalizing piece with
  | nil =>
      cases List.mem_singleton.mp member
      exact List.not_mem_nil
  | cons c rest ih =>
      rw [split] at member
      split at member
      · rcases List.mem_cons.mp member with rfl | inside
        · exact List.not_mem_nil
        · exact ih inside
      · rename_i apart
        split at member
        · cases List.mem_singleton.mp member
          simpa using Ne.symm apart
        · rename_i first others pieces
          rcases List.mem_cons.mp member with rfl | inside
          · rw [List.mem_cons, not_or]
            exact ⟨Ne.symm apart, ih (pieces ▸ List.mem_cons_self)⟩
          · exact ih (pieces ▸ List.mem_cons_of_mem _ inside)

/-- The pieces are what stands between the separators. -/
theorem split_eq_iff {pieces : List (List Char)} (some : pieces ≠ []) :
    split sep cs = pieces ↔ cs = [sep].intercalate pieces ∧ ∀ piece ∈ pieces, sep ∉ piece := by
  constructor
  · rintro rfl
    refine ⟨?_, fun _ => fresh_of_mem_split⟩
    rw [split_eq_splitOn, List.intercalate_splitOn]
  · rintro ⟨rfl, fresh⟩
    rw [split_eq_splitOn, List.splitOn_intercalate sep fresh some]

/-- What is left of a text when everything up to the last separator is dropped. -/
def Drops (sep : Char) (cs rest : List Char) : Prop :=
  sep ∉ rest ∧ (cs = rest ∨ ∃ before, cs = before ++ sep :: rest)

theorem drops_afterLast (sep : Char) (cs : List Char) : Drops sep cs (afterLast sep cs) := by
  induction cs with
  | nil => exact ⟨List.not_mem_nil, .inl rfl⟩
  | cons c later ih =>
      obtain ⟨fresh, whole⟩ := ih
      rw [afterLast]
      split
      · rename_i inside
        rcases whole with same | ⟨before, same⟩
        · exact absurd (same ▸ inside) fresh
        · exact ⟨fresh, .inr ⟨c :: before, congrArg (c :: ·) same⟩⟩
      · rename_i outside
        split
        · rename_i same
          exact ⟨outside, .inr ⟨[], by rw [same, List.nil_append]⟩⟩
        · rename_i apart
          exact ⟨by simp [outside, Ne.symm apart], .inl rfl⟩

/-- There is one last separator at most: backwards it is the first one. -/
theorem Drops.unique (one : Drops sep cs a) (other : Drops sep cs b) : a = b := by
  obtain ⟨freshA, wholeA⟩ := one
  obtain ⟨freshB, wholeB⟩ := other
  rcases wholeA with rfl | ⟨before, rfl⟩
  · rcases wholeB with same | ⟨before, rfl⟩
    · exact same
    · simp at freshA
  · rcases wholeB with rfl | ⟨before', same⟩
    · simp at freshB
    · have backwards : a.reverse ++ sep :: before.reverse = b.reverse ++ sep :: before'.reverse := by
        simpa using congrArg List.reverse same
      have first : cut sep (a.reverse ++ sep :: before.reverse) = some (a.reverse, before.reverse) :=
        cut_eq_some.mpr ⟨rfl, by simpa using freshA⟩
      have second := cut_eq_some.mpr ⟨backwards, by simpa using freshB⟩
      exact List.reverse_inj.mp (congrArg Prod.fst (Option.some.inj (first.symm.trans second)))

theorem afterLast_eq_iff {rest : List Char} : afterLast sep cs = rest ↔ Drops sep cs rest := by
  constructor
  · rintro rfl
    exact drops_afterLast sep cs
  · exact (drops_afterLast sep cs).unique

/-! ### Decimal numerals -/

/-- A numeral of one to `width` digits whose value is at most `bound`; leading zeros are allowed. -/
structure IsDecimal (width bound : Nat) (cs : List Char) : Prop where
  filled : cs ≠ []
  fits : cs.length ≤ width
  digits : ∀ c ∈ cs, isDigit c = true
  small : digitsValue cs ≤ bound

variable {width bound n : Nat}

theorem numeral?_eq_some : numeral? width cs = some n ↔
    (cs ≠ [] ∧ cs.length ≤ width ∧ ∀ c ∈ cs, isDigit c = true) ∧ digitsValue cs = n := by
  simp [numeral?]

theorem isDecimal_iff : IsDecimal width bound cs ∧ digitsValue cs = n ↔
    numeral? width cs = some n ∧ n ≤ bound := by
  rw [numeral?_eq_some]
  constructor
  · rintro ⟨⟨filled, fits, digits, small⟩, rfl⟩
    exact ⟨⟨⟨filled, fits, digits⟩, rfl⟩, small⟩
  · rintro ⟨⟨⟨filled, fits, digits⟩, rfl⟩, small⟩
    exact ⟨⟨filled, fits, digits, small⟩, rfl⟩

theorem numeral?_filter : (numeral? width cs).filter (· ≤ bound) = some n ↔
    IsDecimal width bound cs ∧ digitsValue cs = n := by
  rw [Option.filter_eq_some_iff, decide_eq_true_eq, isDecimal_iff]

theorem numeral?_any : (numeral? width cs).any (· ≤ bound) = true ↔ IsDecimal width bound cs := by
  simp only [Option.any_eq_true, decide_eq_true_eq, ← isDecimal_iff]
  constructor
  · rintro ⟨_, decimal, -⟩
    exact decimal
  · intro decimal
    exact ⟨_, decimal, rfl⟩

/-- No separator is a digit. -/
theorem IsDecimal.fresh (decimal : IsDecimal width bound cs) (other : isDigit sep = false) :
    sep ∉ cs := by
  intro member
  rw [decimal.digits sep member] at other
  cases other

end Text

open Text

/-! ### Addresses and communities -/

namespace Address

/-- Four groups of one to three digits between points, each at most 255: the text of an address. -/
def Written (cs : List Char) (address : Nat) : Prop :=
  ∃ a b c d, cs = a ++ '.' :: (b ++ '.' :: (c ++ '.' :: d)) ∧
    (IsDecimal 3 255 a ∧ IsDecimal 3 255 b ∧ IsDecimal 3 255 c ∧ IsDecimal 3 255 d) ∧
    ((digitsValue a * 256 + digitsValue b) * 256 + digitsValue c) * 256 + digitsValue d = address

variable {cs : List Char} {address : Nat}

theorem split_groups {a b c d : List Char} : split '.' cs = [a, b, c, d] ↔
    cs = a ++ '.' :: (b ++ '.' :: (c ++ '.' :: d)) ∧ ('.' ∉ a ∧ '.' ∉ b ∧ '.' ∉ c ∧ '.' ∉ d) := by
  rw [split_eq_iff (List.cons_ne_nil _ _)]
  simp [List.intercalate]

theorem ofChars?_eq_some : ofChars? cs = some address ↔ Written cs address := by
  unfold ofChars?
  constructor
  · intro read
    split at read
    · rename_i a b c d groups
      simp only [octet?, Option.bind_eq_bind, Option.bind_eq_some_iff, numeral?_filter,
        Option.pure_def, Option.some.injEq] at read
      obtain ⟨_, ⟨first, rfl⟩, _, ⟨second, rfl⟩, _, ⟨third, rfl⟩, _, ⟨fourth, rfl⟩, value⟩ := read
      exact ⟨a, b, c, d, (split_groups.mp groups).1, ⟨first, second, third, fourth⟩, value⟩
    · cases read
  · rintro ⟨a, b, c, d, whole, ⟨first, second, third, fourth⟩, value⟩
    have groups : split '.' cs = [a, b, c, d] := split_groups.mpr ⟨whole,
      first.fresh (by decide), second.fresh (by decide), third.fresh (by decide),
      fourth.fresh (by decide)⟩
    rw [groups]
    simp only [octet?, Option.bind_eq_bind, Option.bind_eq_some_iff, numeral?_filter,
      Option.pure_def, Option.some.injEq]
    exact ⟨_, ⟨first, rfl⟩, _, ⟨second, rfl⟩, _, ⟨third, rfl⟩, _, ⟨fourth, rfl⟩, value⟩

theorem parse?_eq_some {text : String} : parse? text = some address ↔ Written text.toList address :=
  ofChars?_eq_some

/-- An address is written with digits and points only. -/
theorem Written.fresh (written : Written cs address) {sep : Char} (other : isDigit sep = false)
    (apart : sep ≠ '.') : sep ∉ cs := by
  obtain ⟨a, b, c, d, rfl, ⟨first, second, third, fourth⟩, -⟩ := written
  simp [first.fresh other, second.fresh other, third.fresh other, fourth.fresh other, apart]

end Address

/-- Two numbers of 16 bits around a colon: the text of a community. -/
def CommunityWritten (cs : List Char) : Prop :=
  ∃ asn value, cs = asn ++ ':' :: value ∧ IsDecimal 5 65535 asn ∧ IsDecimal 5 65535 value

theorem isCommunity_iff {text : String} :
    isCommunity text = true ↔ CommunityWritten text.toList := by
  unfold isCommunity
  constructor
  · intro passed
    split at passed
    · rename_i asn value parts
      rw [Bool.and_eq_true, numeral?_any, numeral?_any] at passed
      rw [split_eq_iff (List.cons_ne_nil _ _)] at parts
      exact ⟨asn, value, by simpa [List.intercalate] using parts.1, passed⟩
    · cases passed
  · rintro ⟨asn, value, whole, first, second⟩
    have fresh : ':' ∉ asn ∧ ':' ∉ value := ⟨first.fresh (by decide), second.fresh (by decide)⟩
    have parts : split ':' text.toList = [asn, value] := by
      rw [split_eq_iff (List.cons_ne_nil _ _)]
      simp [List.intercalate, whole, fresh]
    rw [parts, Bool.and_eq_true, numeral?_any, numeral?_any]
    exact ⟨first, second⟩

/-! ### Networks and ranges -/

namespace Network

/-- An address and a length of at most 32, no bit of the address beyond the length being set. -/
def WrittenAs (address length : List Char) (n : Network) : Prop :=
  Address.Written address n.address ∧ (IsDecimal 2 32 length ∧ digitsValue length = n.length) ∧
    2 ^ (32 - n.length) ∣ n.address

/-- An address and a length around a slash: the text of a network. -/
def Written (cs : List Char) (n : Network) : Prop :=
  ∃ address length, cs = address ++ '/' :: length ∧ WrittenAs address length n

theorem mask_eq_self {address length : Nat} :
    mask address length = address ↔ 2 ^ (32 - length) ∣ address := by
  rw [mask, Nat.shiftRight_eq_div_pow, Nat.shiftLeft_eq]
  exact (Nat.dvd_iff_div_mul_eq _ _).symm

variable {cs address length : List Char} {n : Network}

theorem ofChars?_of_cut (parts : cut '/' cs = some (address, length)) :
    ofChars? true cs = some n ↔ WrittenAs address length n := by
  simp only [ofChars?, parts, Option.getD_some, Option.bind_eq_bind, Option.bind_eq_some_iff,
    numeral?_filter, Address.ofChars?_eq_some, true_and]
  constructor
  · rintro ⟨_, ⟨decimal, rfl⟩, value, written, read⟩
    split at read
    · cases read
    · rename_i masked
      have kept : mask value (digitsValue length) = value := not_not.mp masked
      cases read
      rw [holding, kept]
      exact ⟨written, ⟨decimal, rfl⟩, mask_eq_self.mp kept⟩
  · rintro ⟨written, ⟨decimal, value⟩, divides⟩
    have kept : mask n.address n.length = n.address := mask_eq_self.mpr divides
    refine ⟨n.length, ⟨decimal, value⟩, n.address, written, ?_⟩
    rw [if_neg (not_not.mpr kept), holding, kept]

/-- The slash that a network's text is cut at is the only one. -/
theorem WrittenAs.cut (written : WrittenAs address length n) :
    Text.cut '/' (address ++ '/' :: length) = some (address, length) :=
  cut_eq_some.mpr ⟨rfl, written.1.fresh (by decide) (by decide)⟩

/-- The texts read with a length are exactly those of networks. -/
theorem slashed_eq_some :
    (if cs.contains '/' then ofChars? true cs else none) = some n ↔ Written cs n := by
  rw [Option.ite_none_right_eq_some, List.contains_iff_mem]
  constructor
  · rintro ⟨slash, read⟩
    obtain ⟨⟨address, length⟩, parts⟩ :=
      Option.ne_none_iff_exists'.mp fun missing => cut_eq_none.mp missing slash
    exact ⟨address, length, (cut_eq_some.mp parts).1, (ofChars?_of_cut parts).mp read⟩
  · rintro ⟨address, length, rfl, written⟩
    exact ⟨by simp, (ofChars?_of_cut written.cut).mpr written⟩

theorem parseWithLength?_eq_some {text : String} :
    parseWithLength? text = some n ↔ Written text.toList n :=
  slashed_eq_some

/-- A network is written without a colon. -/
theorem Written.fresh (written : Written cs n) : ':' ∉ cs := by
  obtain ⟨address, length, rfl, host, ⟨decimal, -⟩, -⟩ := written
  have before : ':' ∉ address := host.fresh (by decide) (by decide)
  have behind : ':' ∉ length := decimal.fresh (by decide)
  simp [before, behind]

end Network

namespace NetworkRange

/-- Two lengths around a dash that bound the lengths of the networks inside a network. -/
def Bounds (cs : List Char) (range : NetworkRange) : Prop :=
  ∃ min max, cs = min ++ '-' :: max ∧ (IsDecimal 2 32 min ∧ digitsValue min = range.min) ∧
    (IsDecimal 2 32 max ∧ digitsValue max = range.max) ∧
      range.within.length ≤ range.min ∧ range.min ≤ range.max

/-- A network, alone or with bounds behind a colon: the text of a range. -/
def Written (cs : List Char) (range : NetworkRange) : Prop :=
  (Network.Written cs range.within ∧ range.min = range.within.length ∧
    range.max = range.within.length) ∨
  ∃ network bounds, cs = network ++ ':' :: bounds ∧ Network.Written network range.within ∧
    Bounds bounds range

variable {cs : List Char} {range : NetworkRange}

theorem bounds?_eq_some {low high : Nat} : bounds? cs = some (low, high) ↔
    ∃ min max, cs = min ++ '-' :: max ∧ numeral? 2 min = some low ∧ numeral? 2 max = some high := by
  simp only [bounds?, Option.bind_eq_bind, Option.bind_eq_some_iff, Option.pure_def,
    Option.some.injEq, Prod.mk.injEq]
  constructor
  · rintro ⟨⟨min, max⟩, parts, _, first, _, second, rfl, rfl⟩
    exact ⟨min, max, (cut_eq_some.mp parts).1, first, second⟩
  · rintro ⟨min, max, rfl, first, second⟩
    have dashless : '-' ∉ min := by
      intro member
      exact absurd ((numeral?_eq_some.mp first).1.2.2 _ member) (by decide)
    exact ⟨(min, max), cut_eq_some.mpr ⟨rfl, dashless⟩, low, first, high, second, rfl, rfl⟩

/-- The bounds that fit are at most 32, since they are in order. -/
theorem bounds_iff : Bounds cs range ↔ bounds? cs = some (range.min, range.max) ∧
    ¬(range.min < range.within.length ∨ range.max < range.min ∨ 32 < range.max) := by
  simp only [Bounds, isDecimal_iff, bounds?_eq_some]
  constructor
  · rintro ⟨min, max, whole, ⟨first, -⟩, ⟨second, small⟩, inside, ordered⟩
    exact ⟨⟨min, max, whole, first, second⟩, by omega⟩
  · rintro ⟨⟨min, max, whole, first, second⟩, fit⟩
    exact ⟨min, max, whole, ⟨first, by omega⟩, ⟨second, by omega⟩, by omega, by omega⟩

/-- The texts read as ranges are exactly those of ranges. -/
theorem parse?_eq_some {text : String} : parse? text = some range ↔ Written text.toList range := by
  simp only [parse?]
  generalize text.toList = cs
  constructor
  · intro read
    split at read
    · obtain ⟨n, network, rfl⟩ := Option.map_eq_some_iff.mp read
      exact .inl ⟨Network.slashed_eq_some.mp network, rfl, rfl⟩
    · rename_i head tail parts
      simp only [Option.bind_eq_bind, Option.bind_eq_some_iff] at read
      obtain ⟨n, network, ⟨low, high⟩, bounds, read⟩ := read
      split at read
      · cases read
      · rename_i fit
        cases read
        exact .inr ⟨head, tail, (cut_eq_some.mp parts).1, Network.slashed_eq_some.mp network,
          bounds_iff.mpr ⟨bounds, fit⟩⟩
  · rintro (⟨network, low, high⟩ | ⟨head, tail, rfl, network, bounds⟩)
    · rw [cut_eq_none.mpr network.fresh]
      refine Option.map_eq_some_iff.mpr ⟨range.within, Network.slashed_eq_some.mpr network, ?_⟩
      exact (congrArg₂ (NetworkRange.mk range.within) low high).symm
    · obtain ⟨read, fit⟩ := bounds_iff.mp bounds
      rw [cut_eq_some.mpr ⟨rfl, network.fresh⟩]
      simp only [Network.slashed_eq_some.mpr network, read, Option.bind_eq_bind, Option.bind_some]
      rw [if_neg fit]

end NetworkRange

end RoutePolicy
