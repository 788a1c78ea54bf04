import RoutePolicy.Proofs.AddressTexts

/-!
Networks as sets of addresses. A network holds the addresses that agree with its own in as many bits
as its length says, and one network contains another exactly if it holds all addresses of the other.
-/

set_option autoImplicit false

namespace RoutePolicy

namespace Address

/-- The text of an address stands for a number of 32 bits. -/
theorem Written.lt {cs : List Char} {address : Nat} (written : Written cs address) :
    address < 2 ^ 32 := by
  obtain ⟨a, b, c, d, -, ⟨first, second, third, fourth⟩, rfl⟩ := written
  have := first.small
  have := second.small
  have := third.small
  have := fourth.small
  omega

theorem parse?_lt {text : String} {address : Nat} (read : parse? text = some address) :
    address < 2 ^ 32 :=
  (parse?_eq_some.mp read).lt

end Address

namespace Network

/-! ### Masks -/

/-- The word of which the first `length` bits are set: all ones but for those below them. -/
def leading (length : Nat) : BitVec 32 := BitVec.ofNat 32 (0xffffffff - (2 ^ (32 - length) - 1))

theorem leading_bit (length i : Nat) :
    (leading length).getLsbD i = (decide (i < 32) && !decide (i < 32 - length)) := by
  have fits : 2 ^ (32 - length) - 1 < 2 ^ 32 := by
    have power : 2 ^ (32 - length) ≤ 2 ^ 32 := Nat.pow_le_pow_right (by decide) (by omega)
    have positive : 0 < 2 ^ (32 - length) := Nat.two_pow_pos _
    omega
  have ones : 0xffffffff - (2 ^ (32 - length) - 1) = 2 ^ 32 - (2 ^ (32 - length) - 1 + 1) := by
    omega
  rw [leading, BitVec.getLsbD_ofNat, ones, Nat.testBit_two_pow_sub_succ fits,
    Nat.testBit_two_pow_sub_one]
  simp

/-- Clearing the bits beyond a length is the conjunction of words with the leading ones. -/
theorem word_mask (address length : Nat) :
    BitVec.ofNat 32 (mask address length) = BitVec.ofNat 32 address &&& leading length := by
  apply BitVec.eq_of_getLsbD_eq
  intro i inside
  rw [BitVec.getLsbD_and, leading_bit, BitVec.getLsbD_ofNat, BitVec.getLsbD_ofNat, mask,
    Nat.testBit_shiftLeft, Nat.testBit_shiftRight]
  by_cases low : i < 32 - length
  · have below : ¬32 - length ≤ i := Nat.not_le_of_lt low
    simp [low, below]
  · have place : 32 - length + (i - (32 - length)) = i := by omega
    simp [low, inside, place, Nat.le_of_not_lt low]

theorem mask_le (address length : Nat) : mask address length ≤ address := by
  rw [mask, Nat.shiftRight_eq_div_pow, Nat.shiftLeft_eq]
  exact Nat.div_mul_le_self address _

theorem mask_mask (address length : Nat) : mask (mask address length) length = mask address length := by
  rw [mask_eq_self]
  rw [mask, Nat.shiftRight_eq_div_pow, Nat.shiftLeft_eq]
  exact Nat.dvd_mul_left _ _

/-- A masked address keeps the bits that the length counts. -/
theorem mask_bit {length : Nat} (short : length ≤ 32) (address i : Nat) :
    (BitVec.ofNat 32 (mask address length)).getMsbD i =
      (decide (i < length) && (BitVec.ofNat 32 address).getMsbD i) := by
  rw [word_mask, BitVec.getMsbD_and, BitVec.getMsbD_eq_getLsbD (leading length), leading_bit]
  by_cases counted : i < length
  · have within : i < 32 := by omega
    have high : ¬32 - 1 - i < 32 - length := by omega
    simp [counted, within, high]
    omega
  · by_cases within : i < 32
    · have low : 32 - 1 - i < 32 - length := by omega
      simp [counted, low]
    · simp [counted, within]

/-- Masked addresses are equal if the addresses agree in the bits that the length counts. -/
theorem mask_eq_iff {length a b : Nat} (short : length ≤ 32) (left : a < 2 ^ 32)
    (right : b < 2 ^ 32) : mask a length = mask b length ↔
      ∀ i < length, (BitVec.ofNat 32 a).getMsbD i = (BitVec.ofNat 32 b).getMsbD i := by
  constructor
  · intro same i counted
    have bits := congrArg (fun address => (BitVec.ofNat 32 address).getMsbD i) same
    simpa [mask_bit short, counted] using bits
  · intro agree
    have words : BitVec.ofNat 32 (mask a length) = BitVec.ofNat 32 (mask b length) := by
      apply BitVec.eq_of_getMsbD_eq
      intro i inside
      rw [mask_bit short, mask_bit short]
      by_cases counted : i < length
      · rw [agree i counted]
      · simp [counted]
    have numbers := congrArg BitVec.toNat words
    rwa [BitVec.toNat_ofNat, BitVec.toNat_ofNat, Nat.mod_eq_of_lt ((mask_le a length).trans_lt left),
      Nat.mod_eq_of_lt ((mask_le b length).trans_lt right)] at numbers

/-! ### Networks that are read -/

/-- A network as it is read from a text, whether or not bits beyond its length may be set there, or
made for the address of an interface. -/
inductive Obtained (n : Network) : Prop
  | strict (text : String) (read : parse? text = some n)
  | lenient (text : String) (read : parseLenient? text = some n)
  | interface (text : String) (length : Nat) (made : ofInterface? text length = some n)

/-- A network of 32 bits of which none is set beyond the length. -/
structure Regular (n : Network) : Prop where
  short : n.length ≤ 32
  word : n.address < 2 ^ 32
  masked : mask n.address n.length = n.address

theorem regular_holding {address length : Nat} (word : address < 2 ^ 32) (short : length ≤ 32) :
    (holding address length).Regular :=
  ⟨short, (mask_le address length).trans_lt word, mask_mask address length⟩

theorem regular_ofChars? {strict : Bool} {cs : List Char} {n : Network}
    (read : ofChars? strict cs = some n) : n.Regular := by
  simp only [ofChars?, Option.bind_eq_bind, Option.bind_eq_some_iff, Text.numeral?_filter,
    Address.ofChars?_eq_some] at read
  obtain ⟨length, ⟨decimal, value⟩, address, written, read⟩ := read
  have short : length ≤ 32 := value ▸ decimal.small
  split at read
  · cases read
  · cases read
    exact regular_holding written.lt short

theorem Obtained.regular {n : Network} (obtained : n.Obtained) : n.Regular := by
  cases obtained with
  | strict text read => exact regular_ofChars? read
  | lenient text read => exact regular_ofChars? read
  | interface text length made =>
      unfold ofInterface? at made
      split at made
      · cases made
      · rename_i short
        obtain ⟨address, read, rfl⟩ := Option.map_eq_some_iff.mp made
        exact regular_holding (Address.parse?_lt read) (Nat.le_of_not_lt short)

/-! ### Addresses of a network -/

/-- An address lies in a network if it agrees with the network's own in as many bits as the length
says, counted from the highest one. -/
def Holds (n : Network) (address : BitVec 32) : Prop :=
  ∀ i < n.length, address.getMsbD i = (BitVec.ofNat 32 n.address).getMsbD i

theorem holds_own (n : Network) : n.Holds (BitVec.ofNat 32 n.address) := fun _ _ => rfl

/-- Masking an address of a network gives the network's own. -/
theorem Regular.holds_iff {n : Network} (regular : n.Regular) {address : Nat}
    (word : address < 2 ^ 32) :
    n.Holds (BitVec.ofNat 32 address) ↔ mask address n.length = n.address := by
  have masks := mask_eq_iff regular.short word regular.word
  rw [regular.masked] at masks
  exact masks.symm

theorem Regular.contains_iff_holds {outer inner : Network} (regular : outer.Regular)
    (word : inner.address < 2 ^ 32) : outer.contains inner = true ↔
      outer.length ≤ inner.length ∧ outer.Holds (BitVec.ofNat 32 inner.address) := by
  rw [regular.holds_iff word, contains, decide_eq_true_iff]

/-- The address that differs from a network's own in one bit. -/
def flipped (n : Network) (i : Nat) : BitVec 32 :=
  BitVec.ofNat 32 n.address ^^^ BitVec.twoPow 32 (31 - i)

theorem flipped_bit {n : Network} {i j : Nat} (inside : i < 32) : (n.flipped i).getMsbD j =
    ((BitVec.ofNat 32 n.address).getMsbD j ^^ decide (j = i)) := by
  have place : 32 - (31 - i) - 1 = i := by omega
  have bit : 31 - i < 32 := by omega
  rw [flipped, BitVec.getMsbD_xor, BitVec.getMsbD_twoPow, place]
  simp [bit]

/-- A network with all addresses of another one is not longer: otherwise some address of the other
differs from its own in the first bit that only the longer one counts. -/
theorem length_le_of_holds {outer inner : Network} (short : outer.length ≤ 32)
    (inclusion : ∀ a, inner.Holds a → outer.Holds a) : outer.length ≤ inner.length := by
  by_contra longer
  have counted : inner.length < outer.length := Nat.lt_of_not_le longer
  have inside : inner.length < 32 := by omega
  have other : inner.Holds (inner.flipped inner.length) := by
    intro i below
    simp [flipped_bit inside, Nat.ne_of_lt below]
  have own := inclusion _ inner.holds_own _ counted
  have differs := inclusion _ other _ counted
  rw [← own, flipped_bit inside] at differs
  simp at differs

/-- Containment is inclusion of the sets of addresses. -/
theorem Regular.contains_iff {outer inner : Network} (regular : outer.Regular)
    (word : inner.address < 2 ^ 32) :
    outer.contains inner = true ↔ ∀ a, inner.Holds a → outer.Holds a := by
  rw [regular.contains_iff_holds word]
  constructor
  · rintro ⟨shorter, own⟩ a held i counted
    rw [held i (Nat.lt_of_lt_of_le counted shorter), own i counted]
  · intro inclusion
    exact ⟨length_le_of_holds regular.short inclusion, inclusion _ inner.holds_own⟩

/-- Regular networks of one length that hold one address are equal. -/
theorem Regular.eq_of_holds {n other : Network} (regular : n.Regular) (too : other.Regular)
    (lengths : other.length = n.length) {address : Nat} (word : address < 2 ^ 32)
    (held : n.Holds (BitVec.ofNat 32 address)) (heldToo : other.Holds (BitVec.ofNat 32 address)) :
    other = n := by
  have own := (regular.holds_iff word).mp held
  have others := (too.holds_iff word).mp heldToo
  rw [lengths, own] at others
  cases n
  cases other
  simp_all

theorem Regular.eq_of_contains {n other : Network} (regular : n.Regular) (too : other.Regular)
    (one : n.contains other = true) (back : other.contains n = true) : other = n := by
  obtain ⟨shorter, held⟩ := (regular.contains_iff_holds too.word).mp one
  obtain ⟨longer, -⟩ := (too.contains_iff_holds regular.word).mp back
  exact regular.eq_of_holds too (Nat.le_antisymm longer shorter) too.word held other.holds_own

end Network

/-- The network of a range is read with its length. -/
theorem NetworkRange.regular_within {text : String} {range : NetworkRange}
    (read : parse? text = some range) : range.within.Regular := by
  have written : ∃ cs, Network.Written cs range.within := by
    rcases parse?_eq_some.mp read with ⟨network, -⟩ | ⟨network, bounds, -, written, -⟩
    · exact ⟨_, network⟩
    · exact ⟨network, written⟩
  obtain ⟨cs, written⟩ := written
  obtain ⟨-, read⟩ := Option.ite_none_right_eq_some.mp (Network.slashed_eq_some.mpr written)
  exact Network.regular_ofChars? read

namespace Network

/-- Containment of networks is inclusion of their addresses, and so a partial order; a range covers the
networks of its lengths all of whose addresses lie in the network of the range; and the network of an
interface is the only one of its length that holds the interface's address. -/
theorem containment_is_inclusion :
    (∀ outer inner : Network, outer.Obtained → inner.Obtained →
      (outer.contains inner = true ↔ ∀ a, inner.Holds a → outer.Holds a)) ∧
    (∀ text range, NetworkRange.parse? text = some range → ∀ n : Network, n.Obtained →
      (range.covers n = true ↔ (range.min ≤ n.length ∧ n.length ≤ range.max) ∧
        ∀ a, n.Holds a → range.within.Holds a)) ∧
    (∀ text address, Address.parse? text = some address → ∀ length ≤ 32,
      ∃ n, ofInterface? text length = some n ∧
        (n.length = length ∧ n.Holds (BitVec.ofNat 32 address)) ∧
        ∀ other : Network, other.Obtained → other.length = length →
          other.Holds (BitVec.ofNat 32 address) → other = n) ∧
    (∀ n : Network, n.Obtained → n.contains n = true) ∧
    (∀ a b c : Network, a.Obtained → b.Obtained → c.Obtained →
      a.contains b = true → b.contains c = true → a.contains c = true) ∧
    ∀ a b : Network, a.Obtained → b.Obtained →
      a.contains b = true → b.contains a = true → a = b := by
  have inclusion : ∀ {outer inner : Network}, outer.Obtained → inner.Obtained →
      (outer.contains inner = true ↔ ∀ a, inner.Holds a → outer.Holds a) :=
    fun one other => one.regular.contains_iff other.regular.word
  refine ⟨fun _ _ => inclusion, ?_, ?_, ?_, ?_, ?_⟩
  · intro text range read n obtained
    rw [NetworkRange.covers, Bool.and_eq_true, Bool.and_eq_true, decide_eq_true_iff,
      decide_eq_true_iff,
      (NetworkRange.regular_within read).contains_iff obtained.regular.word]
  · intro text address read length short
    have word := Address.parse?_lt read
    have regular := regular_holding word short
    have held : (holding address length).Holds (BitVec.ofNat 32 address) :=
      (regular.holds_iff word).mpr rfl
    refine ⟨holding address length, ?_, ⟨rfl, held⟩, ?_⟩
    · rw [ofInterface?, if_neg (Nat.not_lt.mpr short), read, Option.map_some]
    · intro other obtained lengths heldToo
      exact regular.eq_of_holds obtained.regular lengths word held heldToo
  · intro n obtained
    exact (inclusion obtained obtained).mpr fun _ => id
  · intro a b c first second third outer inner
    have wide := (inclusion first second).mp outer
    have narrow := (inclusion second third).mp inner
    exact (inclusion first third).mpr fun address held => wide address (narrow address held)
  · intro a b first second one back
    exact second.regular.eq_of_contains first.regular back one

namespace Upper

/-! The upper half of all addresses, a network in it and a host of that network. -/

def half : Network := ⟨2147483648, 1⟩

def lan : Network := ⟨3221225984, 24⟩

def host : Network := ⟨3221225993, 32⟩

theorem half_obtained : half.Obtained := .strict "128.0.0.0/1" (by decide)

theorem lan_obtained : lan.Obtained := .lenient "192.0.2.9/24" (by decide)

theorem host_obtained : host.Obtained := .interface "192.0.2.9" 32 (by decide)

end Upper

open Upper in
theorem upper_half_inclusion :
    (half.contains lan = true ↔ ∀ a, lan.Holds a → half.Holds a) ∧
    NetworkRange.parse? "128.0.0.0/1:8-32" = some ⟨half, 8, 32⟩ ∧
    (NetworkRange.covers ⟨half, 8, 32⟩ lan = true ↔ (8 ≤ lan.length ∧ lan.length ≤ 32) ∧
      ∀ a, lan.Holds a → half.Holds a) ∧
    Address.parse? "192.0.2.9" = some 3221225993 ∧
    (∃ n, ofInterface? "192.0.2.9" 1 = some n ∧
      (n.length = 1 ∧ n.Holds (BitVec.ofNat 32 3221225993)) ∧
      ∀ other : Network, other.Obtained → other.length = 1 →
        other.Holds (BitVec.ofNat 32 3221225993) → other = n) ∧
    half.contains half = true ∧ half.contains host = true ∧
    (half.contains half = true → half.contains half = true → half = half) := by
  obtain ⟨inclusion, covering, unique, reflexive, transitive, antisymmetric⟩ :=
    containment_is_inclusion
  have range : NetworkRange.parse? "128.0.0.0/1:8-32" = some ⟨half, 8, 32⟩ := by decide
  have address : Address.parse? "192.0.2.9" = some 3221225993 := by decide
  have outer : half.contains lan = true := by decide
  have inner : lan.contains host = true := by decide
  exact ⟨inclusion half lan half_obtained lan_obtained, range,
    covering _ _ range lan lan_obtained, address, unique _ _ address 1 (by decide),
    reflexive half half_obtained,
    transitive half lan host half_obtained lan_obtained host_obtained outer inner,
    antisymmetric half half half_obtained half_obtained⟩

end Network

end RoutePolicy
