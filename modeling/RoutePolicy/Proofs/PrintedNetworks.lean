import RoutePolicy.Proofs.CoveredAddresses
import RoutePolicy.Proofs.Locations
import RoutePolicy.Proofs.QueryKeys
import RoutePolicy.Proofs.Worklist

/-!
Addresses and networks as they are printed. The octets of a word give the word back, so a printed
address is read as itself, and a printed network is read as itself even where no bit beyond its
length may be set. The destination of a query is put into routes in this printed form.
-/

set_option autoImplicit false

namespace RoutePolicy

open Text

/-- The digits of a number are a numeral for it. -/
theorem Text.isDecimal_toDigits {width bound n : Nat} (some : 0 < width) (short : n < 10 ^ width)
    (small : n ≤ bound) :
    IsDecimal width bound (Nat.toDigits 10 n) ∧ digitsValue (Nat.toDigits 10 n) = n := by
  have value : digitsValue (Nat.toDigits 10 n) = n := Nat.ofDigitChars_ten_toDigits
  refine ⟨⟨Nat.toDigits_ne_nil, ?_, fun _ => Location.isDigit_of_mem_toDigits, ?_⟩, value⟩
  · exact (Nat.length_toDigits_le_iff (by decide) some).mpr short
  · rw [value]
    exact small

namespace Address

/-- The digits of the octet that ends `low` bits above the lowest one. -/
def octetDigits (address low : Nat) : List Char := Nat.toDigits 10 (address >>> low % 256)

theorem text_toList (address : Nat) : (text address).toList =
    octetDigits address 24 ++ '.' :: (octetDigits address 16 ++ '.' ::
      (octetDigits address 8 ++ '.' :: octetDigits address 0)) := by
  have printed : ∀ octet : Nat, (toString (octet : Int)).toList = Nat.toDigits 10 octet := by
    intro octet
    change (toString octet).toList = _
    rw [Nat.toString_eq_ofList_toDigits, String.toList_ofList]
  rw [text, octets_natCast, String.toList_intercalate]
  simp only [List.map_cons, List.map_nil, printed]
  simp [octetDigits, List.intercalate]

theorem octetDigits_decimal (address low : Nat) :
    IsDecimal 3 255 (octetDigits address low) ∧
      digitsValue (octetDigits address low) = address >>> low % 256 := by
  have small : address >>> low % 256 < 256 := Nat.mod_lt _ (by decide)
  exact isDecimal_toDigits (by decide) (by omega) (by omega)

/-- A word is the number that its octets stand for. -/
theorem octets_value {address : Nat} (word : address < 2 ^ 32) :
    ((address >>> 24 % 256 * 256 + address >>> 16 % 256) * 256 + address >>> 8 % 256) * 256 +
      address >>> 0 % 256 = address := by
  simp only [Nat.shiftRight_eq_div_pow]
  omega

theorem written_text {address : Nat} (word : address < 2 ^ 32) :
    Written (text address).toList address := by
  obtain ⟨first, a⟩ := octetDigits_decimal address 24
  obtain ⟨second, b⟩ := octetDigits_decimal address 16
  obtain ⟨third, c⟩ := octetDigits_decimal address 8
  obtain ⟨fourth, d⟩ := octetDigits_decimal address 0
  refine ⟨_, _, _, _, text_toList address, ⟨first, second, third, fourth⟩, ?_⟩
  rw [a, b, c, d]
  exact octets_value word

end Address

namespace Network

variable {n : Network}

theorem text_toList (n : Network) :
    n.text.toList = (Address.text n.address).toList ++ '/' :: Nat.toDigits 10 n.length := by
  simp [text]

theorem Regular.written_text (regular : n.Regular) : Written n.text.toList n := by
  have short := regular.short
  refine ⟨_, _, text_toList n, Address.written_text regular.word, ?_,
    mask_eq_self.mp regular.masked⟩
  exact isDecimal_toDigits (by decide) (by omega) short

/-- A printed network is read as itself. -/
theorem Regular.parseWithLength?_text (regular : n.Regular) : parseWithLength? n.text = some n :=
  parseWithLength?_eq_some.mpr regular.written_text

theorem Regular.slash_mem_text (regular : n.Regular) : '/' ∈ n.text.toList := by
  obtain ⟨slash, -⟩ := Option.ite_none_right_eq_some.mp regular.parseWithLength?_text
  exact List.contains_iff_mem.mp slash

theorem Regular.parse?_text (regular : n.Regular) : parse? n.text = some n := by
  obtain ⟨-, read⟩ := Option.ite_none_right_eq_some.mp regular.parseWithLength?_text
  exact read

/-- No bit is set beyond the length of a network. -/
theorem Regular.bit_beyond (regular : n.Regular) {i : Nat} (beyond : n.length ≤ i) :
    (BitVec.ofNat 32 n.address).getMsbD i = false := by
  have cleared := mask_bit regular.short n.address i
  rw [regular.masked] at cleared
  simpa [Nat.not_lt.mpr beyond] using cleared

/-- An address with or without a length, 32 being meant without one, and the network of that length
that holds the address. -/
def Loose (cs : List Char) (n : Network) : Prop :=
  ∃ quad address, Address.Written quad address ∧
    (cs = quad ∧ n = holding address 32 ∨
      ∃ length, cs = quad ++ '/' :: length ∧ IsDecimal 2 32 length ∧
        n = holding address (digitsValue length))

theorem ofChars?_loose {cs : List Char} : ofChars? false cs = some n ↔ Loose cs n := by
  -- what is read once the text is cut into an address and a length
  have read : ∀ quad length, cut '/' cs = some (quad, length) ∨
      (cut '/' cs = none ∧ cs = quad ∧ length = ['3', '2']) →
      (ofChars? false cs = some n ↔ ∃ address, Address.Written quad address ∧
        IsDecimal 2 32 length ∧ n = holding address (digitsValue length)) := by
    intro quad length parts
    have pair : (cut '/' cs).getD (cs, ['3', '2']) = (quad, length) := by
      rcases parts with some | ⟨none, rfl, rfl⟩
      · rw [some, Option.getD_some]
      · rw [none, Option.getD_none]
    simp only [ofChars?, pair, Bool.false_eq_true, false_and, if_false, Option.bind_eq_bind,
      Option.bind_eq_some_iff, numeral?_filter, Address.ofChars?_eq_some, Option.some.injEq]
    constructor
    · rintro ⟨_, ⟨decimal, rfl⟩, address, written, same⟩
      exact ⟨address, written, decimal, same.symm⟩
    · rintro ⟨address, written, decimal, same⟩
      exact ⟨_, ⟨decimal, rfl⟩, address, written, same.symm⟩
  cases parts : cut '/' cs with
  | none =>
      have whole := cut_eq_none.mp parts
      rw [read cs ['3', '2'] (.inr ⟨parts, rfl, rfl⟩)]
      constructor
      · rintro ⟨address, written, -, same⟩
        exact ⟨cs, address, written, .inl ⟨rfl, same⟩⟩
      · rintro ⟨quad, address, written, ⟨rfl, same⟩ | ⟨length, rfl, -⟩⟩
        · exact ⟨address, written, isDecimal_toDigits (by decide) (by decide) le_rfl |>.1, same⟩
        · simp at whole
  | some pair =>
      obtain ⟨quad, length⟩ := pair
      obtain ⟨whole, fresh⟩ := cut_eq_some.mp parts
      rw [read quad length (.inl parts)]
      constructor
      · rintro ⟨address, written, decimal, same⟩
        exact ⟨quad, address, written, .inr ⟨length, whole, decimal, same⟩⟩
      · rintro ⟨other, address, written, ⟨rfl, -⟩ | ⟨size, again, decimal, same⟩⟩
        · -- an address alone holds no slash
          exact absurd (whole ▸ by simp) (written.fresh (by decide) (by decide) : '/' ∉ cs)
        · have cutAgain : cut '/' cs = some (other, size) :=
            cut_eq_some.mpr ⟨again, written.fresh (by decide) (by decide)⟩
          cases parts.symm.trans cutAgain
          exact ⟨address, written, decimal, same⟩

/-- A text that is read strictly is read in the same way when bits beyond the length may be set. -/
theorem parseLenient?_of_parse? {text : String} (read : parse? text = some n) :
    parseLenient? text = some n := by
  simp only [parse?, parseLenient?, ofChars?, Option.bind_eq_bind, Option.bind_eq_some_iff]
    at read ⊢
  obtain ⟨length, decimal, address, written, read⟩ := read
  refine ⟨length, decimal, address, written, ?_⟩
  split at read
  · cases read
  · exact read

end Network

/-! ### Printed networks in routes -/

theorem Given.literal_text {n : Network} (regular : n.Regular) :
    (Given.network n.text).literal = .ok (.network n.text) := by
  rw [literal, regular.parseWithLength?_text, Option.isSome_some, if_pos rfl]

/-- Valid values make a record. -/
theorem Record.exists_ofGiven {values : List Given} {openSlots : Bool}
    (valid : ∀ name given, Given.find? values name = some given → ∃ l, given.literal = .ok l) :
    ∃ r, Record.ofGiven values openSlots = .ok r := by
  have slots : ∀ names, ∃ slots, givenSlots values openSlots names = .ok slots := by
    intro names
    induction names with
    | nil => exact ⟨[], rfl⟩
    | cons name rest ih =>
        obtain ⟨others, later⟩ := ih
        obtain ⟨slot, own⟩ : ∃ slot, givenSlot values openSlots name = .ok slot := by
          unfold givenSlot
          split
          · rename_i given found
            obtain ⟨l, holds⟩ := valid name given found
            exact ⟨some (name, .lit none l), by rw [holds]; rfl⟩
          · exact ⟨_, rfl⟩
        exact ⟨slot.toList ++ others, by rw [givenSlots, own, later]; rfl⟩
  obtain ⟨found, done⟩ := slots Attribute.all
  exact ⟨⟨found⟩, by rw [ofGiven, done]; rfl⟩

/-- A printed network takes the place of the network in any valid values. -/
theorem Record.exists_withNetwork {n : Network} (regular : n.Regular) {values : List Given}
    (valid : ∀ given ∈ values, given.name ≠ .network → ∃ l, given.literal = .ok l)
    (openSlots : Bool) :
    ∃ r, Record.ofGiven (Given.withNetwork values n.text) openSlots = .ok r ∧
      r.get? .network = some (.lit none (.network n.text)) := by
  have found : Given.find? (Given.withNetwork values n.text) .network = some (.network n.text) := by
    rw [Given.find?_withNetwork, if_pos rfl]
  obtain ⟨r, done⟩ : ∃ r, Record.ofGiven (Given.withNetwork values n.text) openSlots = .ok r := by
    refine exists_ofGiven fun name given here => ?_
    rw [Given.find?_withNetwork] at here
    split at here
    · cases here
      exact ⟨_, Given.literal_text regular⟩
    · rename_i other
      have named : given.name = name := Given.name_of_find? here
      exact valid given (List.mem_of_find?_eq_some here) (named ▸ other)
  refine ⟨r, done, ?_⟩
  obtain ⟨slots, own, same⟩ := Outcome.bind_ok.mp done
  cases same
  obtain ⟨l, literal, slot⟩ := givenSlots_find? own (Attribute.mem_all .network) found
  cases (Given.literal_text regular).symm.trans literal
  exact slot

theorem Query.regular_network {q : Query} {target : Network} (found : q.network = .ok target) :
    target.Regular := by
  unfold network at found
  split at found
  · rename_i read
    cases found
    exact Network.regular_ofChars? read
  · cases found

/-- A query is answered only for a destination that is read as a network. -/
theorem Topology.network_of_ask [Arithmetic] {t : Topology} {limits : Limits} {q : Query}
    {answer : Answer} (asked : t.ask limits q = .ok answer) :
    ∃ target, q.network = .ok target := by
  obtain ⟨_, starts, _⟩ := Outcome.bind_ok.mp asked
  obtain ⟨_, _, starts⟩ := Outcome.bind_ok.mp starts
  obtain ⟨target, found, _⟩ := Outcome.bind_ok.mp starts
  exact ⟨target, found⟩

/-- Addresses and networks are read as they are printed. A network that is read has no bit beyond
its length, whether or not such bits may be set in its text; where they may not, the same is read as
where they may, and where they may the texts that are read are those of an address with or without a
length. So the destination of every query that is answered can be given to a route. -/
theorem printed_texts_read_back [Arithmetic] :
    (∀ address : Nat, address < 2 ^ 32 → Address.parse? (Address.text address) = some address) ∧
    (∀ text n, Network.parse? text = some n ∨ Network.parseLenient? text = some n →
      (n.address < 2 ^ 32 ∧ ∀ i, n.length ≤ i → (BitVec.ofNat 32 n.address).getMsbD i = false) ∧
        '/' ∈ n.text.toList ∧ Network.parse? n.text = some n) ∧
    (∀ text n, Network.parse? text = some n → Network.parseLenient? text = some n) ∧
    (∀ text n, Network.parseLenient? text = some n ↔ Network.Loose text.toList n) ∧
    (∀ (t : Topology) limits q answer, t.ask limits q = .ok answer →
      ∃ target, q.network = .ok target) ∧
    ∀ (q : Query) target, q.network = .ok target → ∀ values : List Given,
      (∀ given ∈ values, given.name ≠ .network → ∃ l, given.literal = .ok l) →
      ∀ openSlots, ∃ r, Record.ofGiven (Given.withNetwork values target.text) openSlots = .ok r ∧
        r.get? .network = some (.lit none (.network target.text)) := by
  refine ⟨?_, ?_, ?_, ?_, ?_, ?_⟩
  · intro address word
    exact Address.parse?_eq_some.mpr (Address.written_text word)
  · intro text n read
    have regular : n.Regular := by
      rcases read with strict | lenient
      · exact Network.regular_ofChars? strict
      · exact Network.regular_ofChars? lenient
    exact ⟨⟨regular.word, fun i => regular.bit_beyond⟩, regular.slash_mem_text, regular.parse?_text⟩
  · intro text n
    exact Network.parseLenient?_of_parse?
  · intro text n
    exact Network.ofChars?_loose
  · intro t limits q answer
    exact Topology.network_of_ask
  · intro q target found values valid openSlots
    exact Record.exists_withNetwork (Query.regular_network found) valid openSlots

open Propagation Loop in
theorem host_text_reads_back :
    Address.parse? (Address.text (3221225993 : Nat)) = some 3221225993 ∧
    Network.parseLenient? "192.0.02.9/24" = some ⟨3221225984, 24⟩ ∧
    Network.parse? (Network.text ⟨3221225984, 24⟩) = some ⟨3221225984, 24⟩ ∧
    Network.parse? "10.0.0.0/8" = some ⟨167772160, 8⟩ ∧
    Network.parseLenient? "10.0.0.0/8" = some ⟨167772160, 8⟩ ∧
    Network.Loose "192.0.02.9/24".toList ⟨3221225984, 24⟩ ∧
    (∃ answer, @Topology.ask .binary64 (loop [forth, back]) .default query = .ok answer ∧
      ∃ target, query.network = .ok target) ∧
    (Given.nextHop "192.0.2.9").literal = .ok (.address "192.0.2.9") ∧
    ∃ r, Record.ofGiven (Given.withNetwork [.nextHop "192.0.2.9"] (Network.text ⟨167772160, 8⟩))
        false = .ok r ∧
      r.get? .network = some (.lit none (.network (Network.text ⟨167772160, 8⟩))) := by
  obtain ⟨addresses, networks, strict, loose, reach, destinations⟩ :=
    @printed_texts_read_back .binary64
  have lenient : Network.parseLenient? "192.0.02.9/24" = some ⟨3221225984, 24⟩ := by decide
  have read : Network.parse? "10.0.0.0/8" = some ⟨167772160, 8⟩ := by decide
  have hop : (Given.nextHop "192.0.2.9").literal = .ok (.address "192.0.2.9") := by rfl
  obtain ⟨answer, asked⟩ := @answered .binary64
  refine ⟨addresses _ (by decide), lenient, (networks _ _ (.inr lenient)).2.2, read,
    strict _ _ read, (loose _ _).mp lenient, ⟨answer, asked, reach _ _ _ _ asked⟩, hop, ?_⟩
  refine destinations query _ (by rfl) _ ?_ false
  intro given member other
  cases List.mem_singleton.mp member
  exact ⟨_, hop⟩

end RoutePolicy
