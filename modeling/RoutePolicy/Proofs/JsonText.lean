import RoutePolicy.Json.Reader
import RoutePolicy.Json.Text
import RoutePolicy.Proofs.SafeIntegers

/-!
The text of a JSON value determines the value, if the texts of its numbers determine the numbers.
No text of a value is followed by its own continuation: where a value stands, a comma or a closing
bracket ends it.
-/

set_option autoImplicit false

namespace RoutePolicy

/-! ### Strings -/

namespace Text

theorem toNat_valid (c : Char) : c.toNat < 0xD800 ∨ (0xDFFF < c.toNat ∧ c.toNat < 0x110000) :=
  c.valid

/-- The code units of a character read back as the character. -/
theorem ofUnits_charUnits (c : Char) (rest : List Nat) :
    ofUnits (charUnits c ++ rest) = c :: ofUnits rest := by
  have valid := toNat_valid c
  unfold charUnits
  dsimp only
  split
  · have whole : ofUnits.single c.toNat = c := by
      unfold ofUnits.single
      rw [if_neg (by omega)]
      exact Char.ofNat_toNat c
    cases rest with
    | nil => simp only [List.append_nil, ofUnits, whole]
    | cons low rest =>
        rw [List.singleton_append, ofUnits, if_neg (by omega), whole]
  · rw [List.cons_append, List.singleton_append, ofUnits, if_pos (by omega)]
    have joined : 0x10000 + (0xD800 + (c.toNat - 0x10000) / 0x400 - 0xD800) * 0x400 +
        (0xDC00 + (c.toNat - 0x10000) % 0x400 - 0xDC00) = c.toNat := by omega
    rw [joined, Char.ofNat_toNat]

theorem ofUnits_units (cs : List Char) : ofUnits (cs.flatMap charUnits) = cs := by
  induction cs with
  | nil => rfl
  | cons c rest ih => rw [List.flatMap_cons, ofUnits_charUnits, ih]

end Text

namespace Json

theorem hexValue?_hexDigit : ∀ n < 16, hexValue? (hexDigit n) = some n := by decide

/-- The units of a character before others. -/
def unitsOf (c : Char) (read : List Nat × List Char) : List Nat × List Char :=
  (Text.charUnits c ++ read.1, read.2)

theorem readUnits_letter {letter c : Char} (stands : unescape? letter = some c) (rest : List Char) :
    readUnits ('\\' :: letter :: rest) = (readUnits rest).map (unitsOf c) := by
  have other : letter ≠ 'u' := by
    rintro rfl
    cases stands
  rw [readUnits.eq_4]
  · rw [stands, Option.map_eq_bind]
    rfl
  · rintro _ _ _ _ _ same _
    exact other same

theorem readUnits_plain {c : Char} (quote : c ≠ '"') (backslash : c ≠ '\\')
    (printed : ¬c.toNat < 0x20) (rest : List Char) :
    readUnits (c :: rest) = (readUnits rest).map (unitsOf c) := by
  rw [readUnits.eq_5]
  · rw [if_neg (by simp [printed, backslash]), Option.map_eq_bind]
    rfl
  · exact quote
  · rintro _ _ _ _ _ same _
    exact backslash same
  · rintro _ _ same _
    exact backslash same

theorem charUnits_control {c : Char} (control : c.toNat < 0x20) : Text.charUnits c = [c.toNat] := by
  unfold Text.charUnits
  exact if_pos (by omega)

/-- A character within quotes reads back as its code units. -/
theorem readUnits_escape (c : Char) (rest : List Char) :
    readUnits (escape c ++ rest) = (readUnits rest).map (unitsOf c) := by
  unfold escape
  split_ifs with quote backslash newline back tab rubout feed control
  · subst quote
    exact readUnits_letter rfl rest
  · subst backslash
    exact readUnits_letter rfl rest
  · subst newline
    exact readUnits_letter rfl rest
  · subst back
    exact readUnits_letter rfl rest
  · subst tab
    exact readUnits_letter rfl rest
  · subst rubout
    exact readUnits_letter rfl rest
  · subst feed
    exact readUnits_letter rfl rest
  · have high := hexValue?_hexDigit (c.toNat / 16) (by omega)
    have low := hexValue?_hexDigit (c.toNat % 16) (by omega)
    have zero : hexValue? '0' = some 0 := by decide
    have value : c.toNat / 16 * 16 + c.toNat % 16 = c.toNat := by omega
    have own : unitsOf c = fun read => (c.toNat :: read.1, read.2) := by
      funext read
      rw [unitsOf, charUnits_control control, List.singleton_append]
    simp only [List.cons_append, List.nil_append, readUnits, high, low, zero, own]
    rw [Option.map_eq_bind]
    simp [value]
  · exact readUnits_plain quote backslash control rest

/-- A quoted text reads back as its code units, up to the closing quote. -/
theorem readUnits_quoted (cs rest : List Char) :
    readUnits (cs.flatMap escape ++ '"' :: rest) = some (cs.flatMap Text.charUnits, rest) := by
  induction cs with
  | nil => rfl
  | cons c cs ih =>
      rw [List.flatMap_cons, List.append_assoc, readUnits_escape, ih]
      rfl

theorem readString_quoted (s : String) (rest : List Char) :
    readString (s.toList.flatMap escape ++ '"' :: rest) = some (s, rest) := by
  rw [readString, readUnits_quoted, Option.map_some]
  dsimp only
  rw [Text.ofUnits_units, String.ofList_toList]

/-- A quoted text ends at its closing quote. -/
theorem quoted_append_inj {a b : String} {s t : List Char}
    (same : quoted a ++ s = quoted b ++ t) : a = b ∧ s = t := by
  simp only [quoted, List.cons_append, List.append_assoc, List.nil_append, List.cons.injEq,
    true_and] at same
  have read := readString_quoted a s
  rw [same, readString_quoted] at read
  simpa [eq_comm] using read

end Json

/-! ### Numbers -/

namespace Number

/-- A character that texts of finite numbers may have. -/
def isNumberChar (c : Char) : Bool := c.isDigit || c = '-' || c = '+' || c = '.' || c = 'e'

theorem isNumberChar_of_isDigit {c : Char} (digit : c.isDigit = true) : isNumberChar c = true := by
  simp [isNumberChar, digit]

theorem isNumberChar_toDigits {n : Nat} : ∀ c ∈ Nat.toDigits 10 n, isNumberChar c = true := by
  intro c member
  exact isNumberChar_of_isDigit (Nat.isDigit_of_mem_toDigits (by decide) (by decide) member)

theorem isNumberChar_replicate {n : Nat} : ∀ c ∈ List.replicate n '0', isNumberChar c = true := by
  intro c member
  rw [List.eq_of_mem_replicate member]
  decide

theorem isNumberChar_layout {d : Digits} (digits : ∀ c ∈ d.digits, isNumberChar c = true) :
    ∀ c ∈ d.layout, isNumberChar c = true := by
  have point : isNumberChar '.' = true := by decide
  have zero : isNumberChar '0' = true := by decide
  unfold Digits.layout
  dsimp only
  split
  · exact List.forall_mem_append.mpr ⟨digits, isNumberChar_replicate⟩
  split
  · refine List.forall_mem_append.mpr ⟨?_, List.forall_mem_cons.mpr ⟨point, ?_⟩⟩
    · intro c member
      exact digits c (List.mem_of_mem_take member)
    · intro c member
      exact digits c (List.mem_of_mem_drop member)
  split
  · refine List.forall_mem_append.mpr ⟨?_, digits⟩
    exact List.forall_mem_cons.mpr ⟨zero, List.forall_mem_cons.mpr ⟨point, isNumberChar_replicate⟩⟩
  · have mark : isNumberChar 'e' = true := by decide
    have sign : isNumberChar (if d.point - 1 < 0 then '-' else '+') = true := by
      split <;> decide
    refine List.forall_mem_append.mpr ⟨?_, List.forall_mem_cons.mpr
      ⟨mark, List.forall_mem_cons.mpr ⟨sign, isNumberChar_toDigits⟩⟩⟩
    split
    · exact nofun
    · rename_i single
      exact fun c member => digits c (single ▸ member)
    · rename_i first rest _ same
      rw [same] at digits
      obtain ⟨here, later⟩ := List.forall_mem_cons.mp digits
      exact List.forall_mem_cons.mpr ⟨here, List.forall_mem_cons.mpr ⟨point, later⟩⟩

theorem isNumberChar_ofDecimal (decimal : Nat × Int) :
    ∀ c ∈ (Digits.ofDecimal decimal).digits, isNumberChar c = true := by
  unfold Digits.ofDecimal
  dsimp only
  intro c member
  have inside := List.mem_reverse.mp member
  exact isNumberChar_toDigits c (List.mem_reverse.mp (List.dropWhile_subset _ inside))

theorem isNumberChar_positiveText (q : Rat) : ∀ c ∈ positiveText q, isNumberChar c = true := by
  unfold positiveText
  by_cases safe : q.den = 1 ∧ q.num.natAbs ≤ maxSafe
  · rw [if_pos safe]
    exact isNumberChar_toDigits
  · rw [if_neg safe]
    exact isNumberChar_layout (isNumberChar_ofDecimal _)

/-- The text of a finite number ends before any comma or bracket. -/
theorem isNumberChar_text {n : Number} (finite : n.isFinite = true) :
    ∀ c ∈ n.text.toList, isNumberChar c = true := by
  cases n with
  | finite q =>
      simp only [text]
      split
      · rw [String.toList_ofList]
        exact List.forall_mem_cons.mpr ⟨by decide, isNumberChar_positiveText _⟩
      · rw [String.toList_ofList]
        exact isNumberChar_positiveText q
  | infinite _ | undefined => cases finite

end Number

/-! ### Values -/

namespace Json

mutual

/-- The numbers in a value. -/
def numbers : Json → List Number
  | num n => [n]
  | arr items => itemNumbers items
  | obj members => memberNumbers members
  | _ => []

def itemNumbers : List Json → List Number
  | [] => []
  | item :: rest => item.numbers ++ itemNumbers rest

def memberNumbers : List (String × Json) → List Number
  | [] => []
  | (_, value) :: rest => value.numbers ++ memberNumbers rest

end

/-- The kinds of values that the first character of a text tells apart. -/
inductive Opening where
  | null
  | truth (value : Bool)
  | number
  | text
  | items
  | members
  | nothing

def opening (c : Char) : Opening :=
  if c = 'n' then .null
  else if c = 't' then .truth true
  else if c = 'f' then .truth false
  else if c = '"' then .text
  else if c = '[' then .items
  else if c = '\x7b' then .members
  else if Number.isNumberChar c then .number
  else .nothing

def opened : Json → Opening
  | null => .null
  | bool value => .truth value
  | num _ => .number
  | str _ => .text
  | arr _ => .items
  | obj _ => .members

/-- What may follow a value: nothing, or what opens no value and belongs to no number. -/
def Ends (rest : List Char) : Prop :=
  ∀ c ∈ rest.head?, opening c = .nothing ∧ Number.isNumberChar c = false

theorem ends_nil : Ends [] := by
  intro c impossible
  cases impossible

theorem ends_cons {c : Char} {rest : List Char} (nothing : opening c = .nothing)
    (outside : Number.isNumberChar c = false) : Ends (c :: rest) := by
  intro d same
  cases same
  exact ⟨nothing, outside⟩

theorem opening_number {c : Char} (part : Number.isNumberChar c = true) : opening c = .number := by
  unfold opening
  split_ifs <;> first | rfl | (subst_vars; exact absurd part (by decide))

variable {S : Number → Prop} {s t : List Char}

theorem numberChars_eq (legible : Number.Legible S) {n : Number} (known : S n) :
    numberChars n = n.text.toList := by
  rw [numberChars, if_pos (legible.finite n known)]

/-- The first character of a text says what kind of value it is. -/
theorem chars_opening (legible : Number.Legible S) {j : Json} (known : ∀ n ∈ j.numbers, S n) :
    ∃ c rest, j.chars = c :: rest ∧ opening c = j.opened := by
  cases j with
  | num n =>
      have own : S n := known n (by simp [numbers])
      have filled : n.text.toList ≠ [] := by
        intro empty
        exact legible.filled n own (String.toList_eq_nil_iff.mp empty)
      obtain ⟨c, rest, same⟩ := List.exists_cons_of_ne_nil filled
      refine ⟨c, rest, (numberChars_eq legible own).trans same, ?_⟩
      apply opening_number
      exact Number.isNumberChar_text (legible.finite n own) c (same ▸ List.mem_cons_self)
  | bool value => cases value <;> exact ⟨_, _, rfl, rfl⟩
  | null | str _ | arr _ | obj _ => exact ⟨_, _, rfl, rfl⟩

/-- Characters of a number end where none of them follows. -/
theorem append_inj_of_ends {xs ys : List Char} (left : ∀ c ∈ xs, Number.isNumberChar c = true)
    (right : ∀ c ∈ ys, Number.isNumberChar c = true) (leftEnds : Ends s) (rightEnds : Ends t)
    (same : xs ++ s = ys ++ t) : xs = ys ∧ s = t := by
  induction xs generalizing ys with
  | nil =>
      cases ys with
      | nil => exact ⟨rfl, same⟩
      | cons c ys =>
          have begins : s = c :: (ys ++ t) := same
          have stops := (leftEnds c (by rw [begins]; rfl)).2
          rw [right c List.mem_cons_self] at stops
          cases stops
  | cons c xs ih =>
      cases ys with
      | nil =>
          have begins : t = c :: (xs ++ s) := same.symm
          have stops := (rightEnds c (by rw [begins]; rfl)).2
          rw [left c List.mem_cons_self] at stops
          cases stops
      | cons d ys =>
          obtain ⟨rfl, later⟩ := List.cons.inj same
          obtain ⟨rfl, rest⟩ := ih (List.forall_mem_cons.mp left).2 (List.forall_mem_cons.mp right).2
            later
          exact ⟨rfl, rest⟩

/-- The text of the items after the first one, with the bracket that closes the list. -/
def moreItems (rest : List Json) (s : List Char) : List Char :=
  if rest.isEmpty then ']' :: s else ',' :: (itemChars rest ++ ']' :: s)

theorem itemChars_cons (item : Json) (rest : List Json) (s : List Char) :
    itemChars (item :: rest) ++ ']' :: s = item.chars ++ moreItems rest s := by
  cases rest <;> simp [itemChars, moreItems]

/-- The text of the members after the first one, with the bracket that closes the object. -/
def moreMembers (rest : List (String × Json)) (s : List Char) : List Char :=
  if rest.isEmpty then '\x7d' :: s else ',' :: (memberChars rest ++ '\x7d' :: s)

theorem memberChars_cons (key : String) (value : Json) (rest : List (String × Json))
    (s : List Char) : memberChars ((key, value) :: rest) ++ '\x7d' :: s =
      quoted key ++ ':' :: (value.chars ++ moreMembers rest s) := by
  cases rest <;> simp [memberChars, moreMembers]

theorem ends_moreItems (rest : List Json) (s : List Char) : Ends (moreItems rest s) := by
  unfold moreItems
  split <;> exact ends_cons rfl (by decide)

theorem ends_moreMembers (rest : List (String × Json)) (s : List Char) :
    Ends (moreMembers rest s) := by
  unfold moreMembers
  split <;> exact ends_cons rfl (by decide)

/-- A value does not begin with the bracket that closes a list. -/
theorem itemChars_ne (legible : Number.Legible S) {item : Json} {rest : List Json}
    (known : ∀ n ∈ itemNumbers (item :: rest), S n) :
    ']' :: s ≠ itemChars (item :: rest) ++ ']' :: t := by
  intro same
  obtain ⟨c, chars, begins, kind⟩ := chars_opening legible (j := item)
    fun n member => known n (List.mem_append_left _ member)
  rw [itemChars_cons, begins, List.cons_append] at same
  obtain ⟨rfl, _⟩ := List.cons.inj same
  cases item <;> cases kind

mutual

/-- Where a value ends, its text determines it. -/
theorem chars_append_inj (legible : Number.Legible S) (a b : Json)
    (left : ∀ n ∈ a.numbers, S n) (right : ∀ n ∈ b.numbers, S n) {s t : List Char}
    (leftEnds : Ends s) (rightEnds : Ends t) (same : a.chars ++ s = b.chars ++ t) :
    a = b ∧ s = t := by
  have kinds : a.opened = b.opened := by
    obtain ⟨c, rest, begins, kind⟩ := chars_opening legible left
    obtain ⟨d, others, starts, other⟩ := chars_opening legible right
    rw [begins, starts] at same
    obtain ⟨rfl, _⟩ := List.cons.inj same
    exact kind.symm.trans other
  cases a with
  | null =>
      cases b <;> cases kinds
      exact ⟨rfl, List.append_cancel_left same⟩
  | bool value =>
      cases b <;> cases kinds
      exact ⟨rfl, List.append_cancel_left same⟩
  | num n =>
      cases b <;> cases kinds
      rename_i m
      have own : S n := left n (by simp [numbers])
      have other : S m := right m (by simp [numbers])
      simp only [chars, numberChars_eq legible own, numberChars_eq legible other] at same
      obtain ⟨texts, rest⟩ := append_inj_of_ends
        (Number.isNumberChar_text (legible.finite n own))
        (Number.isNumberChar_text (legible.finite m other)) leftEnds rightEnds same
      exact ⟨congrArg num (legible.apart n m own other (String.toList_inj.mp texts)), rest⟩
  | str x =>
      cases b <;> cases kinds
      obtain ⟨rfl, rest⟩ := quoted_append_inj same
      exact ⟨rfl, rest⟩
  | arr items =>
      cases b <;> cases kinds
      rename_i others
      simp only [chars, List.cons_append, List.append_assoc, List.nil_append, List.cons.injEq,
        true_and] at same
      obtain ⟨rfl, rest⟩ := itemChars_append_inj legible items others left right same
      exact ⟨rfl, rest⟩
  | obj members =>
      cases b <;> cases kinds
      rename_i others
      simp only [chars, List.cons_append, List.append_assoc, List.nil_append, List.cons.injEq,
        true_and] at same
      obtain ⟨rfl, rest⟩ := memberChars_append_inj legible members others left right same
      exact ⟨rfl, rest⟩

theorem itemChars_append_inj (legible : Number.Legible S) (as bs : List Json)
    (left : ∀ n ∈ itemNumbers as, S n) (right : ∀ n ∈ itemNumbers bs, S n) {s t : List Char}
    (same : itemChars as ++ ']' :: s = itemChars bs ++ ']' :: t) : as = bs ∧ s = t := by
  cases as with
  | nil =>
      cases bs with
      | nil => exact ⟨rfl, (List.cons.inj same).2⟩
      | cons b bs => exact absurd same (itemChars_ne legible right)
  | cons a as =>
      cases bs with
      | nil => exact absurd same.symm (itemChars_ne legible left)
      | cons b bs =>
          obtain ⟨leftHere, leftLater⟩ := List.forall_mem_append.mp left
          obtain ⟨rightHere, rightLater⟩ := List.forall_mem_append.mp right
          rw [itemChars_cons, itemChars_cons] at same
          obtain ⟨rfl, more⟩ := chars_append_inj legible a b leftHere rightHere
            (ends_moreItems as s) (ends_moreItems bs t) same
          unfold moreItems at more
          cases as <;> cases bs <;> simp at more
          · exact ⟨rfl, more⟩
          · obtain ⟨rests, ends⟩ := itemChars_append_inj legible _ _ leftLater rightLater more
            exact ⟨by rw [rests], ends⟩

theorem memberChars_append_inj (legible : Number.Legible S) (as bs : List (String × Json))
    (left : ∀ n ∈ memberNumbers as, S n) (right : ∀ n ∈ memberNumbers bs, S n) {s t : List Char}
    (same : memberChars as ++ '\x7d' :: s = memberChars bs ++ '\x7d' :: t) : as = bs ∧ s = t := by
  match as, bs with
  | [], [] => exact ⟨rfl, (List.cons.inj same).2⟩
  | [], (key, value) :: bs =>
      rw [memberChars_cons] at same
      cases same
  | (key, value) :: as, [] =>
      rw [memberChars_cons] at same
      cases same
  | (key, value) :: as, (other, found) :: bs =>
      obtain ⟨leftHere, leftLater⟩ := List.forall_mem_append.mp left
      obtain ⟨rightHere, rightLater⟩ := List.forall_mem_append.mp right
      rw [memberChars_cons, memberChars_cons] at same
      obtain ⟨rfl, values⟩ := quoted_append_inj same
      obtain ⟨rfl, more⟩ := chars_append_inj legible value found leftHere rightHere
        (ends_moreMembers as s) (ends_moreMembers bs t) (List.cons.inj values).2
      unfold moreMembers at more
      cases as <;> cases bs <;> simp at more
      · exact ⟨rfl, more⟩
      · obtain ⟨rests, ends⟩ := memberChars_append_inj legible _ _ leftLater rightLater more
        exact ⟨by rw [rests], ends⟩

end

/-- A text without blanks determines its value. -/
theorem compact_inj (legible : Number.Legible S) {a b : Json} (left : ∀ n ∈ a.numbers, S n)
    (right : ∀ n ∈ b.numbers, S n) (same : a.compact = b.compact) : a = b := by
  have chars : a.chars ++ [] = b.chars ++ [] := by
    simpa [compact] using String.ofList_inj.mp same
  exact (chars_append_inj legible a b left right ends_nil ends_nil chars).1

end Json

end RoutePolicy
