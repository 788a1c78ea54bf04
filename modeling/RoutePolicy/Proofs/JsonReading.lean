import RoutePolicy.Proofs.CanonicalText
import RoutePolicy.Proofs.Numerals

/-!
A value that a document can hold is read back from each of its texts, compact or indented.
-/

set_option autoImplicit false

namespace RoutePolicy.Json

/-! ### Values of documents -/

mutual

/-- All objects in a value have the order of documents. -/
def Ordered : Json → Prop
  | arr items => OrderedItems items
  | obj members => Table.Arranged members ∧ OrderedMembers members
  | _ => True

def OrderedItems : List Json → Prop
  | [] => True
  | item :: rest => item.Ordered ∧ OrderedItems rest

def OrderedMembers : List (String × Json) → Prop
  | [] => True
  | (_, value) :: rest => value.Ordered ∧ OrderedMembers rest

end

/-- A value with numbers of a set whose objects have the order of documents. -/
structure HeldIn (S : Number → Prop) (j : Json) : Prop where
  numbers : j.NumbersIn S
  ordered : j.Ordered

/-- A value as documents hold it: its numbers are finite values of binary64. -/
abbrev Held (j : Json) : Prop := j.HeldIn Number.IsDouble

variable {S : Number → Prop}

theorem orderedItems_iff {items : List Json} :
    OrderedItems items ↔ ∀ item ∈ items, item.Ordered := by
  induction items with
  | nil => simp [OrderedItems]
  | cons item rest ih => rw [OrderedItems, ih, List.forall_mem_cons]

theorem orderedMembers_iff {members : Table Json} :
    OrderedMembers members ↔ members.All Ordered := by
  induction members with
  | nil => simp [OrderedMembers, Table.All]
  | cons entry rest ih => rw [OrderedMembers, ih, Table.All, Table.All, List.forall_mem_cons]

theorem held_arr {items : List Json} :
    (arr items).HeldIn S ↔ ∀ item ∈ items, item.HeldIn S := by
  constructor
  · rintro ⟨numbers, ordered⟩ item member
    exact ⟨numbersIn_arr.mp numbers item member, orderedItems_iff.mp ordered item member⟩
  · intro each
    refine ⟨numbersIn_arr.mpr fun item member => (each item member).numbers, ?_⟩
    exact orderedItems_iff.mpr fun item member => (each item member).ordered

theorem held_obj {members : Table Json} :
    (obj members).HeldIn S ↔ members.Arranged ∧ members.All (HeldIn S) := by
  constructor
  · rintro ⟨numbers, arranged, ordered⟩
    refine ⟨arranged, fun entry member => ⟨numbersIn_obj.mp numbers entry member, ?_⟩⟩
    exact orderedMembers_iff.mp ordered entry member
  · rintro ⟨arranged, each⟩
    refine ⟨numbersIn_obj.mpr fun entry member => (each entry member).numbers, arranged, ?_⟩
    exact orderedMembers_iff.mpr fun entry member => (each entry member).ordered

/-! ### Texts -/

/-- Characters that do not count between the parts of a text. -/
def Blanks (cs : List Char) : Prop := ∀ c ∈ cs, isBlank c = true

mutual

/-- The texts of a value, with blanks between their parts. -/
inductive Spells : Json → List Char → Prop where
  | null : Spells null "null".toList
  | yes : Spells (bool true) "true".toList
  | no : Spells (bool false) "false".toList
  | num {n : Number} (double : n.IsDouble) : Spells (num n) n.text.toList
  | str (s : String) : Spells (str s) (quoted s)
  | noItems : Spells (arr []) ['[', ']']
  | items {items : List Json} {cs : List Char} (parts : SpellsItems items cs) :
      Spells (arr items) ('[' :: cs)
  | noMembers : Spells (obj []) ['\x7b', '\x7d']
  | members {members : Table Json} {cs : List Char} (parts : SpellsMembers members cs) :
      Spells (obj members) ('\x7b' :: cs)

/-- The texts of items, with the bracket that closes the list. -/
inductive SpellsItems : List Json → List Char → Prop where
  | last {before cs after : List Char} {item : Json} (opens : Blanks before) (own : Spells item cs)
      (closes : Blanks after) : SpellsItems [item] (before ++ cs ++ after ++ [']'])
  | more {before cs later : List Char} {item : Json} {rest : List Json} (opens : Blanks before)
      (own : Spells item cs) (parts : SpellsItems rest later) :
      SpellsItems (item :: rest) (before ++ cs ++ ',' :: later)

/-- The texts of members, with the brace that closes the object. -/
inductive SpellsMembers : Table Json → List Char → Prop where
  | last {before middle cs after : List Char} {key : String} {value : Json} (opens : Blanks before)
      (parts : Blanks middle) (own : Spells value cs) (closes : Blanks after) :
      SpellsMembers [(key, value)] (before ++ quoted key ++ ':' :: middle ++ cs ++ after ++ ['\x7d'])
  | more {before middle cs later : List Char} {key : String} {value : Json} {rest : Table Json}
      (opens : Blanks before) (inner : Blanks middle) (own : Spells value cs)
      (parts : SpellsMembers rest later) :
      SpellsMembers ((key, value) :: rest)
        (before ++ quoted key ++ ':' :: middle ++ cs ++ ',' :: later)

end

theorem skipBlanks_append {before : List Char} (blanks : Blanks before) (cs : List Char) :
    skipBlanks (before ++ cs) = skipBlanks cs := List.dropWhile_append_of_pos blanks

theorem skipBlanks_cons {c : Char} (inked : isBlank c = false) (cs : List Char) :
    skipBlanks (c :: cs) = c :: cs := List.dropWhile_cons_of_neg (by simp [inked])

theorem blank_opening {c : Char} (blank : isBlank c = true) : opening c = .nothing := by
  simp only [isBlank, decide_eq_true_eq] at blank
  rcases blank with rfl | rfl | rfl | rfl <;> rfl

theorem inked {c : Char} (opens : opening c ≠ .nothing) : isBlank c = false := by
  cases blank : isBlank c with
  | false => rfl
  | true => exact absurd (blank_opening blank) opens

/-- The first character of a text says what kind of value it is. -/
theorem Spells.head {j : Json} {cs : List Char} (spells : Spells j cs) :
    ∃ c rest, cs = c :: rest ∧ opening c = j.opened := by
  cases spells with
  | @num n double =>
      have filled : n.text.toList ≠ [] := by
        intro empty
        exact Number.legible_double.filled n double (String.toList_eq_nil_iff.mp empty)
      obtain ⟨c, rest, same⟩ := List.exists_cons_of_ne_nil filled
      have part := Number.isNumberChar_text (Number.legible_double.finite n double) c
        (same ▸ List.mem_cons_self)
      exact ⟨c, rest, same, opening_number part⟩
  | null | yes | no | str _ | noItems | items _ | noMembers | members _ => exact ⟨_, _, rfl, rfl⟩

theorem opened_ne (j : Json) : j.opened ≠ .nothing := by
  cases j <;> exact nofun

/-- After a value nothing stands that could continue a number. -/
theorem closes_after {after : List Char} (blanks : Blanks after) {c : Char} (rest : List Char)
    (closes : Number.Closes (c :: rest)) : Number.Closes (after ++ c :: rest) := by
  cases after with
  | nil => exact closes
  | cons b after =>
    have blank := blanks b List.mem_cons_self
    simp only [isBlank, decide_eq_true_eq] at blank
    rintro d same
    cases same
    rcases blank with rfl | rfl | rfl | rfl <;> decide

theorem closes_mark {c : Char} (mark : c = ',' ∨ c = ']' ∨ c = '\x7d') (rest : List Char) :
    Number.Closes (c :: rest) := by
  rintro d same
  cases same
  rcases mark with rfl | rfl | rfl <;> decide

/-! ### Reading -/

theorem readValue_number {fuel : Nat} {cs rest : List Char} {c : Char}
    (start : skipBlanks cs = c :: rest) (number : opening c = .number) :
    readValue (fuel + 1) cs = (readNumber (c :: rest)).map fun (n, after) => (num n, after) := by
  rw [readValue, start]
  split <;> first | rfl | (rename_i same; cases same; cases number)

theorem readValue_string {fuel : Nat} {cs rest : List Char} {s : String}
    (start : skipBlanks cs = quoted s ++ rest) : readValue (fuel + 1) cs = some (str s, rest) := by
  have same : quoted s ++ rest = '"' :: (s.toList.flatMap escape ++ '"' :: rest) := by
    simp [quoted]
  rw [readValue, start, same]
  simp only [readString_quoted, Option.map_some]

theorem readValue_bracket {fuel : Nat} {cs rest : List Char} (start : skipBlanks cs = '[' :: rest) :
    readValue (fuel + 1) cs = match skipBlanks rest with
      | ']' :: after => some (arr [], after)
      | _ => (readItems fuel rest).map fun (items, after) => (arr items, after) := by
  rw [readValue, start]
  rfl

theorem readValue_items {fuel : Nat} {cs rest after : List Char} {items : List Json}
    (start : skipBlanks cs = '[' :: rest) (filled : ∀ c ∈ (skipBlanks rest).head?, c ≠ ']')
    (read : readItems fuel rest = some (items, after)) :
    readValue (fuel + 1) cs = some (arr items, after) := by
  rw [readValue_bracket start]
  split
  · rename_i same
    exact absurd rfl (filled ']' (by rw [same]; rfl))
  · rw [read]
    rfl

theorem readValue_brace {fuel : Nat} {cs rest : List Char} (start : skipBlanks cs = '\x7b' :: rest) :
    readValue (fuel + 1) cs = match skipBlanks rest with
      | '\x7d' :: after => some (obj [], after)
      | _ => (readMembers fuel rest).map fun (members, after) => (object members, after) := by
  rw [readValue, start]
  rfl

theorem readValue_members {fuel : Nat} {cs rest after : List Char} {members : Table Json}
    (start : skipBlanks cs = '\x7b' :: rest) (filled : ∀ c ∈ (skipBlanks rest).head?, c ≠ '\x7d')
    (arranged : Table.Arranged members) (read : readMembers fuel rest = some (members, after)) :
    readValue (fuel + 1) cs = some (obj members, after) := by
  rw [readValue_brace start]
  split
  · rename_i same
    exact absurd rfl (filled '\x7d' (by rw [same]; rfl))
  · rw [read]
    simp only [Option.map_some, object, arranged.arrange]

theorem Spells.start {j : Json} {cs : List Char} (spells : Spells j cs) {before : List Char}
    (blanks : Blanks before) (rest : List Char) : skipBlanks (before ++ (cs ++ rest)) = cs ++ rest := by
  obtain ⟨c, tail, rfl, opens⟩ := spells.head
  rw [skipBlanks_append blanks, List.cons_append, skipBlanks_cons (inked (opens ▸ opened_ne j))]

/-- Items start with a value and not with the bracket that closes them. -/
theorem SpellsItems.filled {items : List Json} {cs : List Char} (spells : SpellsItems items cs)
    (rest : List Char) : ∀ c ∈ (skipBlanks (cs ++ rest)).head?, c ≠ ']' := by
  have first : ∃ (item : Json) (before own later : List Char), Blanks before ∧ Spells item own ∧
      cs ++ rest = before ++ (own ++ later) := by
    cases spells with
    | last opens own closes => exact ⟨_, _, _, _, opens, own, by simp only [List.append_assoc]; rfl⟩
    | more opens own parts => exact ⟨_, _, _, _, opens, own, by simp only [List.append_assoc]; rfl⟩
  obtain ⟨item, before, own, later, opens, spelled, same⟩ := first
  rw [same, spelled.start opens]
  obtain ⟨c, tail, rfl, opening⟩ := spelled.head
  rintro d head rfl
  cases head
  exact opened_ne item opening.symm

/-- Members start with a key. -/
theorem SpellsMembers.filled {members : Table Json} {cs : List Char}
    (spells : SpellsMembers members cs) (rest : List Char) :
    ∀ c ∈ (skipBlanks (cs ++ rest)).head?, c ≠ '\x7d' := by
  have first : ∃ (before later : List Char) (key : String), Blanks before ∧
      cs ++ rest = before ++ (quoted key ++ later) := by
    cases spells with
    | last opens _ _ _ => exact ⟨_, _, _, opens, by simp only [List.append_assoc]; rfl⟩
    | more opens _ _ _ => exact ⟨_, _, _, opens, by simp only [List.append_assoc]; rfl⟩
  obtain ⟨before, later, key, opens, same⟩ := first
  rw [same, skipBlanks_append opens]
  rintro d head rfl
  cases head

mutual

/-- A value is read from each of its texts. -/
theorem readValue_spells {j : Json} {cs : List Char} (spells : Spells j cs) (ordered : j.Ordered)
    {before rest : List Char} (blanks : Blanks before) (closes : Number.Closes rest) {fuel : Nat}
    (enough : cs.length ≤ fuel) : readValue fuel (before ++ (cs ++ rest)) = some (j, rest) := by
  have start := spells.start blanks rest
  obtain ⟨c, tail, same, opens⟩ := spells.head
  obtain ⟨fuel, rfl⟩ : ∃ n, fuel = n + 1 := by
    rw [same, List.length_cons] at enough
    exact ⟨fuel - 1, by omega⟩
  cases spells with
  | null | yes | no | noItems | noMembers =>
      rw [readValue, start]
      rfl
  | num double =>
      have number := Number.readNumber_text double closes
      rw [same, List.cons_append] at start number ⊢
      rw [readValue_number start opens, number]
      rfl
  | str s => exact readValue_string start
  | items parts =>
      have within : _ ≤ fuel := Nat.le_of_succ_le_succ enough
      exact readValue_items start (parts.filled rest) (readItems_spells parts ordered rest within)
  | members parts =>
      have within : _ ≤ fuel := Nat.le_of_succ_le_succ enough
      obtain ⟨arranged, values⟩ := ordered
      exact readValue_members start (parts.filled rest) arranged
        (readMembers_spells parts values rest within)

theorem readItems_spells {items : List Json} {cs : List Char} (spells : SpellsItems items cs)
    (ordered : OrderedItems items) (rest : List Char) {fuel : Nat} (enough : cs.length ≤ fuel) :
    readItems fuel (cs ++ rest) = some (items, rest) := by
  cases spells with
  | @last before own after item opens spelled closes =>
      simp only [List.length_append, List.length_singleton] at enough
      obtain ⟨fuel, rfl⟩ : ∃ n, fuel = n + 1 := ⟨fuel - 1, by omega⟩
      have within : own.length ≤ fuel := by omega
      have read := readValue_spells spelled ordered.1 opens
        (closes_after closes rest (closes_mark (.inr (.inl rfl)) rest)) within
      have text : before ++ own ++ after ++ [']'] ++ rest = before ++ (own ++ (after ++ ']' :: rest)) := by
        simp
      have mark : skipBlanks (after ++ ']' :: rest) = ']' :: rest := skipBlanks_append closes _
      rw [text, readItems, read]
      simp only [Option.bind_eq_bind, Option.bind_some, mark]
      rfl
  | @more before own later item items opens spelled parts =>
      simp only [List.length_append, List.length_cons] at enough
      obtain ⟨fuel, rfl⟩ : ∃ n, fuel = n + 1 := ⟨fuel - 1, by omega⟩
      have within : own.length ≤ fuel := by omega
      have read := readValue_spells spelled ordered.1 opens (closes_mark (.inl rfl) (later ++ rest)) within
      have others : readItems fuel (later ++ rest) = some (items, rest) :=
        readItems_spells parts ordered.2 rest (by omega)
      have text : before ++ own ++ ',' :: later ++ rest = before ++ (own ++ ',' :: (later ++ rest)) := by
        simp
      have mark : skipBlanks (',' :: (later ++ rest)) = ',' :: (later ++ rest) := rfl
      rw [text, readItems, read]
      simp only [Option.bind_eq_bind, Option.bind_some, mark, others]
      rfl

theorem readMembers_spells {members : Table Json} {cs : List Char}
    (spells : SpellsMembers members cs) (ordered : OrderedMembers members) (rest : List Char)
    {fuel : Nat} (enough : cs.length ≤ fuel) :
    readMembers fuel (cs ++ rest) = some (members, rest) := by
  have keyed : ∀ (before : List Char) (key : String) (later : List Char), Blanks before →
      skipBlanks (before ++ (quoted key ++ later)) =
        '"' :: (key.toList.flatMap escape ++ '"' :: later) := by
    intro before key later blanks
    rw [skipBlanks_append blanks]
    simp [quoted, skipBlanks_cons (show isBlank '"' = false from rfl)]
  have colon : ∀ later : List Char, skipBlanks (':' :: later) = ':' :: later := fun _ => rfl
  cases spells with
  | @last before middle own after key value opens inner spelled closes =>
      simp only [List.length_append, List.length_cons] at enough
      obtain ⟨fuel, rfl⟩ : ∃ n, fuel = n + 1 := ⟨fuel - 1, by omega⟩
      have within : own.length ≤ fuel := by omega
      have read := readValue_spells spelled ordered.1 inner
        (closes_after closes rest (closes_mark (.inr (.inr rfl)) rest)) within
      have text : before ++ quoted key ++ ':' :: middle ++ own ++ after ++ ['\x7d'] ++ rest =
          before ++ (quoted key ++ ':' :: (middle ++ (own ++ (after ++ '\x7d' :: rest)))) := by
        simp
      have mark : skipBlanks (after ++ '\x7d' :: rest) = '\x7d' :: rest := skipBlanks_append closes _
      rw [text, readMembers, keyed before key _ opens]
      simp only [Option.bind_eq_bind, Option.bind_some, readString_quoted, colon, read, mark]
      rfl
  | @more before middle own later key value members opens inner spelled parts =>
      simp only [List.length_append, List.length_cons] at enough
      obtain ⟨fuel, rfl⟩ : ∃ n, fuel = n + 1 := ⟨fuel - 1, by omega⟩
      have within : own.length ≤ fuel := by omega
      have read := readValue_spells spelled ordered.1 inner (closes_mark (.inl rfl) (later ++ rest)) within
      have others : readMembers fuel (later ++ rest) = some (members, rest) :=
        readMembers_spells parts ordered.2 rest (by omega)
      have text : before ++ quoted key ++ ':' :: middle ++ own ++ ',' :: later ++ rest =
          before ++ (quoted key ++ ':' :: (middle ++ (own ++ ',' :: (later ++ rest)))) := by
        simp
      have mark : skipBlanks (',' :: (later ++ rest)) = ',' :: (later ++ rest) := rfl
      rw [text, readMembers, keyed before key _ opens]
      simp only [Option.bind_eq_bind, Option.bind_some, readString_quoted, colon, read, mark, others]
      rfl

end

theorem closes_blanks {after : List Char} (blanks : Blanks after) : Number.Closes after := by
  cases after with
  | nil => exact Number.closes_nil
  | cons b after =>
    have single : Blanks [b] := List.forall_mem_singleton.mpr (blanks b List.mem_cons_self)
    have closes := closes_after single [] (closes_mark (.inl rfl) [])
    rintro c same
    cases same
    exact closes b rfl

/-- A value of documents is read from each of its texts, blanks around it included. -/
theorem read?_spells {j : Json} {cs before after : List Char} (spells : Spells j cs)
    (ordered : j.Ordered) (opens : Blanks before) (closes : Blanks after) :
    read? (String.ofList (before ++ (cs ++ after))) = some j := by
  have within : cs.length ≤ (before ++ (cs ++ after)).length + 1 := by
    simp only [List.length_append]
    omega
  have read := readValue_spells spells ordered opens (closes_blanks closes) within
  have rest : skipBlanks after = [] := List.dropWhile_eq_nil_iff.mpr closes
  simp only [read?, String.toList_ofList, read, Option.bind_eq_bind, Option.bind_some, rest]
  rfl

/-! ### The texts that are written -/

theorem blanks_nil : Blanks [] := nofun

mutual

theorem spells_chars (j : Json) (numbers : j.NumbersIn Number.IsDouble) : Spells j j.chars := by
  match j with
  | null => exact .null
  | bool true => exact .yes
  | bool false => exact .no
  | num n =>
      have double := numbers n List.mem_cons_self
      rw [chars, numberChars_eq Number.legible_double double]
      exact .num double
  | str s => exact .str s
  | arr [] => exact .noItems
  | arr (item :: rest) => exact .items (spellsItems_chars item rest numbers)
  | obj [] => exact .noMembers
  | obj ((key, value) :: rest) => exact .members (spellsMembers_chars key value rest numbers)
termination_by sizeOf j

theorem spellsItems_chars (item : Json) (rest : List Json)
    (numbers : ∀ n ∈ itemNumbers (item :: rest), n.IsDouble) :
    SpellsItems (item :: rest) (itemChars (item :: rest) ++ [']']) := by
  obtain ⟨here, later⟩ := List.forall_mem_append.mp numbers
  have own := spells_chars item here
  match rest with
  | [] => simpa [itemChars] using SpellsItems.last blanks_nil own blanks_nil
  | next :: rest =>
      have parts := spellsItems_chars next rest later
      simpa [itemChars] using SpellsItems.more blanks_nil own parts
termination_by sizeOf (item :: rest)

theorem spellsMembers_chars (key : String) (value : Json) (rest : Table Json)
    (numbers : ∀ n ∈ memberNumbers ((key, value) :: rest), n.IsDouble) :
    SpellsMembers ((key, value) :: rest) (memberChars ((key, value) :: rest) ++ ['\x7d']) := by
  obtain ⟨here, later⟩ := List.forall_mem_append.mp numbers
  have own := spells_chars value here
  match rest with
  | [] => simpa [memberChars] using @SpellsMembers.last _ _ _ _ key _ blanks_nil blanks_nil own blanks_nil
  | (next, found) :: rest =>
      have parts := spellsMembers_chars next found rest later
      simpa [memberChars] using @SpellsMembers.more _ _ _ _ key _ _ blanks_nil blanks_nil own parts
termination_by sizeOf ((key, value) :: rest)

end

theorem blanks_indentation (depth : Nat) : Blanks (indentation depth) := by
  intro c member
  rcases List.mem_cons.mp member with rfl | blank
  · rfl
  · rw [List.eq_of_mem_replicate blank]
    rfl

mutual

theorem spells_indented (depth : Nat) (j : Json) (numbers : j.NumbersIn Number.IsDouble) :
    Spells j (j.indented depth) := by
  match j with
  | arr [] => exact .noItems
  | arr (item :: rest) =>
      have parts := spellsItems_indented (depth + 1) depth item rest numbers
      simpa [indented] using Spells.items parts
  | obj [] => exact .noMembers
  | obj ((key, value) :: rest) =>
      have parts := spellsMembers_indented (depth + 1) depth key value rest numbers
      simpa [indented] using Spells.members parts
  | null | bool _ | num _ | str _ => exact spells_chars _ numbers
termination_by sizeOf j

theorem spellsItems_indented (depth outer : Nat) (item : Json) (rest : List Json)
    (numbers : ∀ n ∈ itemNumbers (item :: rest), n.IsDouble) :
    SpellsItems (item :: rest)
      (indentedItems depth (item :: rest) ++ (indentation outer ++ [']'])) := by
  obtain ⟨here, later⟩ := List.forall_mem_append.mp numbers
  have own := spells_indented depth item here
  have opens := blanks_indentation depth
  match rest with
  | [] => simpa [indentedItems] using SpellsItems.last opens own (blanks_indentation outer)
  | next :: rest =>
      have parts := spellsItems_indented depth outer next rest later
      rw [indentedItems]
      simpa using SpellsItems.more opens own parts
termination_by sizeOf (item :: rest)

theorem spellsMembers_indented (depth outer : Nat) (key : String) (value : Json)
    (rest : Table Json) (numbers : ∀ n ∈ memberNumbers ((key, value) :: rest), n.IsDouble) :
    SpellsMembers ((key, value) :: rest)
      (indentedMembers depth ((key, value) :: rest) ++ (indentation outer ++ ['\x7d'])) := by
  obtain ⟨here, later⟩ := List.forall_mem_append.mp numbers
  have own := spells_indented depth value here
  have opens := blanks_indentation depth
  have inner : Blanks [' '] := List.forall_mem_singleton.mpr rfl
  match rest with
  | [] =>
      have single := @SpellsMembers.last _ _ _ _ key _ opens inner own (blanks_indentation outer)
      simpa [indentedMembers] using single
  | (next, found) :: rest =>
      have parts := spellsMembers_indented depth outer next found rest later
      rw [indentedMembers]
      simpa using @SpellsMembers.more _ _ _ _ key _ _ opens inner own parts
termination_by sizeOf ((key, value) :: rest)

end

/-- A value of documents is read back from its compact text. -/
theorem read?_compact {j : Json} (held : j.Held) : read? j.compact = some j := by
  have read := read?_spells (spells_chars j held.numbers) held.ordered blanks_nil blanks_nil
  rwa [List.nil_append, List.append_nil] at read

/-- A value of documents is read back from the lines it is written as. -/
theorem read?_pretty {j : Json} (held : j.Held) : read? (j.pretty ++ "\n") = some j := by
  have blank : Blanks ['\n'] := List.forall_mem_singleton.mpr rfl
  have read := read?_spells (spells_indented 0 j held.numbers) held.ordered blanks_nil blank
  rwa [List.nil_append, String.ofList_append] at read

end RoutePolicy.Json
