import Mathlib.Data.List.Induction
import RoutePolicy.Failure.Location
import RoutePolicy.Json
import RoutePolicy.Proofs.AddressTexts

/-!
Places within documents: the value at a place, and the place that the text of a path stands for.
Where keys hold neither points nor brackets, the text of a place leads back to it.
-/

set_option autoImplicit false

namespace RoutePolicy

/-- The value one step further. -/
def Json.step? : Json → Step → Option Json
  | j, .field key => j.get? key
  | .arr items, .index i => items[i]?
  | _, .index _ => none

/-- The value at a place. -/
def Json.at? (j : Json) (place : Location) : Option Json := place.foldlM Json.step? j

theorem Json.at?_cons {j value : Json} {step : Step} {place : Location}
    (here : j.step? step = some value) : j.at? (step :: place) = value.at? place := by
  simp [at?, here]

namespace Text

variable {sep : Char} {cs more last : List Char} {front : List (List Char)}

theorem intercalate_concat : [sep].intercalate (front ++ [last]) =
    front.flatMap (· ++ [sep]) ++ last := by
  induction front with
  | nil => exact List.intercalate_singleton
  | cons piece rest ih =>
      obtain ⟨next, others, pieces⟩ : ∃ next others, rest ++ [last] = next :: others :=
        List.exists_cons_of_ne_nil (by simp)
      rw [List.cons_append, List.flatMap_cons, List.append_assoc, ← ih, pieces,
        List.intercalate_cons_cons, List.append_assoc]

/-- The last piece is what stands behind the last separator. -/
theorem split_eq_concat : split sep cs = front ++ [last] ↔
    cs = front.flatMap (· ++ [sep]) ++ last ∧ (∀ piece ∈ front, sep ∉ piece) ∧ sep ∉ last := by
  rw [split_eq_iff (by simp), intercalate_concat, List.forall_mem_append]
  simp

theorem split_ne_nil : split sep cs ≠ [] := by
  rw [split_eq_splitOn]
  exact List.splitOn_ne_nil sep cs

/-- There is a last piece. -/
theorem split_concat (sep : Char) (cs : List Char) : ∃ front last, split sep cs = front ++ [last] :=
  ⟨_, _, (List.dropLast_concat_getLast split_ne_nil).symm⟩

/-- The last piece grows with the text. -/
theorem split_append (pieces : split sep cs = front ++ [last]) (fresh : sep ∉ more) :
    split sep (cs ++ more) = front ++ [last ++ more] := by
  obtain ⟨rfl, apart, free⟩ := split_eq_concat.mp pieces
  refine split_eq_concat.mpr ⟨List.append_assoc .., apart, ?_⟩
  simp [free, fresh]

/-- Behind another separator a new piece begins. -/
theorem split_append_sep (fresh : sep ∉ more) :
    split sep (cs ++ sep :: more) = split sep cs ++ [more] := by
  obtain ⟨front, last, pieces⟩ := split_concat sep cs
  obtain ⟨whole, apart, free⟩ := split_eq_concat.mp pieces
  rw [pieces]
  refine split_eq_concat.mpr ⟨?_, List.forall_mem_append.mpr ⟨apart, by simpa using free⟩, fresh⟩
  rw [whole]
  simp

theorem split_fresh (fresh : sep ∉ cs) : split sep cs = [cs] :=
  (split_eq_iff (List.cons_ne_nil _ _)).mpr ⟨List.intercalate_singleton.symm, by simpa using fresh⟩

end Text

/-! ### Paths as texts -/

/-- Whether a key can be told from the points and brackets of a path. -/
def Step.Plain : Step → Prop
  | field key => key.toList ≠ [] ∧ '.' ∉ key.toList ∧ '[' ∉ key.toList
  | index _ => True

instance : DecidablePred Step.Plain
  | .field key =>
    inferInstanceAs (Decidable (key.toList ≠ [] ∧ '.' ∉ key.toList ∧ '[' ∉ key.toList))
  | .index _ => inferInstanceAs (Decidable True)

namespace Location

/-- What a bracket encloses: `3]` is the position 3. -/
def position? (cs : List Char) : Option Step :=
  match Text.cut ']' cs with
  | some (digits, []) => (Text.numeral? digits.length digits).map .index
  | _ => none

/-- The steps between two points: a key, unless it is missing, and positions in brackets. -/
def piece? (cs : List Char) : Option Location :=
  match Text.split '[' cs with
  | key :: positions =>
    (positions.mapM position?).map fun inner =>
      if key = [] then inner else .field (String.ofList key) :: inner
  | [] => none

/-- The place that a path leads to: keys between points, positions in brackets. -/
def ofText? (path : String) : Option Location :=
  ((Text.split '.' path.toList).mapM piece?).map List.flatten

theorem isDigit_of_mem_toDigits {i : Nat} {c : Char} (member : c ∈ Nat.toDigits 10 i) :
    Text.isDigit c = true := by
  have digit := Nat.isDigit_of_mem_toDigits (by decide) (by decide) member
  simpa [Text.isDigit, Char.isDigit, Char.le_def] using digit

theorem position?_digits (i : Nat) : position? (Nat.toDigits 10 i ++ [']']) = some (.index i) := by
  have closed : Text.cut ']' (Nat.toDigits 10 i ++ [']']) = some (Nat.toDigits 10 i, []) := by
    refine Text.cut_eq_some.mpr ⟨rfl, fun member => ?_⟩
    exact absurd (isDigit_of_mem_toDigits member) (by decide)
  have read : Text.numeral? (Nat.toDigits 10 i).length (Nat.toDigits 10 i) = some i :=
    Text.numeral?_eq_some.mpr ⟨⟨Nat.toDigits_ne_nil, le_rfl, fun _ => isDigit_of_mem_toDigits⟩,
      Nat.ofDigitChars_ten_toDigits⟩
  simp only [position?, closed, read, Option.map_some]

/-- A position in brackets. -/
def bracketed (i : Nat) : List Char := '[' :: (Nat.toDigits 10 i ++ [']'])

theorem fresh_bracketed {sep : Char} {i : Nat} (digit : Text.isDigit sep = false)
    (other : sep ≠ ']') : sep ∉ Nat.toDigits 10 i ++ [']'] := by
  have outside : sep ∉ Nat.toDigits 10 i := by
    intro member
    rw [isDigit_of_mem_toDigits member] at digit
    cases digit
  simp [outside, other]

/-- A piece grows by a position. -/
theorem piece?_append (cs : List Char) (i : Nat) :
    piece? (cs ++ bracketed i) = (piece? cs).map (· ++ [.index i]) := by
  obtain ⟨key, positions, parts⟩ :=
    List.exists_cons_of_ne_nil (Text.split_ne_nil : Text.split '[' cs ≠ [])
  have grown : Text.split '[' (cs ++ bracketed i) =
      key :: (positions ++ [Nat.toDigits 10 i ++ [']']]) := by
    rw [bracketed, Text.split_append_sep (fresh_bracketed (by decide) (by decide)), parts]
    rfl
  simp only [piece?, parts, grown, List.mapM_append, List.mapM_cons, List.mapM_nil,
    position?_digits]
  cases positions.mapM position? with
  | none => rfl
  | some inner => by_cases unnamed : key = [] <;> simp [unnamed]

/-- A path grows by a position. -/
theorem ofText?_index (path : String) (i : Nat) :
    ofText? (extend path (.index i)) = (ofText? path).map (· ++ [.index i]) := by
  have chars : (extend path (.index i)).toList = path.toList ++ bracketed i := by
    change (path ++ "[" ++ toString i ++ "]").toList = _
    simp [bracketed]
  obtain ⟨front, last, pieces⟩ := Text.split_concat '.' path.toList
  have fresh : '.' ∉ bracketed i := by
    rw [bracketed, List.mem_cons, not_or]
    exact ⟨by decide, fresh_bracketed (by decide) (by decide)⟩
  simp only [ofText?, chars, pieces, Text.split_append pieces fresh, List.mapM_append,
    List.mapM_cons, List.mapM_nil, piece?_append]
  cases front.mapM piece? with
  | none => rfl
  | some places => cases piece? last <;> simp

theorem piece?_key {key : String} (plain : (Step.field key).Plain) :
    piece? key.toList = some [.field key] := by
  simp [piece?, Text.split_fresh plain.2.2, plain.1]

/-- A path starts with a key. -/
theorem ofText?_key {key : String} (plain : (Step.field key).Plain) :
    ofText? key = some [.field key] := by
  simp [ofText?, Text.split_fresh plain.2.1, piece?_key plain]

/-- A path grows by a key behind a point. -/
theorem ofText?_field {path key : String} (some : path ≠ "") (plain : (Step.field key).Plain) :
    ofText? (extend path (.field key)) = (ofText? path).map (· ++ [.field key]) := by
  have chars : (extend path (.field key)).toList = path.toList ++ '.' :: key.toList := by
    rw [extend, if_neg (by simpa using some)]
    change (path ++ "." ++ key).toList = _
    simp
  simp only [ofText?, chars, Text.split_append_sep plain.2.1, List.mapM_append, List.mapM_cons,
    List.mapM_nil, piece?_key plain]
  cases (Text.split '.' path.toList).mapM piece? <;> simp

theorem text_concat (place : Location) (step : Step) :
    (place ++ [step]).text = extend place.text step := by
  rw [text, List.foldl_append]
  rfl

/-- The text of a place leads to it. The induction is on the last step. -/
theorem ofText?_text {place : Location} (plain : ∀ step ∈ place, step.Plain) :
    ofText? place.text = some place := by
  induction place using List.reverseRecOn with
  | nil => rfl
  | append_singleton place step ih =>
      obtain ⟨before, last⟩ := List.forall_mem_append.mp plain
      have own := ih before
      rw [text_concat]
      cases step with
      | index i => rw [ofText?_index, own, Option.map_some]
      | field key =>
          have named := List.forall_mem_singleton.mp last
          by_cases root : text place = ""
          · have start : place = [] := by
              rw [root] at own
              exact (Option.some.inj own).symm
            rw [start]
            exact ofText?_key named
          · rw [ofText?_field root named, own, Option.map_some]

example : ofText? "statements[2].guard" =
    some [.field "statements", .index 2, .field "guard"] := by
  decide

/-! ### Paths below a path -/

theorem extend_ne {path : String} {step : Step} (plain : step.Plain) : extend path step ≠ "" := by
  cases step with
  | field key =>
      have named : key ≠ "" := fun none => plain.1 (by rw [none]; rfl)
      rw [extend]
      split
      · exact named
      · change path ++ "." ++ key ≠ ""
        simp [named]
  | index i =>
      change path ++ "[" ++ toString i ++ "]" ≠ ""
      simp

theorem extend_append {path rest : String} (some : rest ≠ "") (step : Step) :
    extend (path ++ rest) step = path ++ extend rest step := by
  cases step with
  | field key =>
      rw [extend, extend, if_neg (by simp [some]), if_neg (by simpa using some)]
      change path ++ rest ++ "." ++ key = path ++ (rest ++ "." ++ key)
      simp [String.append_assoc]
  | index i =>
      change path ++ rest ++ "[" ++ toString i ++ "]" = path ++ (rest ++ "[" ++ toString i ++ "]")
      simp [String.append_assoc]

/-- Steps go to the end of the text, whatever stands in front of it. -/
theorem foldl_extend_append {path rest : String} {place : Location} (some : rest ≠ "")
    (plain : ∀ step ∈ place, step.Plain) :
    place.foldl extend (path ++ rest) = path ++ place.foldl extend rest := by
  induction place generalizing rest with
  | nil => rfl
  | cons step later ih =>
      obtain ⟨here, plain⟩ := List.forall_mem_cons.mp plain
      rw [List.foldl_cons, List.foldl_cons, extend_append some, ih (extend_ne here) plain]

/-- A text that is there stays there. -/
theorem foldl_extend_ne {path : String} {place : Location} (some : path ≠ "")
    (plain : ∀ step ∈ place, step.Plain) : place.foldl extend path ≠ "" := by
  induction place generalizing path with
  | nil => exact some
  | cons step later ih =>
      obtain ⟨here, plain⟩ := List.forall_mem_cons.mp plain
      exact ih (extend_ne here) plain

/-- Only the root has no text. -/
theorem text_ne {step : Step} {place : Location} (plain : ∀ other ∈ step :: place, other.Plain) :
    text (step :: place) ≠ "" := by
  obtain ⟨here, later⟩ := List.forall_mem_cons.mp plain
  rw [text, List.foldl_cons]
  exact foldl_extend_ne (extend_ne here) later

/-- The text of a place below a path starts with the path. -/
theorem text_start (path : String) (place : Location) :
    text (start path ++ place) = place.foldl extend path := by
  unfold start
  split
  · rename_i root
    rw [String.isEmpty_iff.mp root]
    rfl
  · rfl

/-- A path that goes on with a key is joined by a point. -/
theorem text_start_field {path key : String} {place : Location} (some : path ≠ "")
    (plain : ∀ step ∈ Step.field key :: place, step.Plain) :
    text (start path ++ .field key :: place) = path ++ "." ++ text (.field key :: place) := by
  obtain ⟨named, later⟩ := List.forall_mem_cons.mp plain
  have first : key ≠ "" := (extend_ne named : extend "" (.field key) ≠ "")
  have joined : extend path (.field key) = path ++ "." ++ key := if_neg (by simpa using some)
  rw [text_start, List.foldl_cons, joined, foldl_extend_append first later]
  rfl

/-- A path that goes on with a position is joined at once. -/
theorem text_start_index {path : String} {i : Nat} {place : Location}
    (plain : ∀ step ∈ Step.index i :: place, step.Plain) :
    text (start path ++ .index i :: place) = path ++ text (.index i :: place) := by
  obtain ⟨named, later⟩ := List.forall_mem_cons.mp plain
  have first : extend "" (.index i) ≠ "" := extend_ne named
  have joined : extend path (.index i) = path ++ extend "" (.index i) := by
    change path ++ "[" ++ toString i ++ "]" = path ++ ("" ++ "[" ++ toString i ++ "]")
    simp [String.append_assoc]
  rw [text_start, List.foldl_cons, joined, foldl_extend_append first later]
  rfl

/-- The path of a value below a path that ends at a key. -/
def joined (path inner : String) : String := if inner = "" then path else path ++ "." ++ inner

end Location

namespace Json

/-- The value that a path leads to. -/
def follow? (j : Json) (path : String) : Option Json := (Location.ofText? path).bind j.at?

theorem follow?_text {j : Json} {place : Location} (plain : ∀ step ∈ place, step.Plain) :
    j.follow? (Location.text place) = j.at? place := by
  rw [follow?, Location.ofText?_text plain, Option.bind_some]

end Json

end RoutePolicy
