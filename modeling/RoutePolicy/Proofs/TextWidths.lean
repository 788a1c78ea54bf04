import RoutePolicy.Encoding.Writer
import RoutePolicy.Json.Text

/-!
How long the text of a value is, in UTF-16 code units. The text of a list or an object has a unit
for each bracket and each comma besides the texts of its parts.
-/

set_option autoImplicit false

namespace RoutePolicy

/-! ### Sums over lists -/

section

variable {α : Type} {f : α → Nat} {xs ys : List α}

theorem le_of_shrinks {x y : α} (shrinks : x = y ∨ f x < f y) : f x ≤ f y := by
  rcases shrinks with rfl | less
  · exact Nat.le_refl _
  · exact Nat.le_of_lt less

/-- The sum of a measure over a list, with one more for each item. -/
def total (f : α → Nat) (xs : List α) : Nat := xs.foldr (fun x others => f x + 1 + others) 0

theorem total_nil : total f [] = 0 := rfl

theorem total_cons (x : α) (xs : List α) : total f (x :: xs) = f x + 1 + total f xs := rfl

theorem total_append (xs ys : List α) : total f (xs ++ ys) = total f xs + total f ys := by
  induction xs with
  | nil => exact (Nat.zero_add _).symm
  | cons x rest ih =>
      rw [List.cons_append, total_cons, total_cons, ih]
      omega

theorem total_map {β : Type} (g : β → α) (bs : List β) :
    total f (bs.map g) = total (fun b => f (g b)) bs := List.foldr_map

theorem total_sublist (dropped : xs.Sublist ys) : xs = ys ∨ total f xs < total f ys := by
  induction dropped with
  | slnil => exact .inl rfl
  | cons y _ ih =>
      rw [total_cons]
      rcases ih with rfl | less <;> exact .inr (by omega)
  | cons_cons y _ ih =>
      rw [total_cons, total_cons]
      rcases ih with rfl | less
      · exact .inl rfl
      · exact .inr (by omega)

theorem total_sublist_le (dropped : xs.Sublist ys) : total f xs ≤ total f ys :=
  le_of_shrinks (total_sublist dropped)

theorem lt_total {x : α} (member : x ∈ xs) : f x < total f xs := by
  have alone := total_sublist_le (f := f) (List.singleton_sublist.mpr member)
  rw [total_cons, total_nil] at alone
  omega

theorem total_filter (p : α → Bool) (xs : List α) :
    total f xs = total f (xs.filter p) + total f (xs.filter fun x => !p x) := by
  induction xs with
  | nil => rfl
  | cons x rest ih =>
      cases passes : p x <;> simp [passes, total_cons] <;> omega

theorem total_flatMap_le {g : α → List α} (each : ∀ x ∈ xs, total f (g x) ≤ f x + 1) :
    total f (xs.flatMap g) ≤ total f xs := by
  induction xs with
  | nil => exact Nat.le_refl 0
  | cons x rest ih =>
      obtain ⟨here, later⟩ := List.forall_mem_cons.mp each
      have others := ih later
      rw [List.flatMap_cons, total_append, total_cons]
      omega

theorem total_map_le {g : α → α} (each : ∀ x ∈ xs, f (g x) ≤ f x) :
    total f (xs.map g) ≤ total f xs := by
  rw [List.map_eq_flatMap]
  exact total_flatMap_le fun x member => Nat.succ_le_succ (each x member)

/-- One item that is replaced by less makes the whole less. -/
theorem total_flatMap_lt {g : α → List α} (each : ∀ x ∈ xs, total f (g x) ≤ f x + 1) {x : α}
    (member : x ∈ xs) (less : total f (g x) < f x + 1) : total f (xs.flatMap g) < total f xs := by
  obtain ⟨before, after, rfl⟩ := List.append_of_mem member
  obtain ⟨early, here⟩ := List.forall_mem_append.mp each
  have first := total_flatMap_le early
  have last := total_flatMap_le (List.forall_mem_cons.mp here).2
  rw [List.flatMap_append, List.flatMap_cons, total_append, total_append, total_append, total_cons]
  omega

end

/-! ### Characters -/

namespace Text

/-- The number of code units of characters. -/
def width (cs : List Char) : Nat := (cs.flatMap charUnits).length

theorem width_nil : width [] = 0 := rfl

theorem width_cons (c : Char) (cs : List Char) :
    width (c :: cs) = (charUnits c).length + width cs := by
  simp [width]

theorem width_append (cs ds : List Char) : width (cs ++ ds) = width cs + width ds := by
  simp [width]

end Text

/-! ### Values -/

open Text

namespace Json

/-- The length of the compact text of a value. -/
def extent (j : Json) : Nat := width j.chars

theorem length_units_compact (j : Json) : (Text.units j.compact).length = j.extent := by
  rw [Text.units, compact, String.toList_ofList]
  rfl

/-- The length of a text in quotes. -/
def quotedWidth (s : String) : Nat := width (quoted s)

theorem extent_str (s : String) : (str s).extent = quotedWidth s := rfl

/-- The text of a list: after each item stands a comma or the bracket that closes the list. -/
theorem extent_arr {items : List Json} (filled : items ≠ []) :
    (arr items).extent = total extent items + 1 := by
  have inner : ∀ (item : Json) (rest : List Json),
      width (itemChars (item :: rest)) + 1 = total extent (item :: rest) := by
    intro item rest
    induction rest generalizing item with
    | nil => rfl
    | cons next rest ih =>
        have later := ih next
        have comma : (charUnits ',').length = 1 := rfl
        rw [total_cons, ← later]
        simp only [itemChars, width_append, width_cons, comma, extent]
        omega
  obtain ⟨item, rest, rfl⟩ := List.exists_cons_of_ne_nil filled
  have opening : (charUnits '[').length = 1 := rfl
  have closing : (charUnits ']').length = 1 := rfl
  rw [← inner]
  simp only [extent, chars, width_append, width_cons, width_nil, opening, closing]
  omega

theorem extent_arr_nil : (arr []).extent = 2 := rfl

theorem extent_arr_le (items : List Json) : (arr items).extent ≤ total extent items + 2 := by
  by_cases filled : items = []
  · subst filled
    exact Nat.le_refl 2
  · rw [extent_arr filled]
    omega

theorem le_extent_arr (items : List Json) : total extent items + 1 ≤ (arr items).extent := by
  by_cases filled : items = []
  · subst filled
    exact Nat.le_succ 1
  · exact Nat.le_of_eq (extent_arr filled).symm

/-- The length of the text of a member: its key, a colon and its value. -/
def memberExtent (member : String × Json) : Nat := quotedWidth member.1 + member.2.extent + 1

theorem extent_obj (member : String × Json) (rest : List (String × Json)) :
    (obj (member :: rest)).extent = total memberExtent (member :: rest) + 1 := by
  have inner : width (memberChars (member :: rest)) + 1 = total memberExtent (member :: rest) := by
    induction rest generalizing member with
    | nil =>
        have colon : (charUnits ':').length = 1 := rfl
        simp only [memberChars, total_cons, total_nil, memberExtent, width_append, width_cons,
          colon, quotedWidth, extent]
        omega
    | cons next rest ih =>
        have later := ih next
        have colon : (charUnits ':').length = 1 := rfl
        have comma : (charUnits ',').length = 1 := rfl
        rw [total_cons, ← later]
        simp only [memberChars, memberExtent, width_append, width_cons, colon, comma, quotedWidth,
          extent]
        omega
  have opening : (charUnits '\x7b').length = 1 := rfl
  have closing : (charUnits '\x7d').length = 1 := rfl
  simp only [extent, chars, width_append, width_cons, width_nil, opening, closing]
  omega

end Json

end RoutePolicy
