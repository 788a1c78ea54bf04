import RoutePolicy.Proofs.Locations
import RoutePolicy.Proofs.Members

/-!
Failed readings of documents. A reader blames a place of the value that it was given, and nothing
else goes wrong; from a path that was followed before, it blames the same place below that path.
-/

set_option autoImplicit false

namespace RoutePolicy

/-- The failure for a fault in the encoding at a place. -/
def Failure.encodingAt (fault : EncodingFault) (place : Location) : Failure :=
  ⟨.malformed (.encoding fault) place, []⟩

variable {α β : Type}

/-- Every failure of a reading is for a fault in the encoding, at a place of the value. -/
def Outcome.Blames (j : Json) (r : Outcome α) : Prop :=
  ∀ f, r = .error f → ∃ fault place value, f = .encodingAt fault place ∧
    (∀ step ∈ place, step.Plain) ∧ j.at? place = some value

theorem Outcome.failed_iff {r : Outcome α} : (∃ f, r = .error f) ↔ ∀ a, r ≠ .ok a := by
  cases r <;> simp

namespace Outcome.Blames

variable {j value : Json} {r : Outcome α}

theorem ok {a : α} : Blames j (.ok a : Outcome α) := by
  rintro f ⟨⟩

theorem fail {fault : EncodingFault} : Blames j (Encoding.fail fault : Outcome α) := by
  rintro f ⟨⟩
  exact ⟨fault, [], j, rfl, List.forall_mem_nil _, rfl⟩

theorem bind {next : α → Outcome β} (first : Blames j r)
    (later : ∀ a, r = .ok a → Blames j (next a)) : Blames j (r >>= next) := by
  cases r with
  | error f =>
      rintro _ ⟨⟩
      exact first f rfl
  | ok a => exact later a rfl

/-- What is blamed one step further is blamed. -/
theorem within {step : Step} (here : j.step? step = some value) (plain : step.Plain)
    (inner : Blames value r) : Blames j (Outcome.within step r) := by
  cases r with
  | ok a => exact ok
  | error f =>
      rintro _ ⟨⟩
      obtain ⟨fault, place, found, rfl, steps, there⟩ := inner f rfl
      refine ⟨fault, step :: place, found, rfl, List.forall_mem_cons.mpr ⟨plain, steps⟩, ?_⟩
      rw [Json.at?_cons here, there]

/-- What is blamed is a place of the value. -/
theorem place {fault : EncodingFault} {place : Location} (blames : Blames j r)
    (failed : r = .error (.encodingAt fault place)) :
    (∀ step ∈ place, step.Plain) ∧ ∃ value, j.at? place = some value := by
  obtain ⟨_, _, value, same, plain, found⟩ := blames _ failed
  cases same
  exact ⟨plain, value, found⟩

end Outcome.Blames

namespace Encoding

open Outcome (Blames)

/-! ### Members -/

variable {ms : Table Json} {key : String} {value : Json}

theorem blames_members {j : Json} : Blames j (members j) := by
  unfold members
  split
  · exact .ok
  · exact .fail

theorem blames_field : Blames (.obj ms) (field ms key) := by
  unfold field
  split
  · exact .ok
  · exact .fail

section

variable (plain : (Step.field key).Plain)

include plain

/-- A member that is there may be blamed. -/
theorem blames_failAt {fault : EncodingFault} (found : ms.get? key = some value) :
    Blames (.obj ms) (failAt key fault : Outcome α) :=
  .within found plain .fail

theorem blames_stringField : Blames (.obj ms) (stringField ms key) := by
  refine .bind blames_field fun value found => ?_
  cases value with
  | str text => exact .ok
  | null | bool _ | num _ | arr _ | obj _ => exact blames_failAt plain (field_ok.mp found)

theorem blames_integerField : Blames (.obj ms) (integerField ms key) := by
  refine .bind blames_field fun value found => ?_
  have elsewhere : Blames (.obj ms) (failAt key (.notInteger key) : Outcome Int) :=
    blames_failAt plain (field_ok.mp found)
  split
  · split
    · exact .ok
    · exact elsewhere
  · exact elsewhere

theorem blames_amountField : Blames (.obj ms) (amountField ms key) := by
  refine .bind (blames_integerField plain) fun amount found => ?_
  split
  · exact blames_failAt plain (integerField_ok.mp found).1
  · exact .ok

theorem blames_arrayField : Blames (.obj ms) (arrayField ms key) := by
  refine .bind blames_field fun value found => ?_
  cases value with
  | arr items => exact .ok
  | null | bool _ | num _ | str _ | obj _ => exact blames_failAt plain (field_ok.mp found)

theorem blames_checkedText {check : String → Bool} {fault : String → EncodingFault} :
    Blames (.obj ms) (checkedText ms key check fault) := by
  refine .bind (blames_stringField plain) fun text found => ?_
  split
  · exact .ok
  · exact blames_failAt plain (stringField_ok.mp found)

end

/-- The items of a list are blamed by their positions, counted from the first one of the list. -/
theorem blames_eachFrom (before : List Json) {items : List Json}
    {read : (item : Json) → item ∈ items → Outcome α}
    (each : ∀ item member, Blames item (read item member)) :
    Blames (.arr (before ++ items)) (eachFrom before.length items read) := by
  induction items generalizing before with
  | nil => exact .ok
  | cons item rest ih =>
      have here : (Json.arr (before ++ item :: rest)).step? (.index before.length) = some item := by
        simp [Json.step?]
      have later := ih (before ++ [item]) fun other member => each other (.tail item member)
      rw [List.append_assoc, List.length_append] at later
      refine .bind (.within here trivial (each item _)) fun first _ => ?_
      exact .bind later fun others _ => .ok

theorem blames_each {items : List Json} {read : (item : Json) → item ∈ items → Outcome α}
    (inner : ∀ item member, Blames item (read item member)) :
    Blames (.arr items) (each items read) :=
  blames_eachFrom [] inner

section

variable (plain : (Step.field key).Plain)

include plain

theorem blames_textList {check : String → Bool} {fault : Json → EncodingFault} :
    Blames (.obj ms) (textList ms key check fault) := by
  refine .bind (blames_arrayField plain) fun items found => ?_
  refine .within (arrayField_ok.mp found) plain (blames_each fun item _ => ?_)
  split
  · split
    · exact .ok
    · exact .fail
  · exact .fail

theorem blames_asnList : Blames (.obj ms) (asnList ms key) := by
  refine .bind (blames_arrayField plain) fun items found => ?_
  refine .within (arrayField_ok.mp found) plain (blames_each fun item _ => ?_)
  split
  · exact .ok
  · exact .fail

theorem blames_child {read : (value : Json) → sizeOf value < sizeOf (Json.obj ms) → Outcome α}
    (inner : ∀ value smaller, Blames value (read value smaller)) :
    Blames (.obj ms) (child ms key read) := by
  unfold child
  split
  · rename_i value found
    exact .within found plain (inner value _)
  · exact .fail

theorem blames_operands {read : (value : Json) → sizeOf value < sizeOf (Json.obj ms) → Outcome α}
    (inner : ∀ value smaller, Blames value (read value smaller)) :
    Blames (.obj ms) (operands ms key read) := by
  refine blames_child plain fun value smaller => ?_
  split
  · exact .fail
  · exact blames_each fun item member => inner item _
  · exact .fail

end

theorem blames_className : Blames (.obj ms) (className ms) :=
  .bind (blames_stringField (by decide)) fun _ _ => .ok

/-! ### Words -/

theorem blames_readBoolean : Blames (.obj ms) (readBoolean ms) := by
  refine .bind (blames_stringField (by decide)) fun word found => ?_
  split
  · exact .ok
  · exact .ok
  · exact blames_failAt (by decide) (stringField_ok.mp found)

theorem blames_readAttribute : Blames (.obj ms) (readAttribute ms) := by
  refine .bind (blames_stringField (by decide)) fun word found => ?_
  split
  · exact .ok
  · exact blames_failAt (by decide) (stringField_ok.mp found)

theorem blames_readComparator : Blames (.obj ms) (readComparator ms) := by
  refine .bind (blames_stringField (by decide)) fun word found => ?_
  split
  · exact .ok
  · exact blames_failAt (by decide) (stringField_ok.mp found)

theorem blames_readEnding : Blames (.obj ms) (readEnding ms) := by
  refine .bind (blames_stringField (by decide)) fun word found => ?_
  split
  · exact .ok
  · exact blames_failAt (by decide) (stringField_ok.mp found)

theorem blames_readComment : Blames (.obj ms) (readComment ms) := by
  unfold readComment
  split
  · exact .ok
  · exact .ok
  · exact .ok
  · rename_i found
    exact blames_failAt (by decide) found

/-! ### Objects of a class -/

/-- The reader of an object is only asked about finite numbers. -/
theorem blames_networks {j : Json} : Blames j (NetworkSet.read j) := by
  refine .bind blames_members fun ms found => ?_
  obtain ⟨rfl, -⟩ := members_ok.mp found
  refine .bind blames_className fun tag _ => ?_
  split
  · exact .bind (blames_stringField (by decide)) fun _ _ => .ok
  · exact .bind (blames_textList (by decide)) fun _ _ => .ok
  · exact .fail

theorem blames_readExpr (keep : Bool) (j : Json) : Blames j (readExpr keep j) := by
  unfold readExpr
  split
  · rename_i ms
    split
    · have inner : ∀ value, sizeOf value < sizeOf (Json.obj ms) →
          Blames value (readExpr keep value) := fun value smaller => blames_readExpr keep value
      refine .bind blames_className fun tag _ => ?_
      cases ExprTag.ofName? tag with
      | none =>
          cases keep with
          | true => exact .ok
          | false => exact .fail
      | some kind =>
          cases kind with
          | boolean => exact .bind blames_readBoolean fun _ _ => .ok
          | integer => exact .bind (blames_integerField (by decide)) fun _ _ => .ok
          | ref => exact .bind blames_readAttribute fun _ _ => .ok
          | all | any | union => exact .bind (blames_operands (by decide) inner) fun _ _ => .ok
          | not => exact .bind (blames_child (by decide) inner) fun _ _ => .ok
          | compare =>
              refine .bind blames_readComparator fun _ _ => ?_
              refine .bind (blames_child (by decide) inner) fun _ _ => ?_
              exact .bind (blames_child (by decide) inner) fun _ _ => .ok
          | hasCommunity =>
              refine .bind (blames_checkedText (by decide)) fun _ _ => ?_
              exact .bind (blames_child (by decide) inner) fun _ _ => .ok
          | matchNetworks =>
              refine .bind (blames_child (by decide) inner) fun _ _ => ?_
              exact .bind (blames_child (by decide) fun _ _ => blames_networks) fun _ _ => .ok
          | communities => exact .bind (blames_textList (by decide)) fun _ _ => .ok
          | address | network => exact .bind (blames_checkedText (by decide)) fun _ _ => .ok
          | asPath => exact .bind (blames_asnList (by decide)) fun _ _ => .ok
          | prepend =>
              refine .bind (blames_asnList (by decide)) fun _ _ => ?_
              exact .bind (blames_child (by decide) inner) fun _ _ => .ok
          | call | namedSet => exact .bind (blames_stringField (by decide)) fun _ _ => .ok
          | increment | decrement => exact .bind (blames_amountField (by decide)) fun _ _ => .ok
    · exact .fail
  · exact .fail
termination_by sizeOf j

theorem blames_block {j : Json} {read : (item : Json) → sizeOf item < sizeOf j → Outcome α}
    (inner : ∀ item smaller, Blames item (read item smaller)) : Blames j (block j read) := by
  unfold block
  split
  · exact blames_each fun item member => inner item _
  · exact .fail

theorem plain_valueKey (target : Settable) : (Step.field (valueKey target)).Plain := by
  cases target <;> decide

theorem blames_readStatement (keep : Bool) (j : Json) : Blames j (readStatement keep j) := by
  unfold readStatement
  split
  · rename_i ms
    split
    · have inner : ∀ value, sizeOf value < sizeOf (Json.obj ms) →
          Blames value (block value fun item _ => readStatement keep item) := by
        intro value smaller
        exact blames_block fun item inside => blames_readStatement keep item
      have expr : ∀ value, sizeOf value < sizeOf (Json.obj ms) →
          Blames value (readExpr keep value) := fun value _ => blames_readExpr keep value
      refine .bind blames_className fun tag _ => ?_
      cases StatementTag.ofName? tag with
      | none => exact .fail
      | some kind =>
          cases kind with
          | branch =>
              refine .bind blames_readComment fun _ _ => ?_
              refine .bind (blames_child (by decide) expr) fun _ _ => ?_
              refine .bind (blames_child (by decide) inner) fun _ _ => ?_
              exact .bind (blames_child (by decide) inner) fun _ _ => .ok
          | finish => exact .bind blames_readEnding fun _ _ => .ok
          | assign target => exact .bind (blames_child (plain_valueKey target) expr) fun _ _ => .ok
    · exact .fail
  · exact .fail
termination_by sizeOf j

theorem blames_readStatements (keep : Bool) (j : Json) : Blames j (readStatements keep j) :=
  blames_block fun item _ => blames_readStatement keep item

theorem blames_readPolicy (keep : Bool) (j : Json) : Blames j (readPolicy keep j) := by
  refine .bind blames_members fun ms found => ?_
  obtain ⟨rfl, -⟩ := members_ok.mp found
  refine .bind (blames_stringField (by decide)) fun name _ => ?_
  exact .bind (blames_child (by decide) fun value _ => blames_readStatements keep value)
    fun _ _ => .ok

/-! ### Paths of failures -/

/-- Where the failures of a reading lead that may start at any path. -/
structure PointsInto (j : Json) (read : String → Outcome α) (join : String → String → String) :
    Prop where
  /-- From the root the path of a failure leads to a value of the document, and the message ends
  with the path unless it is empty. -/
  leads : ∀ f, read "" = .error f → ∃ fault place value, f = .encodingAt fault place ∧
    j.follow? (Location.text place) = some value ∧
      f.message = if Location.text place = "" then fault.text
        else fault.text ++ " at " ++ Location.text place
  /-- From another path the failure is for the same fault, at the joined path. -/
  joins : ∀ fault place, read "" = .error (.encodingAt fault place) → ∀ path ≠ "", ∃ below,
    read path = .error (.encodingAt fault below) ∧
      Location.text below = join path (Location.text place) ∧
        (Failure.encodingAt fault below).message =
          fault.text ++ " at " ++ join path (Location.text place)
  /-- What is read does not depend on the path. -/
  reads : ∀ path a, read path = .ok a ↔ read "" = .ok a
  fails : ∀ path, (∃ f, read path = .error f) ↔ ∃ f, read "" = .error f

theorem under_encodingAt {outer place : Location} {fault : EncodingFault} :
    Outcome.under outer (.error (.encodingAt fault place) : Outcome α) =
      .error (.encodingAt fault (outer ++ place)) := by
  unfold Outcome.under
  induction outer with
  | nil => rfl
  | cons step rest ih =>
      rw [List.foldr_cons, ih]
      rfl

variable {j : Json} {read : Json → Outcome α}

theorem message_encodingAt (fault : EncodingFault) (place : Location) :
    (Failure.encodingAt fault place).message = if Location.text place = "" then fault.text
      else fault.text ++ " at " ++ Location.text place := by
  simp only [← String.isEmpty_iff]
  rfl

/-- A reading that blames its value points into it if the paths of its failures are joined as
told. -/
theorem pointsInto {join : String → String → String} (blames : Blames j (read j))
    (joins : ∀ fault place, read j = .error (.encodingAt fault place) → ∀ path ≠ "",
      Location.text (Location.start path ++ place) = join path (Location.text place)) :
    PointsInto j (fun path => readAt path read j) join where
  leads f failed := by
    obtain ⟨fault, place, value, rfl, plain, found⟩ := blames f failed
    exact ⟨fault, place, value, rfl, (Json.follow?_text plain).trans found,
      message_encodingAt fault place⟩
  joins fault place failed path some := by
    have text := joins fault place failed path some
    have below : Location.text (Location.start path ++ place) ≠ "" := by
      rw [Location.text_start]
      exact Location.foldl_extend_ne some (blames.place failed).1
    refine ⟨Location.start path ++ place, ?_, text, ?_⟩
    · rw [readAt, show read j = _ from failed, under_encodingAt]
    · rw [message_encodingAt, if_neg below, text]
  reads path a := Outcome.under_ok
  fails path := by
    rw [Outcome.failed_iff, Outcome.failed_iff]
    exact forall_congr' fun a => not_congr Outcome.under_ok

/-- The failures of a policy's reading lie behind a key. -/
theorem text_start_policy {keep : Bool} {fault : EncodingFault} {place : Location} {path : String}
    (failed : readPolicy keep j = .error (.encodingAt fault place)) (some : path ≠ "") :
    Location.text (Location.start path ++ place) = Location.joined path (Location.text place) := by
  obtain ⟨plain, value, found⟩ := (blames_readPolicy keep j).place failed
  cases place with
  | nil =>
      rw [Location.text_start]
      exact (if_pos rfl).symm
  | cons step rest =>
      cases j with
      | obj ms =>
          cases step with
          | index i => cases found
          | field key =>
              rw [Location.text_start_field some plain, Location.joined,
                if_neg (Location.text_ne plain)]
      | null | bool _ | num _ | str _ | arr _ => cases failed

/-- The failures of a block's reading lie behind a position. -/
theorem text_start_block {keep : Bool} {fault : EncodingFault} {place : Location} (path : String)
    (failed : readStatements keep j = .error (.encodingAt fault place)) :
    Location.text (Location.start path ++ place) = path ++ Location.text place := by
  obtain ⟨plain, value, found⟩ := (blames_readStatements keep j).place failed
  cases place with
  | nil =>
      rw [Location.text_start]
      exact String.append_empty.symm
  | cons step rest =>
      cases j with
      | arr items =>
          cases step with
          | index i => exact Location.text_start_index plain
          | field key => cases found
      | null | bool _ | num _ | str _ | obj _ => cases failed

end Encoding

end RoutePolicy
