import RoutePolicy.Encoding.Writer
import RoutePolicy.Proofs.Reading
import RoutePolicy.Proofs.SafeIntegers

/-!
What the readers of members find: each succeeds for exactly one kind of member. From that follows
what an object of each class encodes, said once for the reader of expressions and once for that of
statements.
-/

set_option autoImplicit false

namespace RoutePolicy

namespace Encoding

variable {α : Type} {ms : Table Json} {key : String}

/-! ### Members -/

theorem members_ok {j : Json} :
    members j = .ok ms ↔ j = .obj ms ∧ (Json.obj ms).isFinite = true := by
  cases j with
  | obj own =>
      unfold members Json.members?
      by_cases finite : (Json.obj own).isFinite = true
      · simp only [finite, if_true, Except.ok.injEq, Json.obj.injEq]
        constructor
        · rintro rfl
          exact ⟨rfl, finite⟩
        · exact fun both => both.1
      · simp only [finite, if_false, Json.obj.injEq, fail, reduceCtorEq, false_iff, not_and]
        rintro rfl
        exact finite
  | null | bool _ | num _ | str _ | arr _ => simp [members, Json.members?, fail]

theorem field_ok {value : Json} : field ms key = .ok value ↔ ms.get? key = some value := by
  unfold field
  cases ms.get? key <;> simp [fail]

theorem stringField_ok {text : String} :
    stringField ms key = .ok text ↔ ms.get? key = some (.str text) := by
  rw [stringField, Outcome.bind_ok]
  constructor
  · rintro ⟨value, found, same⟩
    rw [field_ok] at found
    split at same
    · cases same
      exact found
    · cases same
  · intro found
    exact ⟨_, field_ok.mpr found, rfl⟩

theorem toInt?_some {n : Number} {i : Int} : n.toInt? = some i ↔ n = .finite i := by
  cases n with
  | finite q =>
      simp only [Number.toInt?, Option.ite_none_right_eq_some, Option.some.injEq,
        Number.finite.injEq]
      constructor
      · rintro ⟨whole, rfl⟩
        exact (Rat.den_eq_one_iff q).mp whole |>.symm
      · rintro rfl
        exact ⟨Rat.den_intCast i, Rat.num_intCast i⟩
  | infinite _ | undefined => simp [Number.toInt?]

/-- A safe integer of a document is written as it was. -/
theorem toSafeInt?_some {n : Number} {i : Int} :
    n.toSafeInt? = some i ↔ n = .ofInt i ∧ i.natAbs ≤ Number.maxSafe := by
  simp only [Number.toSafeInt?, Option.filter_eq_some_iff, toInt?_some, decide_eq_true_eq]
  refine and_congr_left fun safe => ?_
  rw [Number.ofInt_safe safe]

theorem integerField_ok {i : Int} : integerField ms key = .ok i ↔
    ms.get? key = some (.int i) ∧ i.natAbs ≤ Number.maxSafe := by
  rw [integerField, Outcome.bind_ok]
  constructor
  · rintro ⟨value, found, same⟩
    rw [field_ok] at found
    split at same
    · split at same
      · rename_i whole
        cases same
        obtain ⟨rfl, safe⟩ := toSafeInt?_some.mp whole
        exact ⟨found, safe⟩
      · cases same
    · cases same
  · rintro ⟨found, safe⟩
    refine ⟨_, field_ok.mpr found, ?_⟩
    simp only [Json.int, toSafeInt?_some.mpr ⟨rfl, safe⟩]

theorem amountField_ok {i : Int} : amountField ms key = .ok i ↔
    0 ≤ i ∧ ms.get? key = some (.int i) ∧ i.natAbs ≤ Number.maxSafe := by
  rw [amountField, Outcome.bind_ok]
  constructor
  · rintro ⟨amount, found, same⟩
    split at same
    · cases same
    · rename_i nonnegative
      cases same
      exact ⟨Int.not_lt.mp nonnegative, integerField_ok.mp found⟩
  · rintro ⟨nonnegative, found⟩
    refine ⟨i, integerField_ok.mpr found, ?_⟩
    rw [if_neg (Int.not_lt.mpr nonnegative)]

theorem arrayField_ok {items : List Json} :
    arrayField ms key = .ok items ↔ ms.get? key = some (.arr items) := by
  rw [arrayField, Outcome.bind_ok]
  constructor
  · rintro ⟨value, found, same⟩
    rw [field_ok] at found
    split at same
    · cases same
      exact found
    · cases same
  · intro found
    exact ⟨_, field_ok.mpr found, rfl⟩

/-- A list is read item by item. -/
theorem eachFrom_iff {position : Nat} {items : List Json}
    {read : (item : Json) → item ∈ items → Outcome α} {R : Json → α → Prop}
    (reads : ∀ item member x, read item member = .ok x ↔ R item x) {xs : List α} :
    eachFrom position items read = .ok xs ↔ List.Forall₂ R items xs := by
  induction items generalizing position xs with
  | nil => simp [eachFrom, eq_comm]
  | cons item rest ih =>
      have later : ∀ position xs, eachFrom position rest (fun other member =>
          read other (List.mem_cons_of_mem item member)) = .ok xs ↔ List.Forall₂ R rest xs :=
        fun _ _ => ih fun other member => reads other (List.mem_cons_of_mem item member)
      simp only [eachFrom, Outcome.bind_ok, Outcome.within_ok, reads, later,
        List.forall₂_cons_left_iff, Except.ok.injEq]
      constructor
      · rintro ⟨x, own, others, related, rfl⟩
        exact ⟨x, others, own, related, rfl⟩
      · rintro ⟨x, others, own, related, rfl⟩
        exact ⟨x, own, others, related, rfl⟩

theorem textList_ok {check : String → Bool} {fault : Json → EncodingFault} {texts : List String} :
    textList ms key check fault = .ok texts ↔
      ms.get? key = some (.strs texts) ∧ ∀ text ∈ texts, check text = true := by
  have items : textList ms key check fault = .ok texts ↔ ∃ list, ms.get? key = some (.arr list) ∧
      List.Forall₂ (fun item text => item = .str text ∧ check text = true) list texts := by
    simp only [textList, Outcome.bind_ok, Outcome.within_ok, arrayField_ok]
    refine exists_congr fun list => and_congr_right fun _ => eachFrom_iff fun item _ text => ?_
    cases item with
    | str own =>
        dsimp only
        by_cases passes : check own = true
        · simp only [passes, if_true, Except.ok.injEq, Json.str.injEq]
          constructor
          · rintro rfl
            exact ⟨rfl, passes⟩
          · exact fun both => both.1
        · simp only [passes, if_false, fail, reduceCtorEq, Json.str.injEq, false_iff, not_and]
          rintro rfl
          exact passes
    | null | bool _ | num _ | arr _ | obj _ => simp [fail]
  rw [items]
  constructor
  · rintro ⟨list, found, related⟩
    have texts : list = texts.map Json.str := by
      clear found items
      induction related with
      | nil => rfl
      | cons first _ ih => rw [first.1, ih, List.map_cons]
    subst texts
    refine ⟨found, ?_⟩
    exact forall_of_forall₂ related fun _ _ both => both.2
  · rintro ⟨found, pass⟩
    refine ⟨_, found, ?_⟩
    rw [List.forall₂_map_left_iff, List.forall₂_same]
    exact fun text member => ⟨rfl, pass text member⟩

theorem safe_of_asn {i : Int} (bits : 0 ≤ i ∧ i ≤ maxAsn) : i.natAbs ≤ Number.maxSafe := by
  unfold maxAsn at bits
  unfold Number.maxSafe
  omega

theorem asn?_some {item : Json} {asn : Int} :
    asn? item = some asn ↔ item = .int asn ∧ 0 ≤ asn ∧ asn ≤ maxAsn := by
  cases item with
  | num n =>
      simp only [asn?, Option.filter_eq_some_iff, toInt?_some, decide_eq_true_eq, Json.int,
        Json.num.injEq]
      refine and_congr_left fun bits => ?_
      rw [Number.ofInt_safe (safe_of_asn bits)]
  | null | bool _ | str _ | arr _ | obj _ => simp [asn?, Json.int]

/-- AS numbers have 32 bits. -/
def AreAsns (list : List Int) : Prop := ∀ asn ∈ list, 0 ≤ asn ∧ asn ≤ maxAsn

instance (list : List Int) : Decidable (AreAsns list) :=
  inferInstanceAs (Decidable (∀ asn ∈ list, 0 ≤ asn ∧ asn ≤ maxAsn))

theorem asnList_ok {list : List Int} :
    asnList ms key = .ok list ↔ ms.get? key = some (asns list) ∧ AreAsns list := by
  have listed : asnList ms key = .ok list ↔ ∃ items, ms.get? key = some (.arr items) ∧
      List.Forall₂ (fun item asn => asn? item = some asn) items list := by
    simp only [asnList, Outcome.bind_ok, Outcome.within_ok, arrayField_ok]
    refine exists_congr fun items => and_congr_right fun _ => eachFrom_iff fun item _ asn => ?_
    cases asn? item <;> simp [fail]
  rw [listed]
  constructor
  · rintro ⟨items, found, related⟩
    have numbers : items = list.map Json.int := by
      clear found listed
      induction related with
      | nil => rfl
      | cons first _ ih => rw [(asn?_some.mp first).1, ih, List.map_cons]
    subst numbers
    refine ⟨found, fun asn member => ?_⟩
    rw [List.forall₂_map_left_iff, List.forall₂_same] at related
    exact (asn?_some.mp (related asn member)).2
  · rintro ⟨found, bits⟩
    refine ⟨_, found, ?_⟩
    rw [List.forall₂_map_left_iff, List.forall₂_same]
    exact fun asn member => asn?_some.mpr ⟨rfl, bits asn member⟩

theorem className_ok {tag : String} : className ms = .ok tag ↔
    ∃ name, ms.get? "class" = some (.str name) ∧ lastSegment name = tag := by
  simp only [className, Outcome.bind_ok, stringField_ok, Except.ok.injEq]

theorem child_iff {read : Json → Outcome α} {a : α} :
    child ms key (fun value _ => read value) = .ok a ↔
      ∃ value, ms.get? key = some value ∧ read value = .ok a := by
  unfold child
  split
  · rename_i value found
    simp [Outcome.within_ok, found]
  · rename_i missing
    simp [fail, missing]

theorem operands_iff {read : Json → Outcome α} {xs : List α} :
    operands ms key (fun value _ => read value) = .ok xs ↔ xs ≠ [] ∧ ∃ items,
      ms.get? key = some (.arr items) ∧
        List.Forall₂ (fun item x => read item = .ok x) items xs := by
  unfold operands child
  split
  · rename_i value found
    rw [Outcome.within_ok]
    cases value with
    | arr items =>
        cases items with
        | nil => simp [fail, found]
        | cons item rest =>
            dsimp only
            rw [each, eachFrom_iff (R := fun item x => read item = .ok x) fun _ _ _ => Iff.rfl]
            simp only [found, Option.some.injEq, Json.arr.injEq, exists_eq_left']
            constructor
            · intro related
              refine ⟨?_, related⟩
              rintro rfl
              cases related
            · exact fun both => both.2
    | null | bool _ | num _ | str _ | obj _ => simp [fail, found]
  · rename_i missing
    simp [fail, missing]

theorem checkedText_iff {check : String → Bool} {fault : String → EncodingFault} {text : String} :
    checkedText ms key check fault = .ok text ↔
      ms.get? key = some (.str text) ∧ check text = true := by
  simp only [checkedText, Outcome.bind_ok, stringField_ok]
  constructor
  · rintro ⟨own, found, same⟩
    split at same
    · rename_i passes
      cases same
      exact ⟨found, passes⟩
    · cases same
  · rintro ⟨found, passes⟩
    exact ⟨text, found, if_pos passes⟩

/-! ### Words -/

/-- The word for a truth value. -/
def truthName (value : Bool) : String := if value then "True" else "False"

theorem readBoolean_ok {value : Bool} :
    readBoolean ms = .ok value ↔ ms.get? "type" = some (.str (truthName value)) := by
  simp only [readBoolean, Outcome.bind_ok, stringField_ok]
  constructor
  · rintro ⟨word, found, same⟩
    split at same <;> cases same <;> exact found
  · intro found
    refine ⟨_, found, ?_⟩
    cases value <;> rfl

theorem attribute_ofName? {word : String} {name : Attribute} :
    Attribute.ofName? word = some name ↔ name.name = word := by
  constructor
  · intro found
    simpa [Attribute.ofName?] using List.find?_some found
  · rintro rfl
    cases name <;> decide

theorem comparator_ofName? {word : String} {comparator : Comparator} :
    Comparator.ofName? word = some comparator ↔ comparator.name = word := by
  constructor
  · intro found
    simpa [Comparator.ofName?] using List.find?_some found
  · rintro rfl
    cases comparator <;> decide

theorem ending?_some {word : String} {disposition : Disposition} :
    ending? word = some disposition ↔ endingName disposition = word := by
  constructor
  · intro found
    simpa [ending?] using List.find?_some found
  · rintro rfl
    cases disposition <;> decide

theorem exprTag_ofName? {word : String} {tag : ExprTag} :
    ExprTag.ofName? word = some tag ↔ tag.name = word := by
  constructor
  · intro found
    simpa [ExprTag.ofName?] using List.find?_some found
  · rintro rfl
    cases tag <;> decide

theorem setTag_ofName? {word : String} {tag : SetTag} :
    SetTag.ofName? word = some tag ↔ tag.name = word := by
  constructor
  · intro found
    simpa [SetTag.ofName?] using List.find?_some found
  · rintro rfl
    cases tag <;> decide

theorem statementTag_ofName? {word : String} {tag : StatementTag} :
    StatementTag.ofName? word = some tag ↔ tag.name = word := by
  constructor
  · intro found
    simpa [StatementTag.ofName?] using List.find?_some found
  · rintro rfl
    cases tag with
    | assign target => cases target <;> decide
    | branch | finish => decide

theorem readAttribute_ok {name : Attribute} :
    readAttribute ms = .ok name ↔ ms.get? "attribute" = some (.str name.name) := by
  simp only [readAttribute, Outcome.bind_ok, stringField_ok]
  constructor
  · rintro ⟨word, found, same⟩
    split at same
    · rename_i known
      cases same
      rw [found, attribute_ofName?.mp known]
    · cases same
  · intro found
    refine ⟨_, found, ?_⟩
    rw [attribute_ofName?.mpr rfl]

theorem readComparator_ok {comparator : Comparator} :
    readComparator ms = .ok comparator ↔ ms.get? "comparator" = some (.str comparator.name) := by
  simp only [readComparator, Outcome.bind_ok, stringField_ok]
  constructor
  · rintro ⟨word, found, same⟩
    split at same
    · rename_i known
      cases same
      rw [found, comparator_ofName?.mp known]
    · cases same
  · intro found
    refine ⟨_, found, ?_⟩
    rw [comparator_ofName?.mpr rfl]

theorem readEnding_ok {disposition : Disposition} :
    readEnding ms = .ok disposition ↔ ms.get? "type" = some (.str (endingName disposition)) := by
  simp only [readEnding, Outcome.bind_ok, stringField_ok]
  constructor
  · rintro ⟨word, found, same⟩
    split at same
    · rename_i known
      cases same
      rw [found, ending?_some.mp known]
    · cases same
  · intro found
    refine ⟨_, found, ?_⟩
    rw [ending?_some.mpr rfl]

/-- The member that holds a comment, if there is one. -/
def commentMember : Comment → Option Json
  | .absent => none
  | .null => some .null
  | .text words => some (.str words)

theorem readComment_ok {comment : Comment} :
    readComment ms = .ok comment ↔ ms.get? "comment" = commentMember comment := by
  unfold readComment
  split
  · rename_i missing
    cases comment <;> simp [missing, commentMember]
  · rename_i null
    cases comment <;> simp [null, commentMember]
  · rename_i words found
    cases comment <;> simp [found, commentMember]
  · rename_i value notNull notText found
    cases comment <;> simp_all [failAt, Outcome.within, fail, Except.mapError, commentMember]

/-! ### Objects of a class -/

/-- What an object of a class encodes as a set of networks. -/
def NetworkSet.Encodes (ms : Table Json) : SetTag → NetworkSet → Prop
  | .explicit, set => ∃ texts, (ms.get? "prefixSpace" = some (.strs texts) ∧
      ∀ text ∈ texts, (NetworkRange.parse? text).isSome = true) ∧ .ranges texts (spelling ms) = set
  | .named, set => ∃ name, ms.get? "name" = some (.str name) ∧ .list name (spelling ms) = set

theorem NetworkSet.read_ok {j : Json} {set : NetworkSet} : NetworkSet.read j = .ok set ↔
    ∃ (ms : Table Json) (name : String) (tag : SetTag), j = .obj ms ∧
      (Json.obj ms).isFinite = true ∧ ms.get? "class" = some (.str name) ∧
        tag.name = lastSegment name ∧ NetworkSet.Encodes ms tag set := by
  simp only [NetworkSet.read, Outcome.bind_ok, members_ok, className_ok]
  constructor
  · rintro ⟨ms, ⟨rfl, finite⟩, _, ⟨name, cls, rfl⟩, read⟩
    cases known : SetTag.ofName? (lastSegment name) with
    | none =>
        rw [known] at read
        cases read
    | some tag =>
        refine ⟨ms, name, tag, rfl, finite, cls, setTag_ofName?.mp known, ?_⟩
        cases tag <;> simpa only [known, Outcome.bind_ok, textList_ok, stringField_ok,
          Except.ok.injEq, NetworkSet.Encodes] using read
  · rintro ⟨ms, name, tag, rfl, finite, cls, known, encoded⟩
    refine ⟨ms, ⟨rfl, finite⟩, _, ⟨name, cls, rfl⟩, ?_⟩
    rw [setTag_ofName?.mpr known]
    cases tag <;> simpa only [Outcome.bind_ok, textList_ok, stringField_ok, Except.ok.injEq,
      NetworkSet.Encodes] using encoded

/-- A member that encodes an expression. -/
def Child (keep : Bool) (ms : Table Json) (key : String) (e : Expr) : Prop :=
  ∃ value, ms.get? key = some value ∧ readExpr keep value = .ok e

/-- A member that encodes operands. -/
def Operands (keep : Bool) (ms : Table Json) (key : String) (es : List Expr) : Prop :=
  es ≠ [] ∧ ∃ items, ms.get? key = some (.arr items) ∧
    List.Forall₂ (fun item e => readExpr keep item = .ok e) items es

/-- A member that holds a safe integer. -/
def Whole (ms : Table Json) (key : String) (i : Int) : Prop :=
  ms.get? key = some (.int i) ∧ i.natAbs ≤ Number.maxSafe

/-- A member that holds AS numbers. -/
def Asns (ms : Table Json) (key : String) (list : List Int) : Prop :=
  ms.get? key = some (asns list) ∧ AreAsns list

/-- What an object of a class encodes as an expression. -/
def Encodes (keep : Bool) (ms : Table Json) : ExprTag → Expr → Prop
  | .boolean, e => ∃ value, ms.get? "type" = some (.str (truthName value)) ∧
      .lit (spelling ms) (.bool value) = e
  | .integer, e => ∃ value, Whole ms "value" value ∧ .lit (spelling ms) (.int value) = e
  | .ref, e => ∃ name : Attribute, ms.get? "attribute" = some (.str name.name) ∧
      .attr (spelling ms) name = e
  | .all, e => ∃ es, Operands keep ms "conjuncts" es ∧ .junction (spelling ms) .all es = e
  | .any, e => ∃ es, Operands keep ms "disjuncts" es ∧ .junction (spelling ms) .any es = e
  | .not, e => ∃ operand, Child keep ms "expr" operand ∧ .not (spelling ms) operand = e
  | .compare, e => ∃ comparator : Comparator,
      ms.get? "comparator" = some (.str comparator.name) ∧ ∃ left, Child keep ms "left" left ∧
        ∃ right, Child keep ms "right" right ∧ .compare (spelling ms) comparator left right = e
  | .hasCommunity, e => ∃ community,
      (ms.get? "community" = some (.str community) ∧ isCommunity community = true) ∧
        ∃ subject, Child keep ms "communitySetExpr" subject ∧
          .hasCommunity (spelling ms) subject community = e
  | .matchNetworks, e => ∃ subject, Child keep ms "prefix" subject ∧
      ∃ set, (∃ value, ms.get? "prefixSet" = some value ∧ NetworkSet.read value = .ok set) ∧
        set.toExpr (spelling ms) subject = e
  | .communities, e => ∃ texts, (ms.get? "communitySet" = some (.strs texts) ∧
      ∀ text ∈ texts, isCommunity text = true) ∧ .lit (spelling ms) (.communities texts) = e
  | .union, e => ∃ es, Operands keep ms "exprs" es ∧ .union (spelling ms) es = e
  | .address, e => ∃ text, (ms.get? "ip" = some (.str text) ∧
      (Address.parse? text).isSome = true) ∧ .lit (spelling ms) (.address text) = e
  | .network, e => ∃ text, (ms.get? "prefix" = some (.str text) ∧
      (Network.parseWithLength? text).isSome = true) ∧ .lit (spelling ms) (.network text) = e
  | .asPath, e => ∃ list, Asns ms "asns" list ∧ .lit (spelling ms) (.asPath list) = e
  | .prepend, e => ∃ list, Asns ms "asns" list ∧ ∃ operand, Child keep ms "expr" operand ∧
      .prepend (spelling ms) list operand = e
  | .call, e => ∃ policy, ms.get? "calledPolicyName" = some (.str policy) ∧
      .call (spelling ms) policy = e
  | .increment, e => ∃ amount, (0 ≤ amount ∧ Whole ms "addend" amount) ∧
      .adjust (spelling ms) .increment amount = e
  | .decrement, e => ∃ amount, (0 ≤ amount ∧ Whole ms "subtrahend" amount) ∧
      .adjust (spelling ms) .decrement amount = e
  | .namedSet, e => ∃ name, ms.get? "name" = some (.str name) ∧ .namedSet (spelling ms) name = e

/-- Expressions are read from objects that name their class. -/
theorem readExpr_object {keep : Bool} {j : Json} {e : Expr} (read : readExpr keep j = .ok e) :
    ∃ (ms : Table Json) (name : String), j = .obj ms ∧ (Json.obj ms).isFinite = true ∧
      ms.get? "class" = some (.str name) := by
  unfold readExpr at read
  split at read
  · rename_i ms
    split at read
    · rename_i finite
      obtain ⟨tag, found, _⟩ := Outcome.bind_ok.mp read
      obtain ⟨name, cls, _⟩ := className_ok.mp found
      exact ⟨ms, name, rfl, finite, cls⟩
    · cases read
  · cases read

section

variable {keep : Bool} {name : String}

/-- An object of a known class is read as what it encodes. -/
theorem readExpr_known (finite : (Json.obj ms).isFinite = true)
    (cls : ms.get? "class" = some (.str name)) {tag : ExprTag} (known : tag.name = lastSegment name)
    {e : Expr} : readExpr keep (.obj ms) = .ok e ↔ Encodes keep ms tag e := by
  have classed : className ms = .ok tag.name := className_ok.mpr ⟨name, cls, known.symm⟩
  have found : ExprTag.ofName? tag.name = some tag := exprTag_ofName?.mpr rfl
  rw [readExpr, if_pos finite, classed, Outcome.bind_ok]
  simp only [Except.ok.injEq, exists_eq_left', found]
  cases tag <;> simp only [Outcome.bind_ok, Except.ok.injEq, Encodes, Child, Operands, Whole, Asns,
    child_iff, operands_iff, checkedText_iff, textList_ok, asnList_ok, integerField_ok,
    amountField_ok, stringField_ok, readBoolean_ok, readAttribute_ok, readComparator_ok]

/-- An object of another class is kept as it is, or refused. -/
theorem readExpr_other (finite : (Json.obj ms).isFinite = true)
    (cls : ms.get? "class" = some (.str name)) (other : ExprTag.ofName? (lastSegment name) = none)
    {e : Expr} : readExpr keep (.obj ms) = .ok e ↔
      keep = true ∧ .unsupported (lastSegment name) (.obj ms) = e := by
  have classed : className ms = .ok (lastSegment name) := className_ok.mpr ⟨name, cls, rfl⟩
  rw [readExpr, if_pos finite, classed, Outcome.bind_ok]
  simp only [Except.ok.injEq, exists_eq_left', other]
  cases keep <;> simp [fail]

end

/-- A member that encodes a block of statements. -/
def Block (keep : Bool) (ms : Table Json) (key : String) (block : List Statement) : Prop :=
  ∃ items, ms.get? key = some (.arr items) ∧
    List.Forall₂ (fun item s => readStatement keep item = .ok s) items block

/-- What an object of a class encodes as a statement. -/
def StatementEncodes (keep : Bool) (ms : Table Json) : StatementTag → Statement → Prop
  | .branch, s => ∃ comment, ms.get? "comment" = commentMember comment ∧
      ∃ guard, Child keep ms "guard" guard ∧ ∃ onTrue, Block keep ms "trueStatements" onTrue ∧
        ∃ onFalse, Block keep ms "falseStatements" onFalse ∧
          .branch (spelling ms) guard onTrue onFalse comment = s
  | .finish, s => ∃ disposition, ms.get? "type" = some (.str (endingName disposition)) ∧
      .finish (spelling ms) disposition = s
  | .assign target, s => ∃ value, Child keep ms (valueKey target) value ∧
      .assign (spelling ms) target value = s

theorem block_iff {j : Json} {read : Json → Outcome α} {xs : List α} :
    block j (fun item _ => read item) = .ok xs ↔
      ∃ items, j = .arr items ∧ List.Forall₂ (fun item x => read item = .ok x) items xs := by
  unfold block
  cases j with
  | arr items =>
      have item : ∀ item (_ : item ∈ items) x, read item = .ok x ↔ read item = .ok x :=
        fun _ _ _ => Iff.rfl
      simp [each, eachFrom_iff item]
  | null | bool _ | num _ | str _ | obj _ => simp [fail]

section

variable {keep : Bool} {name : String}

/-- Statements are read from objects that name their class. -/
theorem readStatement_object {j : Json} {s : Statement} (read : readStatement keep j = .ok s) :
    ∃ (ms : Table Json) (name : String) (tag : StatementTag), j = .obj ms ∧
      (Json.obj ms).isFinite = true ∧ ms.get? "class" = some (.str name) ∧
        tag.name = lastSegment name := by
  unfold readStatement at read
  split at read
  · rename_i ms
    split at read
    · rename_i finite
      obtain ⟨word, found, read⟩ := Outcome.bind_ok.mp read
      obtain ⟨name, cls, rfl⟩ := className_ok.mp found
      cases known : StatementTag.ofName? (lastSegment name) with
      | none =>
          simp only [known] at read
          cases read
      | some tag => exact ⟨ms, name, tag, rfl, finite, cls, statementTag_ofName?.mp known⟩
    · cases read
  · cases read

/-- An object of a known class is read as what it encodes. -/
theorem readStatement_known (finite : (Json.obj ms).isFinite = true)
    (cls : ms.get? "class" = some (.str name)) {tag : StatementTag}
    (known : tag.name = lastSegment name) {s : Statement} :
    readStatement keep (.obj ms) = .ok s ↔ StatementEncodes keep ms tag s := by
  have classed : className ms = .ok tag.name := className_ok.mpr ⟨name, cls, known.symm⟩
  have found : StatementTag.ofName? tag.name = some tag := statementTag_ofName?.mpr rfl
  have blocks : ∀ key list, child ms key (fun value _ =>
      block value fun item _ => readStatement keep item) = .ok list ↔ Block keep ms key list := by
    intro key list
    simp only [child_iff, block_iff]
    constructor
    · rintro ⟨_, found, items, rfl, related⟩
      exact ⟨items, found, related⟩
    · rintro ⟨items, found, related⟩
      exact ⟨_, found, items, rfl, related⟩
  rw [readStatement, if_pos finite, classed, Outcome.bind_ok]
  simp only [Except.ok.injEq, exists_eq_left', found]
  cases tag <;> simp only [Outcome.bind_ok, Except.ok.injEq, StatementEncodes, blocks, child_iff,
    Child, readComment_ok, readEnding_ok]

/-- A policy is read from an object with a name and a block. -/
theorem readPolicy_ok {j : Json} {p : Policy} : readPolicy keep j = .ok p ↔
    ∃ ms : Table Json, j = .obj ms ∧ (Json.obj ms).isFinite = true ∧
      ms.get? "name" = some (.str p.name) ∧ Block keep ms "statements" p.statements := by
  simp only [readPolicy, Outcome.bind_ok, members_ok, stringField_ok, child_iff, readStatements,
    block_iff]
  constructor
  · rintro ⟨ms, ⟨rfl, finite⟩, name, named, block, ⟨value, found, items, rfl, related⟩, same⟩
    cases same
    exact ⟨ms, rfl, finite, named, items, found, related⟩
  · rintro ⟨ms, rfl, finite, named, items, found, related⟩
    exact ⟨ms, ⟨rfl, finite⟩, p.name, named, p.statements, ⟨_, found, items, rfl, related⟩, rfl⟩

end

end Encoding

end RoutePolicy
