import RoutePolicy.Proofs.FailedReads
import RoutePolicy.Proofs.Writing

/-!
The grammar of the service's encoding, said apart from its readers: which members an object of each
class has, and which form their values take. Other members do not matter. The readers accept exactly
the documents of the grammar.
-/

set_option autoImplicit false

namespace RoutePolicy

namespace Encoding

/-! ### Forms of values -/

/-- The kinds of objects in the document of a policy. -/
inductive Category where
  | policy
  | statement
  | expression
  | networks

/-- The form of a value; a filled list has at least one item. -/
inductive Form where
  | text (written : String → Prop)
  | whole (low high : Int)
  | list (item : Form)
  | filled (item : Form)
  | nullable (form : Form)
  | object (category : Category)

namespace Form

def anyText : Form := text fun _ => True

def word (words : List String) : Form := text (· ∈ words)

def community : Form := text fun t => CommunityWritten t.toList

def address : Form := text fun t => ∃ a, Address.Written t.toList a

def network : Form := text fun t => ∃ n, Network.Written t.toList n

def range : Form := text fun t => ∃ r, NetworkRange.Written t.toList r

/-- Integers that a double tells from their neighbours, up to `2 ^ 53 - 1`. -/
def safeInteger : Form := whole (-9007199254740991) 9007199254740991

def amount : Form := whole 0 9007199254740991

/-- AS numbers have 32 bits. -/
def asn : Form := whole 0 4294967295

def expression : Form := object .expression

end Form

/-- A member of an object, and whether the object must have it. -/
structure Part where
  key : String
  form : Form
  needed : Bool

def required (key : String) (form : Form) : Part := ⟨key, form, true⟩

def optional (key : String) (form : Form) : Part := ⟨key, form, false⟩

/-! ### Productions -/

def ExprTag.parts : ExprTag → List Part
  | boolean => [required "type" (.word ["True", "False"])]
  | integer => [required "value" .safeInteger]
  | ref => [required "attribute" (.word ["prefix", "nextHop", "communities", "localPreference",
      "metric", "weight", "tag", "asPath"])]
  | all => [required "conjuncts" (.filled .expression)]
  | any => [required "disjuncts" (.filled .expression)]
  | not => [required "expr" .expression]
  | compare => [required "comparator" (.word ["EQ", "GE", "GT", "LE", "LT"]),
      required "left" .expression, required "right" .expression]
  | hasCommunity => [required "community" .community, required "communitySetExpr" .expression]
  | matchNetworks => [required "prefix" .expression, required "prefixSet" (.object .networks)]
  | communities => [required "communitySet" (.list .community)]
  | union => [required "exprs" (.filled .expression)]
  | address => [required "ip" .address]
  | network => [required "prefix" .network]
  | asPath => [required "asns" (.list .asn)]
  | prepend => [required "asns" (.list .asn), required "expr" .expression]
  | call => [required "calledPolicyName" .anyText]
  | increment => [required "addend" .amount]
  | decrement => [required "subtrahend" .amount]
  | namedSet => [required "name" .anyText]

def SetTag.parts : SetTag → List Part
  | explicit => [required "prefixSpace" (.list .range)]
  | named => [required "name" .anyText]

def StatementTag.parts : StatementTag → List Part
  | branch => [optional "comment" (.nullable .anyText), required "guard" .expression,
      required "trueStatements" (.list (.object .statement)),
      required "falseStatements" (.list (.object .statement))]
  | finish => [required "type" (.word ["ExitAccept", "ExitReject", "FallThrough"])]
  | assign target => [required (valueKey target) .expression]

/-- The class of an object: its name counts behind the last point, and there behind the last dollar
sign. -/
def Classed (ms : Table Json) (tag : String) : Prop :=
  ∃ name segment, ms.get? "class" = some (.str name) ∧ Text.Drops '.' name.toList segment ∧
    Text.Drops '$' segment tag.toList

/-- The parts an object of a category may be made of. Policies have no classes. -/
inductive Category.Production (ms : Table Json) : Category → List Part → Prop
  | policy : Production ms .policy
      [required "name" .anyText, required "statements" (.list (.object .statement))]
  | statement (tag : StatementTag) (cls : Classed ms tag.name) : Production ms .statement tag.parts
  | expression (tag : ExprTag) (cls : Classed ms tag.name) : Production ms .expression tag.parts
  | networks (tag : SetTag) (cls : Classed ms tag.name) : Production ms .networks tag.parts

/-- Derivations of the grammar: which values have a form. -/
inductive Derives : Form → Json → Prop
  | text {written : String → Prop} {t : String} (suits : written t) :
      Derives (.text written) (.str t)
  | whole {low high i : Int} (above : low ≤ i) (below : i ≤ high) :
      Derives (.whole low high) (.num (.finite i))
  | list {item : Form} {items : List Json} (each : ∀ j ∈ items, Derives item j) :
      Derives (.list item) (.arr items)
  | filled {item : Form} {items : List Json} (some : items ≠ [])
      (each : ∀ j ∈ items, Derives item j) : Derives (.filled item) (.arr items)
  | null {form : Form} : Derives (.nullable form) .null
  | present {form : Form} {j : Json} (value : Derives form j) : Derives (.nullable form) j
  | object {category : Category} {ms : Table Json} {parts : List Part}
      (production : category.Production ms parts)
      (complete : ∀ part ∈ parts, part.needed = true → (ms.get? part.key).isSome = true)
      (each : ∀ part ∈ parts, ∀ value, ms.get? part.key = some value → Derives part.form value) :
      Derives (.object category) (.obj ms)

/-! ### What the readers accept -/

def Category.Reads : Category → Json → Prop
  | policy, j => ∃ p, readPolicy false j = .ok p
  | statement, j => ∃ s, readStatement false j = .ok s
  | expression, j => ∃ e, readExpr false j = .ok e
  | networks, j => ∃ set, NetworkSet.read j = .ok set

/-- The values that the readers accept where a form is expected. -/
def Form.Reads : Form → Json → Prop
  | text written, j => ∃ t, j = .str t ∧ written t
  | whole low high, j => ∃ i : Int, j = .num (.finite i) ∧ low ≤ i ∧ i ≤ high
  | list item, j => ∃ items, j = .arr items ∧ ∀ value ∈ items, item.Reads value
  | filled item, j => ∃ items, j = .arr items ∧ items ≠ [] ∧ ∀ value ∈ items, item.Reads value
  | nullable form, j => j = .null ∨ form.Reads j
  | object category, j => category.Reads j

def Part.Reads (ms : Table Json) (part : Part) : Prop :=
  (part.needed = true → (ms.get? part.key).isSome = true) ∧
    ∀ value, ms.get? part.key = some value → part.form.Reads value

variable {ms : Table Json} {key : String} {written : String → Prop}

theorem reads_required {form : Form} : (required key form).Reads ms ↔
    ∃ value, ms.get? key = some value ∧ form.Reads value := by
  unfold required Part.Reads
  cases ms.get? key <;> simp

theorem reads_text : (required key (.text written)).Reads ms ↔
    ∃ t, ms.get? key = some (.str t) ∧ written t := by
  rw [reads_required]
  constructor
  · rintro ⟨_, found, t, rfl, suits⟩
    exact ⟨t, found, suits⟩
  · rintro ⟨t, found, suits⟩
    exact ⟨_, found, t, rfl, suits⟩

theorem reads_expression : (required key .expression).Reads ms ↔ ∃ e, Child false ms key e := by
  rw [reads_required]
  constructor
  · rintro ⟨value, found, e, read⟩
    exact ⟨e, value, found, read⟩
  · rintro ⟨e, value, found, read⟩
    exact ⟨value, found, e, read⟩

/-- A list can be read if each of its items can. -/
theorem exists_forall₂_iff {α β : Type} {R : α → β → Prop} {as : List α} :
    (∃ bs, List.Forall₂ R as bs) ↔ ∀ a ∈ as, ∃ b, R a b := by
  induction as with
  | nil => simp
  | cons a rest ih => simp [List.forall₂_cons_left_iff, ← ih]

theorem reads_operands : (required key (.filled .expression)).Reads ms ↔
    ∃ es, Operands false ms key es := by
  rw [reads_required]
  constructor
  · rintro ⟨_, found, items, rfl, some, each⟩
    obtain ⟨es, related⟩ := exists_forall₂_iff.mpr each
    refine ⟨es, ?_, items, found, related⟩
    rintro rfl
    cases related
    exact some rfl
  · rintro ⟨es, some, items, found, related⟩
    refine ⟨_, found, items, rfl, ?_, exists_forall₂_iff.mp ⟨es, related⟩⟩
    rintro rfl
    cases related
    exact some rfl

theorem reads_block : (required key (.list (.object .statement))).Reads ms ↔
    ∃ block, Block false ms key block := by
  rw [reads_required]
  constructor
  · rintro ⟨_, found, items, rfl, each⟩
    obtain ⟨block, related⟩ := exists_forall₂_iff.mpr each
    exact ⟨block, items, found, related⟩
  · rintro ⟨block, items, found, related⟩
    exact ⟨_, found, items, rfl, exists_forall₂_iff.mp ⟨block, related⟩⟩

/-- A list of written values holds values of one kind. -/
theorem eq_map_iff {α : Type} {f : α → Json} {P : α → Prop} {items : List Json} :
    (∃ xs : List α, items = xs.map f ∧ ∀ x ∈ xs, P x) ↔ ∀ item ∈ items, ∃ x, item = f x ∧ P x := by
  induction items with
  | nil => simp
  | cons item rest ih =>
      rw [List.forall_mem_cons, ← ih]
      constructor
      · rintro ⟨xs, whole, each⟩
        cases xs with
        | nil => cases whole
        | cons x xs =>
            cases whole
            obtain ⟨here, later⟩ := List.forall_mem_cons.mp each
            exact ⟨⟨x, rfl, here⟩, xs, rfl, later⟩
      · rintro ⟨⟨x, rfl, here⟩, xs, rfl, later⟩
        exact ⟨x :: xs, rfl, List.forall_mem_cons.mpr ⟨here, later⟩⟩

theorem reads_texts : (required key (.list (.text written))).Reads ms ↔
    ∃ texts, ms.get? key = some (.strs texts) ∧ ∀ t ∈ texts, written t := by
  rw [reads_required]
  constructor
  · rintro ⟨_, found, items, rfl, each⟩
    obtain ⟨texts, rfl, suit⟩ := eq_map_iff.mpr each
    exact ⟨texts, found, suit⟩
  · rintro ⟨texts, found, suit⟩
    exact ⟨_, found, _, rfl, eq_map_iff.mp ⟨texts, rfl, suit⟩⟩

/-- Integers up to the safe ones are written as they are. -/
theorem whole_reads {low high : Int} (lowest : -9007199254740991 ≤ low)
    (highest : high ≤ 9007199254740991) {j : Json} :
    (Form.whole low high).Reads j ↔ ∃ i, j = .int i ∧ low ≤ i ∧ i ≤ high := by
  refine exists_congr fun i => and_congr_left fun bounds => ?_
  have safe : i.natAbs ≤ Number.maxSafe := by
    unfold Number.maxSafe
    omega
  rw [Json.int, Number.ofInt_safe safe]

theorem reads_whole {low high : Int} (lowest : -9007199254740991 ≤ low)
    (highest : high ≤ 9007199254740991) : (required key (.whole low high)).Reads ms ↔
      ∃ i, ms.get? key = some (.int i) ∧ low ≤ i ∧ i ≤ high := by
  rw [reads_required]
  constructor
  · rintro ⟨_, found, read⟩
    obtain ⟨i, rfl, bounds⟩ := (whole_reads lowest highest).mp read
    exact ⟨i, found, bounds⟩
  · rintro ⟨i, found, bounds⟩
    exact ⟨_, found, (whole_reads lowest highest).mpr ⟨i, rfl, bounds⟩⟩

theorem reads_safeInteger : (required key .safeInteger).Reads ms ↔ ∃ i, Whole ms key i := by
  refine (reads_whole (by decide) (by decide)).trans (exists_congr fun i => ?_)
  refine and_congr_right fun _ => ?_
  unfold Number.maxSafe
  omega

theorem reads_amount : (required key .amount).Reads ms ↔ ∃ i, 0 ≤ i ∧ Whole ms key i := by
  refine (reads_whole (by decide) (by decide)).trans (exists_congr fun i => ?_)
  rw [Whole, and_left_comm]
  refine and_congr_right fun nonnegative => and_congr_right fun _ => ?_
  unfold Number.maxSafe
  omega

theorem reads_asns : (required key (.list .asn)).Reads ms ↔ ∃ list, Asns ms key list := by
  rw [reads_required]
  constructor
  · rintro ⟨_, found, items, rfl, each⟩
    obtain ⟨list, rfl, bits⟩ := eq_map_iff.mpr fun item member =>
      (whole_reads (by decide) (by decide)).mp (each item member)
    exact ⟨list, found, bits⟩
  · rintro ⟨list, found, bits⟩
    refine ⟨_, found, _, rfl, fun item member => ?_⟩
    exact (whole_reads (by decide) (by decide)).mpr (eq_map_iff.mp ⟨list, rfl, bits⟩ item member)

/-! ### Vocabularies and formats -/

/-- A vocabulary is read as the values its words stand for. -/
theorem reads_word {α : Type} (name : α → String) {all : List α} (complete : ∀ a, a ∈ all) :
    (required key (.word (all.map name))).Reads ms ↔ ∃ a, ms.get? key = some (.str (name a)) := by
  rw [Form.word, reads_text]
  constructor
  · rintro ⟨t, found, member⟩
    obtain ⟨a, -, rfl⟩ := List.mem_map.mp member
    exact ⟨a, found⟩
  · rintro ⟨a, found⟩
    exact ⟨_, found, List.mem_map_of_mem (complete a)⟩

theorem reads_truth : (required key (.word ["True", "False"])).Reads ms ↔
    ∃ value, ms.get? key = some (.str (truthName value)) :=
  reads_word truthName
    (fun value => by cases value <;> decide : ∀ value, value ∈ [true, false])

theorem reads_attribute :
    (required key (.word ["prefix", "nextHop", "communities", "localPreference", "metric", "weight",
      "tag", "asPath"])).Reads ms ↔ ∃ name : Attribute, ms.get? key = some (.str name.name) :=
  reads_word Attribute.name Attribute.mem_all

theorem reads_comparator :
    (required key (.word ["EQ", "GE", "GT", "LE", "LT"])).Reads ms ↔
      ∃ comparator : Comparator, ms.get? key = some (.str comparator.name) :=
  reads_word Comparator.name
    (fun comparator => by cases comparator <;> decide : ∀ comparator, comparator ∈ Comparator.all)

theorem reads_ending :
    (required key (.word ["ExitAccept", "ExitReject", "FallThrough"])).Reads ms ↔
      ∃ disposition, ms.get? key = some (.str (endingName disposition)) :=
  reads_word endingName
    (fun ending => by cases ending <;> decide : ∀ ending, ending ∈ Disposition.all)

/-! A format is that of the texts which pass the reader's check. -/

theorem community_checked : Form.community = .text fun t => isCommunity t = true := by
  simp only [Form.community, isCommunity_iff]

theorem address_checked : Form.address = .text fun t => (Address.parse? t).isSome = true := by
  simp only [Form.address, Option.isSome_iff_exists, Address.parse?_eq_some]

theorem network_checked :
    Form.network = .text fun t => (Network.parseWithLength? t).isSome = true := by
  simp only [Form.network, Option.isSome_iff_exists, Network.parseWithLength?_eq_some]

theorem range_checked : Form.range = .text fun t => (NetworkRange.parse? t).isSome = true := by
  simp only [Form.range, Option.isSome_iff_exists, NetworkRange.parse?_eq_some]

theorem reads_anyText : (required key .anyText).Reads ms ↔ ∃ t, ms.get? key = some (.str t) := by
  simp only [Form.anyText, reads_text, and_true]

/-! ### Productions -/

/-- The class of an object is the last segment of its class name. -/
theorem classed_iff {tag : String} : Classed ms tag ↔
    ∃ name, ms.get? "class" = some (.str name) ∧ tag = lastSegment name := by
  unfold Classed
  refine exists_congr fun name => ?_
  simp only [← Text.afterLast_eq_iff, lastSegment]
  constructor
  · rintro ⟨_, found, rfl, last⟩
    refine ⟨found, ?_⟩
    rw [last, String.ofList_toList]
  · rintro ⟨found, rfl⟩
    exact ⟨_, found, rfl, String.toList_ofList.symm⟩

theorem reads_networks : (required key (.object .networks)).Reads ms ↔
    ∃ set value, ms.get? key = some value ∧ NetworkSet.read value = .ok set := by
  rw [reads_required]
  constructor
  · rintro ⟨value, found, set, read⟩
    exact ⟨set, value, found, read⟩
  · rintro ⟨set, value, found, read⟩
    exact ⟨value, found, set, read⟩

/-- Something is made of a part whenever the part is there and something is made with it. -/
theorem exists_made {α β : Type} {P : α → Prop} {Makes : α → β → Prop} :
    (∃ b a, P a ∧ Makes a b) ↔ ∃ a, P a ∧ ∃ b, Makes a b := by
  constructor
  · rintro ⟨b, a, part, made⟩
    exact ⟨a, part, b, made⟩
  · rintro ⟨a, part, b, made⟩
    exact ⟨b, a, part, made⟩

/-- The members that the reader of an object of a class asks for are the parts of the class. -/
theorem encodes_iff (tag : ExprTag) :
    (∃ e, Encodes false ms tag e) ↔ ∀ part ∈ tag.parts, part.Reads ms := by
  cases tag <;> simp only [ExprTag.parts, List.forall_mem_cons, List.not_mem_nil, false_imp_iff,
    implies_true, and_true, reads_truth, reads_safeInteger, reads_attribute, reads_operands,
    reads_expression, reads_comparator, reads_anyText, reads_amount, reads_asns, reads_networks,
    community_checked, address_checked, network_checked, reads_text, reads_texts, Encodes,
    exists_made, exists_eq', exists_and_right]

theorem NetworkSet.encodes_iff (tag : SetTag) :
    (∃ set, NetworkSet.Encodes ms tag set) ↔ ∀ part ∈ tag.parts, part.Reads ms := by
  cases tag <;> simp only [SetTag.parts, List.forall_mem_cons, List.not_mem_nil, false_imp_iff,
    implies_true, and_true, reads_anyText, range_checked, reads_texts, NetworkSet.Encodes,
    exists_made, exists_eq']

theorem reads_comment : (optional "comment" (.nullable .anyText)).Reads ms ↔
    ∃ comment, ms.get? "comment" = commentMember comment := by
  unfold optional Part.Reads
  constructor
  · rintro ⟨-, each⟩
    cases found : ms.get? "comment" with
    | none => exact ⟨.absent, rfl⟩
    | some value =>
        rcases each value found with rfl | ⟨words, rfl, -⟩
        · exact ⟨.null, rfl⟩
        · exact ⟨.text words, rfl⟩
  · rintro ⟨comment, found⟩
    refine ⟨by simp, fun value own => ?_⟩
    have same : commentMember comment = some value := found.symm.trans own
    cases comment with
    | absent => cases same
    | null =>
        cases same
        exact .inl rfl
    | text words =>
        cases same
        exact .inr ⟨words, rfl, trivial⟩

theorem statementEncodes_iff (tag : StatementTag) :
    (∃ s, StatementEncodes false ms tag s) ↔ ∀ part ∈ tag.parts, part.Reads ms := by
  cases tag <;> simp only [StatementTag.parts, List.forall_mem_cons, List.not_mem_nil,
    false_imp_iff, implies_true, and_true, reads_expression, reads_block, reads_comment, reads_ending,
    StatementEncodes, exists_made, exists_eq', exists_and_right]

/-! ### Accepted documents -/

/-- What is read as a category is an object. -/
theorem Category.Reads.object {category : Category} {j : Json} (read : category.Reads j) :
    ∃ ms : Table Json, j = .obj ms ∧ (Json.obj ms).isFinite = true := by
  cases category with
  | policy =>
      obtain ⟨p, read⟩ := read
      obtain ⟨ms, rfl, finite, -⟩ := readPolicy_ok.mp read
      exact ⟨ms, rfl, finite⟩
  | statement =>
      obtain ⟨s, read⟩ := read
      obtain ⟨ms, _, _, rfl, finite, -⟩ := readStatement_object read
      exact ⟨ms, rfl, finite⟩
  | expression =>
      obtain ⟨e, read⟩ := read
      obtain ⟨ms, _, rfl, finite, -⟩ := readExpr_object read
      exact ⟨ms, rfl, finite⟩
  | networks =>
      obtain ⟨set, read⟩ := read
      obtain ⟨ms, _, _, rfl, finite, -⟩ := NetworkSet.read_ok.mp read
      exact ⟨ms, rfl, finite⟩

section

variable (finite : (Json.obj ms).isFinite = true)

include finite

theorem readExpr_classed : (∃ e, readExpr false (.obj ms) = .ok e) ↔
    ∃ tag : ExprTag, Classed ms tag.name ∧ ∃ e, Encodes false ms tag e := by
  constructor
  · rintro ⟨e, read⟩
    obtain ⟨_, name, same, _, found⟩ := readExpr_object read
    cases same
    cases kind : ExprTag.ofName? (lastSegment name) with
    | none =>
        obtain ⟨kept, -⟩ := (readExpr_other finite found kind).mp read
        cases kept
    | some tag =>
        have known := exprTag_ofName?.mp kind
        exact ⟨tag, classed_iff.mpr ⟨name, found, known⟩, e,
          (readExpr_known finite found known).mp read⟩
  · rintro ⟨tag, cls, e, encoded⟩
    obtain ⟨name, found, known⟩ := classed_iff.mp cls
    exact ⟨e, (readExpr_known finite found known).mpr encoded⟩

theorem readStatement_classed : (∃ s, readStatement false (.obj ms) = .ok s) ↔
    ∃ tag : StatementTag, Classed ms tag.name ∧ ∃ s, StatementEncodes false ms tag s := by
  constructor
  · rintro ⟨s, read⟩
    obtain ⟨_, name, tag, same, _, found, known⟩ := readStatement_object read
    cases same
    exact ⟨tag, classed_iff.mpr ⟨name, found, known⟩, s,
      (readStatement_known finite found known).mp read⟩
  · rintro ⟨tag, cls, s, encoded⟩
    obtain ⟨name, found, known⟩ := classed_iff.mp cls
    exact ⟨s, (readStatement_known finite found known).mpr encoded⟩

theorem NetworkSet.read_classed : (∃ set, NetworkSet.read (.obj ms) = .ok set) ↔
    ∃ tag : SetTag, Classed ms tag.name ∧ ∃ set, NetworkSet.Encodes ms tag set := by
  constructor
  · rintro ⟨set, read⟩
    obtain ⟨_, name, tag, same, _, found, known, encoded⟩ := NetworkSet.read_ok.mp read
    cases same
    exact ⟨tag, classed_iff.mpr ⟨name, found, known⟩, set, encoded⟩
  · rintro ⟨tag, cls, set, encoded⟩
    obtain ⟨name, found, known⟩ := classed_iff.mp cls
    exact ⟨set, NetworkSet.read_ok.mpr ⟨ms, name, tag, rfl, finite, found, known, encoded⟩⟩

theorem readPolicy_parts : (∃ p, readPolicy false (.obj ms) = .ok p) ↔
    (∃ name, ms.get? "name" = some (.str name)) ∧ ∃ block, Block false ms "statements" block := by
  constructor
  · rintro ⟨p, read⟩
    obtain ⟨_, same, _, named, block⟩ := readPolicy_ok.mp read
    cases same
    exact ⟨⟨p.name, named⟩, p.statements, block⟩
  · rintro ⟨⟨name, named⟩, statements, block⟩
    exact ⟨⟨name, statements⟩, readPolicy_ok.mpr ⟨ms, rfl, finite, named, block⟩⟩

/-- An object is read as a category if it has the parts of one of its productions. -/
theorem Category.reads_obj (category : Category) : category.Reads (.obj ms) ↔
    ∃ parts, category.Production ms parts ∧ ∀ part ∈ parts, part.Reads ms := by
  cases category with
  | policy =>
      have parts : (∀ part ∈ [required "name" .anyText,
          required "statements" (.list (.object .statement))], part.Reads ms) ↔
            (∃ name, ms.get? "name" = some (.str name)) ∧
              ∃ block, Block false ms "statements" block := by
        simp only [List.forall_mem_cons, List.not_mem_nil, false_imp_iff, implies_true, and_true,
          reads_anyText, reads_block]
      rw [Reads, readPolicy_parts finite, ← parts]
      constructor
      · exact fun each => ⟨_, .policy, each⟩
      · rintro ⟨_, ⟨⟩, each⟩
        exact each
  | statement =>
      rw [Reads, readStatement_classed finite]
      simp only [statementEncodes_iff]
      constructor
      · rintro ⟨tag, cls, each⟩
        exact ⟨_, .statement tag cls, each⟩
      · rintro ⟨_, production, each⟩
        cases production with
        | statement tag cls => exact ⟨tag, cls, each⟩
  | expression =>
      rw [Reads, readExpr_classed finite]
      simp only [encodes_iff]
      constructor
      · rintro ⟨tag, cls, each⟩
        exact ⟨_, .expression tag cls, each⟩
      · rintro ⟨_, production, each⟩
        cases production with
        | expression tag cls => exact ⟨tag, cls, each⟩
  | networks =>
      rw [Reads, NetworkSet.read_classed finite]
      simp only [NetworkSet.encodes_iff]
      constructor
      · rintro ⟨tag, cls, each⟩
        exact ⟨_, .networks tag cls, each⟩
      · rintro ⟨_, production, each⟩
        cases production with
        | networks tag cls => exact ⟨tag, cls, each⟩

end

/-- What is derived is read where the numbers are finite. The induction is on the derivation. -/
theorem Derives.reads {form : Form} {j : Json} (derived : Derives form j)
    (finite : j.isFinite = true) : form.Reads j := by
  induction derived with
  | text suits => exact ⟨_, rfl, suits⟩
  | whole above below => exact ⟨_, rfl, above, below⟩
  | list _ ih =>
      exact ⟨_, rfl, fun value member => ih value member (Json.isFinite_arr.mp finite value member)⟩
  | filled some _ ih =>
      exact ⟨_, rfl, some,
        fun value member => ih value member (Json.isFinite_arr.mp finite value member)⟩
  | null => exact .inl rfl
  | present _ ih => exact .inr (ih finite)
  | @object category ms parts production complete _ ih =>
      refine (category.reads_obj finite).mpr ⟨parts, production, fun part member => ?_⟩
      refine ⟨complete part member, fun value found => ?_⟩
      exact ih part member value found ((Json.isFinite_obj.mp finite).get? found)

/-- What is read is derived. The induction is on the value, and for one value on the form. -/
theorem derives_of_reads (j : Json) (form : Form) (read : form.Reads j) : Derives form j := by
  have smaller : ∀ value : Json, sizeOf value < sizeOf j → ∀ form : Form, form.Reads value →
      Derives form value := fun value less => derives_of_reads value
  induction form with
  | text written =>
      obtain ⟨t, rfl, suits⟩ := read
      exact .text suits
  | whole low high =>
      obtain ⟨i, rfl, above, below⟩ := read
      exact .whole above below
  | list item =>
      obtain ⟨items, rfl, each⟩ := read
      exact .list fun value member =>
        smaller value (Json.sizeOf_mem member) item (each value member)
  | filled item =>
      obtain ⟨items, rfl, some, each⟩ := read
      exact .filled some fun value member =>
        smaller value (Json.sizeOf_mem member) item (each value member)
  | nullable form ih =>
      rcases read with rfl | read
      · exact .null
      · exact .present (ih read)
  | object category =>
      obtain ⟨ms, rfl, finite⟩ := Category.Reads.object read
      obtain ⟨parts, production, each⟩ := (category.reads_obj finite).mp read
      refine .object production (fun part member => (each part member).1) ?_
      intro part member value found
      exact smaller value (Json.sizeOf_get? found) part.form ((each part member).2 value found)
termination_by sizeOf j

/-- A policy's document: a value of finite numbers with a derivation. -/
def PolicyDocument (j : Json) : Prop := j.isFinite = true ∧ Derives (.object .policy) j

/-- Exactly the documents of the grammar are read as policies where nothing unsupported is kept. Any
other value is refused for a fault in the encoding. -/
theorem policies_read_iff (j : Json) :
    ((∃ p, readPolicy false j = .ok p) ↔ PolicyDocument j) ∧
      ((∃ fault place, readPolicy false j = .error (.encodingAt fault place)) ↔
        ¬PolicyDocument j) := by
  have accepted : (∃ p, readPolicy false j = .ok p) ↔ PolicyDocument j := by
    constructor
    · intro read
      have policy : Category.policy.Reads j := read
      obtain ⟨ms, rfl, finite⟩ := policy.object
      exact ⟨finite, derives_of_reads _ (.object .policy) read⟩
    · rintro ⟨finite, derived⟩
      exact derived.reads finite
  refine ⟨accepted, ?_⟩
  rw [← accepted, not_exists]
  constructor
  · rintro ⟨fault, place, failed⟩
    exact Outcome.failed_iff.mp ⟨_, failed⟩
  · intro refused
    obtain ⟨f, failed⟩ := Outcome.failed_iff.mpr refused
    obtain ⟨fault, place, _, rfl, -⟩ := blames_readPolicy false j f failed
    exact ⟨fault, place, failed⟩

end Encoding

end RoutePolicy
