import RoutePolicy.Proofs.Writing

/-!
What reading and writing leaves of a document: all of its documented members, with the values they
had, and the constructs outside the vocabulary as a whole.
-/

set_option autoImplicit false

namespace RoutePolicy

/-- Values that are equal up to the order of members. -/
inductive Json.Alike : Json → Json → Prop
  | refl (j : Json) : Alike j j
  | arr {as bs : List Json} : List.Forall₂ Alike as bs → Alike (.arr as) (.arr bs)
  | obj {as bs : Table Json} : (∀ key, Option.Rel Alike (as.get? key) (bs.get? key)) →
      Alike (.obj as) (.obj bs)

namespace Encoding

/-! ### Documented members -/

/-- What a value of a document encodes, or each item of a list. Plain values hold no objects of a
class. -/
inductive Content where
  | plain
  | expr
  | set
  | statement
  | policy
deriving DecidableEq

/-- The documented members of an object of a class, beside the class itself. -/
def ExprTag.fields : ExprTag → Table Content
  | boolean => [("type", .plain)]
  | integer => [("value", .plain)]
  | ref => [("attribute", .plain)]
  | all => [("conjuncts", .expr)]
  | any => [("disjuncts", .expr)]
  | not => [("expr", .expr)]
  | compare => [("comparator", .plain), ("left", .expr), ("right", .expr)]
  | hasCommunity => [("communitySetExpr", .expr), ("community", .plain)]
  | matchNetworks => [("prefix", .expr), ("prefixSet", .set)]
  | communities => [("communitySet", .plain)]
  | union => [("exprs", .expr)]
  | address => [("ip", .plain)]
  | network => [("prefix", .plain)]
  | asPath => [("asns", .plain)]
  | prepend => [("asns", .plain), ("expr", .expr)]
  | call => [("calledPolicyName", .plain)]
  | increment => [("addend", .plain)]
  | decrement => [("subtrahend", .plain)]
  | namedSet => [("name", .plain)]

def SetTag.fields : SetTag → Table Content
  | explicit => [("prefixSpace", .plain)]
  | named => [("name", .plain)]

def StatementTag.fields : StatementTag → Table Content
  | branch => [("guard", .expr), ("trueStatements", .statement), ("falseStatements", .statement),
      ("comment", .plain)]
  | finish => [("type", .plain)]
  | assign target => [(valueKey target, .expr)]

namespace Content

/-- The documented members of an object; none for an object outside the vocabulary. -/
def fields? (content : Content) (j : Json) : Option (Table Content) :=
  match content with
  | plain => none
  | expr => (j.className?.bind ExprTag.ofName?).map fun tag => ("class", plain) :: tag.fields
  | set => (j.className?.bind SetTag.ofName?).map fun tag => ("class", plain) :: tag.fields
  | statement =>
    (j.className?.bind StatementTag.ofName?).map fun tag => ("class", plain) :: tag.fields
  | policy => some [("name", plain), ("statements", statement)]

mutual

/-- A value without the members that are not documented. Objects outside the vocabulary are left
whole. -/
def documented (content : Content) : Json → Json
  | .arr items => .arr (content.documentedItems items)
  | .obj ms =>
    match content.fields? (.obj ms) with
    | some fields => .obj (documentedMembers fields ms)
    | none => .obj ms
  | scalar => scalar

def documentedItems (content : Content) : List Json → List Json
  | [] => []
  | item :: rest => content.documented item :: content.documentedItems rest

def documentedMembers (fields : Table Content) : List (String × Json) → List (String × Json)
  | [] => []
  | (key, value) :: rest =>
    match fields.get? key with
    | some content => (key, content.documented value) :: documentedMembers fields rest
    | none => documentedMembers fields rest

end

theorem documentedItems_eq (content : Content) (items : List Json) :
    content.documentedItems items = items.map content.documented := by
  induction items with
  | nil => rfl
  | cons item rest ih => rw [documentedItems, ih, List.map_cons]

/-- A documented member keeps its value without what is not documented there; any other is gone. -/
theorem get?_documentedMembers (fields : Table Content) (ms : Table Json) (key : String) :
    Table.get? (documentedMembers fields ms) key =
      (fields.get? key).bind fun content => (ms.get? key).map content.documented := by
  induction ms with
  | nil => cases fields.get? key <;> rfl
  | cons entry rest ih =>
      obtain ⟨name, value⟩ := entry
      rw [documentedMembers, Table.get?]
      by_cases here : name = key
      · subst here
        cases known : fields.get? name with
        | none => simp [ih, known]
        | some content => simp [Table.get?]
      · cases fields.get? name with
        | none => simp [ih, here]
        | some content => simp [Table.get?, ih, here]

end Content

/-! ### Written objects -/

/-- The members of a written object next to the documented members of the object that was read. -/
inductive Written (ms : Table Json) : Table Json → Table Content → Prop
  | nil : Written ms [] []
  | member {key : String} {value own : Json} {content : Content} {written : Table Json}
      {fields : Table Content} : ms.get? key = some value → own.Alike (content.documented value) →
        Written ms written fields → Written ms ((key, own) :: written) ((key, content) :: fields)
  | absent {key : String} {content : Content} : ms.get? key = none →
      Written ms [] [(key, content)]

variable {ms written : Table Json} {fields : Table Content}

theorem Written.get? (complete : Written ms written fields) (key : String) :
    Option.Rel Json.Alike (written.get? key)
      ((fields.get? key).bind fun content => (ms.get? key).map content.documented) := by
  induction complete with
  | nil => exact .none
  | @member name value own content written fields found same later ih =>
      rw [Table.get?, Table.get?]
      by_cases here : name = key
      · subst here
        simpa [found] using same
      · simpa [here] using ih
  | @absent name content missing =>
      by_cases here : name = key
      · subst here
        simp [Table.get?, missing]
      · simp [Table.get?, here]

/-- Objects are alike if every documented member is written, and nothing else. -/
theorem Written.alike {content : Content} (known : content.fields? (.obj ms) = some fields)
    (complete : Written ms written fields) :
    (Json.obj written).Alike (content.documented (.obj ms)) := by
  rw [Content.documented, known]
  refine .obj fun key => ?_
  rw [Content.get?_documentedMembers]
  exact complete.get? key

theorem Content.documented_plain (j : Json) : Content.plain.documented j = j := by
  match j with
  | .arr items =>
      rw [documented, documentedItems_eq]
      have same : ∀ item ∈ items, Content.plain.documented item = id item := by
        intro item member
        exact documented_plain item
      rw [List.map_congr_left same, List.map_id]
  | .obj ms => rfl
  | .null | .bool _ | .num _ | .str _ => rfl
termination_by sizeOf j
decreasing_by exact Json.sizeOf_mem member

namespace Written

variable {key : String}

/-- A plain member is written as it was. -/
theorem plain {value : Json} (found : ms.get? key = some value) (later : Written ms written fields) :
    Written ms ((key, value) :: written) ((key, .plain) :: fields) := by
  refine .member found ?_ later
  rw [Content.documented_plain]
  exact .refl value

end Written

/-- The class name of an object is its spelling, or else its last segment. -/
theorem getD_spelling {name short : String} (found : ms.get? "class" = some (.str name))
    (last : short = lastSegment name) : (spelling ms).getD short = name := by
  rw [spelling_eq found, last]
  by_cases whole : name = lastSegment name
  · rw [if_pos whole, Option.getD_none, ← whole]
  · rw [if_neg whole, Option.getD_some]

/-- An object is written with the class name it was read from. -/
theorem spelled_spelling {name short : String} (found : ms.get? "class" = some (.str name))
    (last : short = lastSegment name) : spelled (spelling ms) short = .str name := by
  have suits : (spelling ms).Suits short := by
    rw [spelling_eq found]
    intro own member
    rw [Option.mem_def, Option.ite_none_left_eq_some] at member
    obtain ⟨qualified, same⟩ := member
    cases same
    exact ⟨last.symm, last ▸ qualified⟩
  rw [spelled_suits suits, getD_spelling found last]

/-- The class of an object is written, and so is the rest. -/
theorem alike_of_class {content : Content} {name short : String}
    (found : ms.get? "class" = some (.str name)) (last : short = lastSegment name)
    (known : content.fields? (.obj ms) = some (("class", .plain) :: fields))
    (rest : Written ms written fields) :
    (Json.obj (("class", spelled (spelling ms) short) :: written)).Alike
      (content.documented (.obj ms)) := by
  apply Written.alike known
  rw [spelled_spelling found last]
  exact .plain found rest

variable {keep : Bool}

/-- A list is written as the items it was read from. -/
theorem alike_items {α : Type} {read : Json → Outcome α} {write : α → Json} {content : Content}
    {items : List Json} {xs : List α} (related : List.Forall₂ (fun j x => read j = .ok x) items xs)
    (alike : ∀ x ∈ xs, ∀ j, read j = .ok x → (write x).Alike (content.documented j)) :
    (Json.arr (xs.map write)).Alike (content.documented (.arr items)) := by
  rw [Content.documented, Content.documentedItems_eq]
  refine .arr ?_
  induction related with
  | nil => exact .nil
  | cons first _ ih =>
      obtain ⟨here, further⟩ := List.forall_mem_cons.mp alike
      exact .cons (here _ first) (ih further)

/-! ### Expressions -/

/-- A set of networks as a match is written with it. -/
def NetworkSet.write : NetworkSet → Json
  | ranges texts setCls =>
    .obj [("class", .str (setCls.getD SetTag.explicit.name)), ("prefixSpace", .strs texts)]
  | list name setCls => .obj [("class", .str (setCls.getD SetTag.named.name)), ("name", .str name)]

theorem NetworkSet.writeExpr_toExpr (set : NetworkSet) (cls : Spelling) (subject : Expr) :
    writeExpr (set.toExpr cls subject) = .obj [("class", spelled cls ExprTag.matchNetworks.name),
      ("prefix", writeExpr subject), ("prefixSet", set.write)] := by
  cases set <;> rfl

theorem NetworkSet.subject_mem (set : NetworkSet) (cls : Spelling) (subject : Expr) :
    subject ∈ (set.toExpr cls subject).children := by
  cases set <;> exact List.mem_cons_self

/-- What was read as a set of networks is written with all its documented members. -/
theorem NetworkSet.alike_write {j : Json} {set : NetworkSet} (read : NetworkSet.read j = .ok set) :
    set.write.Alike (Content.set.documented j) := by
  obtain ⟨ms, name, tag, rfl, _, found, last, encodes⟩ := NetworkSet.read_ok.mp read
  have named : (Json.obj ms).className? = some (lastSegment name) :=
    Json.className?_some.mpr ⟨ms, name, rfl, found, rfl⟩
  have known : Content.set.fields? (.obj ms) = some (("class", .plain) :: tag.fields) := by
    simp [Content.fields?, named, setTag_ofName?.mpr last]
  cases tag with
  | explicit =>
      obtain ⟨texts, ⟨own, _⟩, rfl⟩ := encodes
      apply Written.alike known
      rw [getD_spelling found last]
      exact .plain found (.plain own .nil)
  | named =>
      obtain ⟨list, own, rfl⟩ := encodes
      apply Written.alike known
      rw [getD_spelling found last]
      exact .plain found (.plain own .nil)

/-- What was read as an expression is written with all its documented members. -/
theorem alike_writeExpr {j : Json} {e : Expr} (read : readExpr keep j = .ok e) :
    (writeExpr e).Alike (Content.expr.documented j) := by
  induction e using Expr.childrenInduction generalizing j with
  | step e ih =>
    obtain ⟨ms, name, rfl, finite, found⟩ := readExpr_object read
    have named : (Json.obj ms).className? = some (lastSegment name) :=
      Json.className?_some.mpr ⟨ms, name, rfl, found, rfl⟩
    cases kind : ExprTag.ofName? (lastSegment name) with
    | none =>
        obtain ⟨-, rfl⟩ := (readExpr_other finite found kind).mp read
        have whole : Content.expr.documented (.obj ms) = .obj ms := by
          simp [Content.documented, Content.fields?, named, kind]
        rw [whole]
        exact .refl _
    | some tag =>
        have known : Content.expr.fields? (.obj ms) = some (("class", .plain) :: tag.fields) := by
          simp [Content.fields?, named, kind]
        have last := exprTag_ofName?.mp kind
        have encodes := (readExpr_known finite found last).mp read
        have child : ∀ {key c}, c ∈ e.children → Child keep ms key c →
            ∃ value, ms.get? key = some value ∧
              (writeExpr c).Alike (Content.expr.documented value) := by
          rintro key c member ⟨value, found, read⟩
          exact ⟨value, found, ih c member read⟩
        have list : ∀ {key es}, (∀ c ∈ es, c ∈ e.children) → Operands keep ms key es →
            ∃ value, ms.get? key = some value ∧
              (Json.arr (writeExprs es)).Alike (Content.expr.documented value) := by
          rintro key es inside ⟨-, items, found, related⟩
          refine ⟨_, found, ?_⟩
          rw [Expr.writeExprs_eq]
          exact alike_items related fun c member j read => ih c (inside c member) read
        cases tag with
        | boolean =>
            obtain ⟨value, own, rfl⟩ := encodes
            exact alike_of_class found last known (.plain own .nil)
        | integer =>
            obtain ⟨value, own, rfl⟩ := encodes
            exact alike_of_class found last known (.plain own.1 .nil)
        | ref =>
            obtain ⟨name, own, rfl⟩ := encodes
            exact alike_of_class found last known (.plain own .nil)
        | all =>
            obtain ⟨es, own, rfl⟩ := encodes
            obtain ⟨value, here, same⟩ := list (fun _ member => member) own
            exact alike_of_class found last known (.member here same .nil)
        | any =>
            obtain ⟨es, own, rfl⟩ := encodes
            obtain ⟨value, here, same⟩ := list (fun _ member => member) own
            exact alike_of_class found last known (.member here same .nil)
        | union =>
            obtain ⟨es, own, rfl⟩ := encodes
            obtain ⟨value, here, same⟩ := list (fun _ member => member) own
            exact alike_of_class found last known (.member here same .nil)
        | not =>
            obtain ⟨operand, own, rfl⟩ := encodes
            obtain ⟨value, here, same⟩ := child List.mem_cons_self own
            exact alike_of_class found last known (.member here same .nil)
        | compare =>
            obtain ⟨comparator, own, left, ownLeft, right, ownRight, rfl⟩ := encodes
            obtain ⟨_, hereLeft, sameLeft⟩ := child List.mem_cons_self ownLeft
            obtain ⟨_, hereRight, sameRight⟩ := child (by simp [Expr.children]) ownRight
            exact alike_of_class found last known
              (.plain own (.member hereLeft sameLeft (.member hereRight sameRight .nil)))
        | hasCommunity =>
            obtain ⟨community, ⟨own, _⟩, subject, ownSubject, rfl⟩ := encodes
            obtain ⟨value, here, same⟩ := child List.mem_cons_self ownSubject
            exact alike_of_class found last known (.member here same (.plain own .nil))
        | matchNetworks =>
            obtain ⟨subject, ownSubject, set, ⟨_, own, readSet⟩, rfl⟩ := encodes
            obtain ⟨value, here, same⟩ := child (set.subject_mem _ subject) ownSubject
            rw [set.writeExpr_toExpr]
            exact alike_of_class found last known
              (.member here same (.member own (NetworkSet.alike_write readSet) .nil))
        | communities =>
            obtain ⟨texts, ⟨own, _⟩, rfl⟩ := encodes
            exact alike_of_class found last known (.plain own .nil)
        | address =>
            obtain ⟨text, ⟨own, _⟩, rfl⟩ := encodes
            exact alike_of_class found last known (.plain own .nil)
        | network =>
            obtain ⟨text, ⟨own, _⟩, rfl⟩ := encodes
            exact alike_of_class found last known (.plain own .nil)
        | asPath =>
            obtain ⟨list, own, rfl⟩ := encodes
            exact alike_of_class found last known (.plain own.1 .nil)
        | prepend =>
            obtain ⟨list, own, operand, ownOperand, rfl⟩ := encodes
            obtain ⟨value, here, same⟩ := child List.mem_cons_self ownOperand
            exact alike_of_class found last known (.plain own.1 (.member here same .nil))
        | call =>
            obtain ⟨policy, own, rfl⟩ := encodes
            exact alike_of_class found last known (.plain own .nil)
        | increment =>
            obtain ⟨amount, ⟨_, own⟩, rfl⟩ := encodes
            exact alike_of_class found last known (.plain own.1 .nil)
        | decrement =>
            obtain ⟨amount, ⟨_, own⟩, rfl⟩ := encodes
            exact alike_of_class found last known (.plain own.1 .nil)
        | namedSet =>
            obtain ⟨name, own, rfl⟩ := encodes
            exact alike_of_class found last known (.plain own .nil)

/-! ### Statements and policies -/

/-- What was read as a statement is written with all its documented members. -/
theorem alike_writeStatement (s : Statement) {j : Json} (read : readStatement keep j = .ok s) :
    (writeStatement s).Alike (Content.statement.documented j) := by
  obtain ⟨ms, name, tag, rfl, finite, found, last⟩ := readStatement_object read
  have named : (Json.obj ms).className? = some (lastSegment name) :=
    Json.className?_some.mpr ⟨ms, name, rfl, found, rfl⟩
  have known : Content.statement.fields? (.obj ms) = some (("class", .plain) :: tag.fields) := by
    simp [Content.fields?, named, statementTag_ofName?.mpr last]
  have encodes := (readStatement_known finite found last).mp read
  cases tag with
  | branch =>
      obtain ⟨comment, ownComment, guard, ⟨_, hereGuard, readGuard⟩, onTrue,
        ⟨_, hereTrue, readTrue⟩, onFalse, ⟨_, hereFalse, readFalse⟩, rfl⟩ := encodes
      have sameTrue := alike_items readTrue fun s member j read => alike_writeStatement s read
      have sameFalse := alike_items readFalse fun s member j read => alike_writeStatement s read
      rw [← Statement.writeStatements_eq] at sameTrue sameFalse
      apply alike_of_class found last known
      apply Written.member hereGuard (alike_writeExpr readGuard)
      apply Written.member hereTrue sameTrue
      apply Written.member hereFalse sameFalse
      cases comment with
      | absent => exact .absent ownComment
      | null => exact .plain ownComment .nil
      | text words => exact .plain ownComment .nil
  | assign target =>
      obtain ⟨value, ⟨_, here, readValue⟩, rfl⟩ := encodes
      exact alike_of_class found last known (.member here (alike_writeExpr readValue) .nil)
  | finish =>
      obtain ⟨disposition, own, rfl⟩ := encodes
      exact alike_of_class found last known (.plain own .nil)

/-- Reading a policy and writing it again keeps exactly the documented members of the document,
whatever class names, comments and unsupported constructs it holds. -/
theorem writePolicy_readPolicy {j : Json} {p : Policy} (read : readPolicy keep j = .ok p) :
    (writePolicy p).Alike (Content.policy.documented j) ∧
      (Content.policy.documented j = j → (writePolicy p).Alike j) := by
  obtain ⟨ms, rfl, _, named, items, found, related⟩ := readPolicy_ok.mp read
  have same := alike_items related fun s member j read => alike_writeStatement s read
  rw [← Statement.writeStatements_eq] at same
  have alike : (writePolicy p).Alike (Content.policy.documented (.obj ms)) := by
    apply Written.alike rfl
    exact .plain named (.member found same .nil)
  refine ⟨alike, fun whole => ?_⟩
  rwa [whole] at alike

/-- A document with members that are not documented, on a policy, an expression and a set. -/
def annotatedDocument : Json :=
  .obj [("author", .str "noc"), ("name", .str "P"), ("statements", .arr [
    .obj [("comment", .null), ("class", .str "org.policy.If"),
      ("guard", .obj [("class", .str "org.MatchPrefixSet"), ("line", .int 7),
        ("prefixSet", .obj [("class", .str "sets$ExplicitPrefixSet"), ("note", .bool true),
          ("prefixSpace", .strs ["10.0.0.0/8:16-24"])]),
        ("prefix", .obj [("class", .str "RouteAttribute"), ("attribute", .str "prefix")])]),
      ("trueStatements", .arr [
        .obj [("class", .str "StaticStatement"), ("type", .str "ExitAccept")]]),
      ("falseStatements", .arr [
        .obj [("class", .str "SetLocalPreference"), ("localPreference",
          .obj [("class", .str "org.Probe"), ("line", .int 9)])]])]])]

/-- What the document encodes. -/
def annotatedPolicy : Policy where
  name := "P"
  statements := [.branch (some "org.policy.If")
    (.inRanges (some "org.MatchPrefixSet") (.ref .network) ["10.0.0.0/8:16-24"]
      (some "sets$ExplicitPrefixSet"))
    [.finish none .accept]
    [.assign none .localPreference
      (.unsupported "Probe" (.obj [("class", .str "org.Probe"), ("line", .int 9)]))] .null]

theorem annotatedDocument_written :
    readPolicy true annotatedDocument = .ok annotatedPolicy ∧
      (writePolicy annotatedPolicy).Alike (Content.policy.documented annotatedDocument) := by
  have read : readPolicy true annotatedDocument = .ok annotatedPolicy := by
    with_unfolding_all rfl
  exact ⟨read, (writePolicy_readPolicy read).1⟩

/-- The notes of the document are gone, but for the one inside a construct that is kept. -/
example : Content.policy.documented annotatedDocument =
    .obj [("name", .str "P"), ("statements", .arr [
      .obj [("comment", .null), ("class", .str "org.policy.If"),
        ("guard", .obj [("class", .str "org.MatchPrefixSet"),
          ("prefixSet", .obj [("class", .str "sets$ExplicitPrefixSet"),
            ("prefixSpace", .strs ["10.0.0.0/8:16-24"])]),
          ("prefix", .obj [("class", .str "RouteAttribute"), ("attribute", .str "prefix")])]),
        ("trueStatements", .arr [
          .obj [("class", .str "StaticStatement"), ("type", .str "ExitAccept")]]),
        ("falseStatements", .arr [
          .obj [("class", .str "SetLocalPreference"), ("localPreference",
            .obj [("class", .str "org.Probe"), ("line", .int 9)])]])]])] := by
  with_unfolding_all rfl

end Encoding

end RoutePolicy
