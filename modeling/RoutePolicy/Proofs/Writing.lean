import RoutePolicy.Json.Parts
import RoutePolicy.Proofs.ConditionKeys
import RoutePolicy.Proofs.Members

/-!
Policies that are well formed are read back from what they are written as. Well-formedness asks of
every node what its reader checks: nothing else can get lost on the way.
-/

set_option autoImplicit false

namespace RoutePolicy

open Encoding

/-! ### Well-formed policies -/

/-- A class name that a node keeps: qualified, with the class as its last segment. -/
def Spelling.Suits (cls : Spelling) (short : String) : Prop :=
  ∀ name ∈ cls, lastSegment name = short ∧ name ≠ short

instance (cls : Spelling) (short : String) : Decidable (cls.Suits short) :=
  inferInstanceAs (Decidable (∀ name ∈ cls, lastSegment name = short ∧ name ≠ short))

theorem Spelling.suits_none (short : String) : Spelling.Suits none short := nofun

/-- The last segment of the class name that a value gives, if it gives one. -/
def Json.className? (j : Json) : Option String :=
  ((j.get? "class").bind Json.text?).map lastSegment

theorem Json.className?_some {j : Json} {tag : String} : j.className? = some tag ↔
    ∃ (ms : Table Json) (name : String), j = .obj ms ∧ ms.get? "class" = some (.str name) ∧
      lastSegment name = tag := by
  cases j with
  | obj ms =>
      simp only [className?, get?, Option.map_eq_some_iff, Option.bind_eq_some_iff, obj.injEq]
      constructor
      · rintro ⟨name, ⟨value, found, text⟩, last⟩
        cases value <;> cases text
        exact ⟨ms, name, rfl, found, last⟩
      · rintro ⟨_, name, rfl, found, last⟩
        exact ⟨name, ⟨_, found, rfl⟩, last⟩
  | null | bool _ | num _ | str _ | arr _ => simp [className?, get?]

namespace Expr

/-- The values of a node pass the checks of documents. `isNetwork` is the check for the text of a
network. -/
def Admissible (isNetwork : String → Bool) : Expr → Prop
  | lit _ (.bool _) => True
  | lit _ (.int value) => value.natAbs ≤ Number.maxSafe
  | lit _ (.address text) => (Address.parse? text).isSome = true
  | lit _ (.network text) => isNetwork text = true
  | lit _ (.communities texts) => ∀ text ∈ texts, isCommunity text = true
  | lit _ (.asPath list) => AreAsns list
  | junction _ _ operands | union _ operands => operands ≠ []
  | hasCommunity _ _ community => isCommunity community = true
  | inRanges _ _ texts setCls =>
    setCls.Suits SetTag.explicit.name ∧ ∀ text ∈ texts, (NetworkRange.parse? text).isSome = true
  | inList _ _ _ setCls => setCls.Suits SetTag.named.name
  | prepend _ list _ => AreAsns list
  | adjust _ _ amount => 0 ≤ amount ∧ amount.natAbs ≤ Number.maxSafe
  | unsupported tag raw =>
    raw.isFinite = true ∧ raw.className? = some tag ∧ ExprTag.ofName? tag = none
  | attr _ _ | not _ _ | compare _ _ _ _ | call _ _ | namedSet _ _ => True

instance (isNetwork : String → Bool) (e : Expr) : Decidable (e.Admissible isNetwork) := by
  cases e with
  | lit _ l => cases l <;> unfold Admissible <;> infer_instance
  | _ => unfold Admissible; infer_instance

/-- A node as documents can hold it. -/
structure WellFormed (isNetwork : String → Bool) (e : Expr) : Prop where
  spelled : e.cls.Suits e.writtenTag.name
  admissible : e.Admissible isNetwork

instance (isNetwork : String → Bool) (e : Expr) : Decidable (e.WellFormed isNetwork) :=
  decidable_of_iff (e.cls.Suits e.writtenTag.name ∧ e.Admissible isNetwork)
    ⟨fun both => ⟨both.1, both.2⟩, fun formed => ⟨formed.spelled, formed.admissible⟩⟩

end Expr

namespace Statement

mutual

/-- The class names of all statements are names that documents keep. -/
def Spelled : Statement → Prop
  | branch cls _ onTrue onFalse _ =>
    cls.Suits StatementTag.branch.name ∧ SpelledAll onTrue ∧ SpelledAll onFalse
  | assign cls target _ => cls.Suits (StatementTag.assign target).name
  | finish cls _ => cls.Suits StatementTag.finish.name

def SpelledAll : List Statement → Prop
  | [] => True
  | s :: rest => s.Spelled ∧ SpelledAll rest

end

end Statement

/-- A policy as documents can hold it. -/
structure Policy.WellFormed (isNetwork : String → Bool) (p : Policy) : Prop where
  spelled : Statement.SpelledAll p.statements
  exprs : Statement.EveryAll (fun _ e => e.Each (Expr.WellFormed isNetwork)) p.statements

/-! ### Written values are finite -/

namespace Json

@[simp] theorem isFinite_str (text : String) : (str text).isFinite = true := rfl

theorem isFinite_arr {items : List Json} :
    (arr items).isFinite = true ↔ ∀ item ∈ items, item.isFinite = true := by
  rw [isFinite]
  induction items with
  | nil => simp [allFinite]
  | cons item rest ih => rw [allFinite, Bool.and_eq_true, ih, List.forall_mem_cons]

theorem isFinite_obj {members : Table Json} :
    (obj members).isFinite = true ↔ members.All fun value => value.isFinite = true := by
  rw [isFinite]
  induction members with
  | nil => simp [membersFinite, Table.All]
  | cons entry rest ih =>
      rw [membersFinite, Bool.and_eq_true, ih, Table.All, Table.All, List.forall_mem_cons]

theorem inherited_isFinite : Inherited fun value => value.isFinite = true where
  null := rfl
  bool _ := rfl
  str _ := rfl
  items each := isFinite_arr.mpr each
  members _ all := isFinite_obj.mpr all

theorem isFinite_int {i : Int} (safe : i.natAbs ≤ Number.maxSafe) : (int i).isFinite = true := by
  rw [int, Number.ofInt_safe safe]
  rfl

end Json

/-- The integers that a well-formed node is written with are safe. -/
theorem Expr.WellFormed.safe {isNetwork : String → Bool} {e : Expr}
    (formed : e.WellFormed isNetwork) : ∀ i ∈ e.ownIntegers, i.natAbs ≤ Number.maxSafe := by
  have own := formed.admissible
  cases e with
  | lit cls l =>
      cases l with
      | int value => exact List.forall_mem_singleton.mpr own
      | asPath list => exact fun i member => safe_of_asn (own i member)
      | _ => exact nofun
  | prepend cls list operand => exact fun i member => safe_of_asn (own i member)
  | adjust cls shift amount => exact List.forall_mem_singleton.mpr own.2
  | _ => exact nofun

theorem Expr.WellFormed.writes {isNetwork : String → Bool} {e : Expr}
    (formed : e.WellFormed isNetwork) : e.Writes fun value => value.isFinite = true := by
  refine ⟨fun i member => Json.isFinite_int (formed.safe i member), ?_⟩
  rintro tag raw rfl
  exact formed.admissible.1

theorem Expr.isFinite_writeExpr {isNetwork : String → Bool} {e : Expr}
    (formed : e.Each (WellFormed isNetwork)) : (writeExpr e).isFinite = true :=
  Json.inherited_isFinite.writeExpr (formed.mono fun _ own => own.writes)

/-! ### Reading what was written -/

namespace Encoding

theorem lastSegment_statement (tag : StatementTag) : lastSegment tag.name = tag.name := by
  cases tag with
  | assign target => cases target <;> decide
  | branch | finish => decide

/-- The spelling of an object is the class name it gives, if that is qualified. -/
theorem spelling_eq {ms : Table Json} {name : String} (found : ms.get? "class" = some (.str name)) :
    spelling ms = if name = lastSegment name then none else some name := by
  rw [spelling, found]

section

variable {cls : Spelling} {short : String}

theorem lastSegment_getD (suits : cls.Suits short) (plain : lastSegment short = short) :
    lastSegment (cls.getD short) = short := by
  cases cls with
  | none => exact plain
  | some name => exact (suits name rfl).1

theorem spelled_suits (suits : cls.Suits short) : spelled cls short = .str (cls.getD short) := by
  cases cls with
  | none => rfl
  | some name => rw [spelled, if_pos (suits name rfl).1, Option.getD_some]

/-- A class name that suits its class is found again. -/
theorem spelling_getD {ms : Table Json} (suits : cls.Suits short)
    (plain : lastSegment short = short)
    (found : ms.get? "class" = some (.str (cls.getD short))) : spelling ms = cls := by
  rw [spelling_eq found, lastSegment_getD suits plain]
  cases cls with
  | none => exact if_pos rfl
  | some name => exact if_neg (suits name rfl).2

end

section

variable {cls : Spelling} {fields : Table Json}

theorem readExpr_of_encodes {tag : ExprTag} {e : Expr} (suits : cls.Suits tag.name)
    (finite : (Json.obj (("class", spelled cls tag.name) :: fields)).isFinite = true)
    (encodes : spelling (("class", spelled cls tag.name) :: fields) = cls →
      Encodes true (("class", spelled cls tag.name) :: fields) tag e) :
    readExpr true (.obj (("class", spelled cls tag.name) :: fields)) = .ok e := by
  have plain := Expr.lastSegment_name tag
  rw [spelled_suits suits] at finite encodes ⊢
  have kept := encodes (spelling_getD suits plain rfl)
  exact (readExpr_known finite rfl (lastSegment_getD suits plain).symm).mpr kept

theorem readStatement_of_encodes {keep : Bool} {tag : StatementTag} {s : Statement}
    (suits : cls.Suits tag.name)
    (finite : (Json.obj (("class", spelled cls tag.name) :: fields)).isFinite = true)
    (encodes : spelling (("class", spelled cls tag.name) :: fields) = cls →
      StatementEncodes keep (("class", spelled cls tag.name) :: fields) tag s) :
    readStatement keep (.obj (("class", spelled cls tag.name) :: fields)) = .ok s := by
  have plain := lastSegment_statement tag
  rw [spelled_suits suits] at finite encodes ⊢
  have kept := encodes (spelling_getD suits plain rfl)
  exact (readStatement_known finite rfl (lastSegment_getD suits plain).symm).mpr kept

end

section

variable {ms : Table Json} {key : String}

theorem operands_writeExprs {es : List Expr} (filled : es ≠ [])
    (read : ∀ e ∈ es, readExpr true (writeExpr e) = .ok e)
    (found : ms.get? key = some (.arr (writeExprs es))) : Operands true ms key es := by
  refine ⟨filled, _, found, ?_⟩
  rwa [Expr.writeExprs_eq, List.forall₂_map_left_iff, List.forall₂_same]

end

/-- A set of networks with its own class name is read back. -/
theorem NetworkSet.read_getD {setCls : Spelling} {tag : SetTag} {key : String} {value : Json}
    {set : NetworkSet} (suits : setCls.Suits tag.name) (finite : value.isFinite = true)
    (encodes : spelling [("class", .str (setCls.getD tag.name)), (key, value)] = setCls →
      NetworkSet.Encodes [("class", .str (setCls.getD tag.name)), (key, value)] tag set) :
    NetworkSet.read (.obj [("class", .str (setCls.getD tag.name)), (key, value)]) = .ok set := by
  have plain : lastSegment tag.name = tag.name := by
    cases tag <;> decide
  have kept := encodes (spelling_getD suits plain rfl)
  refine NetworkSet.read_ok.mpr ⟨_, _, tag, rfl, ?_, rfl, (lastSegment_getD suits plain).symm, kept⟩
  simp [Json.isFinite_obj, Table.All, finite]

theorem NetworkSet.read_ranges {texts : List String} {setCls : Spelling}
    (suits : setCls.Suits SetTag.explicit.name)
    (pass : ∀ text ∈ texts, (NetworkRange.parse? text).isSome = true) :
    NetworkSet.read (.obj [("class", .str (setCls.getD SetTag.explicit.name)),
      ("prefixSpace", .strs texts)]) = .ok (.ranges texts setCls) :=
  NetworkSet.read_getD suits (Json.inherited_isFinite.strs texts) fun own =>
    ⟨texts, ⟨rfl, pass⟩, by rw [own]⟩

theorem NetworkSet.read_list (name : String) {setCls : Spelling}
    (suits : setCls.Suits SetTag.named.name) :
    NetworkSet.read (.obj [("class", .str (setCls.getD SetTag.named.name)), ("name", .str name)]) =
      .ok (.list name setCls) :=
  NetworkSet.read_getD suits rfl fun own => ⟨name, rfl, by rw [own]⟩

end Encoding

namespace Expr

/-- Well-formed expressions are read back from what they are written as. -/
theorem readExpr_writeExpr {e : Expr}
    (formed : e.Each (WellFormed fun text => (Network.parseWithLength? text).isSome)) :
    readExpr true (writeExpr e) = .ok e := by
  induction e using childrenInduction with
  | step e ih =>
    have below : ∀ c ∈ e.children, readExpr true (writeExpr c) = .ok c :=
      fun c member => ih c member (formed.child member)
    have finite := isFinite_writeExpr formed
    have suits := formed.root.spelled
    have admissible := formed.root.admissible
    cases e with
    | lit cls l =>
        cases l with
        | bool value =>
            exact readExpr_of_encodes suits finite fun own => ⟨value, rfl, by rw [own]⟩
        | int value =>
            exact readExpr_of_encodes suits finite fun own =>
              ⟨value, ⟨rfl, admissible⟩, by rw [own]⟩
        | address text =>
            exact readExpr_of_encodes suits finite fun own => ⟨text, ⟨rfl, admissible⟩, by rw [own]⟩
        | network text =>
            exact readExpr_of_encodes suits finite fun own => ⟨text, ⟨rfl, admissible⟩, by rw [own]⟩
        | communities texts =>
            exact readExpr_of_encodes suits finite fun own => ⟨texts, ⟨rfl, admissible⟩, by rw [own]⟩
        | asPath list =>
            exact readExpr_of_encodes suits finite fun own =>
              ⟨list, ⟨rfl, admissible⟩, by rw [own]⟩
    | attr cls name => exact readExpr_of_encodes suits finite fun own => ⟨name, rfl, by rw [own]⟩
    | junction cls op operands =>
        cases op <;>
          exact readExpr_of_encodes suits finite fun own =>
            ⟨operands, operands_writeExprs admissible below rfl, by rw [own]⟩
    | union cls operands =>
        exact readExpr_of_encodes suits finite fun own =>
          ⟨operands, operands_writeExprs admissible below rfl, by rw [own]⟩
    | not cls operand =>
        have inner : readExpr true (writeExpr operand) = .ok operand := below _ List.mem_cons_self
        exact readExpr_of_encodes suits finite fun own => ⟨operand, ⟨_, rfl, inner⟩, by rw [own]⟩
    | compare cls comparator left right =>
        have first : readExpr true (writeExpr left) = .ok left := below _ List.mem_cons_self
        have second : readExpr true (writeExpr right) = .ok right := below _ (by simp [children])
        exact readExpr_of_encodes suits finite fun own =>
          ⟨comparator, rfl, left, ⟨_, rfl, first⟩, right, ⟨_, rfl, second⟩, by rw [own]⟩
    | hasCommunity cls subject community =>
        have inner : readExpr true (writeExpr subject) = .ok subject := below _ List.mem_cons_self
        exact readExpr_of_encodes suits finite fun own =>
          ⟨community, ⟨rfl, admissible⟩, subject, ⟨_, rfl, inner⟩, by rw [own]⟩
    | inRanges cls subject texts setCls =>
        have inner : readExpr true (writeExpr subject) = .ok subject := below _ List.mem_cons_self
        have set := NetworkSet.read_ranges admissible.1 admissible.2
        exact readExpr_of_encodes suits finite fun own =>
          ⟨subject, ⟨_, rfl, inner⟩, _, ⟨_, rfl, set⟩, by rw [own]; rfl⟩
    | inList cls subject name setCls =>
        have inner : readExpr true (writeExpr subject) = .ok subject := below _ List.mem_cons_self
        have set := NetworkSet.read_list name admissible
        exact readExpr_of_encodes suits finite fun own =>
          ⟨subject, ⟨_, rfl, inner⟩, _, ⟨_, rfl, set⟩, by rw [own]; rfl⟩
    | prepend cls list operand =>
        have inner : readExpr true (writeExpr operand) = .ok operand := below _ List.mem_cons_self
        exact readExpr_of_encodes suits finite fun own =>
          ⟨list, ⟨rfl, admissible⟩, operand, ⟨_, rfl, inner⟩, by rw [own]⟩
    | call cls policy => exact readExpr_of_encodes suits finite fun own => ⟨policy, rfl, by rw [own]⟩
    | adjust cls shift amount =>
        cases shift <;>
          exact readExpr_of_encodes suits finite fun own =>
            ⟨amount, ⟨admissible.1, rfl, admissible.2⟩, by rw [own]⟩
    | namedSet cls name =>
        exact readExpr_of_encodes suits finite fun own => ⟨name, rfl, by rw [own]⟩
    | unsupported tag raw =>
        obtain ⟨_, named, unknown⟩ := admissible
        obtain ⟨ms, name, rfl, found, rfl⟩ := Json.className?_some.mp named
        exact (readExpr_other finite found unknown).mpr ⟨rfl, rfl⟩

end Expr

namespace Statement

variable {isNetwork : String → Bool}

theorem spelledAll_iff {block : List Statement} : SpelledAll block ↔ ∀ s ∈ block, s.Spelled := by
  induction block with
  | nil => simp [SpelledAll]
  | cons s rest ih => rw [SpelledAll, ih, List.forall_mem_cons]

theorem isFinite_writeStatement (s : Statement)
    (formed : s.Every fun _ e => e.Each (Expr.WellFormed isNetwork)) :
    (writeStatement s).isFinite = true := by
  apply Json.inherited_isFinite.writeStatement s
  exact Every.both (fun _ _ each _ => each.mono fun _ own => own.writes) s formed formed

theorem block_writeStatements {ms : Table Json} {key : String} {block : List Statement}
    (read : ∀ s ∈ block, readStatement true (writeStatement s) = .ok s)
    (found : ms.get? key = some (.arr (writeStatements block))) : Block true ms key block := by
  refine ⟨_, found, ?_⟩
  rwa [writeStatements_eq, List.forall₂_map_left_iff, List.forall₂_same]

/-- Well-formed statements are read back from what they are written as. -/
theorem readStatement_writeStatement (s : Statement) (spelled : s.Spelled)
    (formed : s.Every fun _ e =>
      e.Each (Expr.WellFormed fun text => (Network.parseWithLength? text).isSome)) :
    readStatement true (writeStatement s) = .ok s := by
  have finite := isFinite_writeStatement s formed
  cases s with
  | branch cls guard onTrue onFalse comment =>
      obtain ⟨suits, spelledTrue, spelledFalse⟩ := spelled
      obtain ⟨formedGuard, formedTrue, formedFalse⟩ := formed
      rw [everyAll_iff] at formedTrue formedFalse
      rw [spelledAll_iff] at spelledTrue spelledFalse
      have readGuard := Expr.readExpr_writeExpr formedGuard
      have readTrue : ∀ s ∈ onTrue, readStatement true (writeStatement s) = .ok s := by
        intro s member
        exact readStatement_writeStatement s (spelledTrue s member) (formedTrue s member)
      have readFalse : ∀ s ∈ onFalse, readStatement true (writeStatement s) = .ok s := by
        intro s member
        exact readStatement_writeStatement s (spelledFalse s member) (formedFalse s member)
      rw [writeStatement] at finite ⊢
      apply readStatement_of_encodes suits finite
      intro own
      refine ⟨comment, ?_, guard, ⟨_, rfl, readGuard⟩, onTrue, ?_, onFalse, ?_, ?_⟩
      · cases comment <;> rfl
      · exact block_writeStatements readTrue rfl
      · exact block_writeStatements readFalse rfl
      · exact congrArg (branch · guard onTrue onFalse comment) own
  | assign cls target value =>
      have read := Expr.readExpr_writeExpr formed
      apply readStatement_of_encodes spelled finite
      intro own
      refine ⟨value, ⟨_, ?_, read⟩, congrArg (assign · target value) own⟩
      cases target <;> rfl
  | finish cls disposition =>
      exact readStatement_of_encodes spelled finite fun own =>
        ⟨disposition, rfl, congrArg (finish · disposition) own⟩

end Statement

/-- Writing loses nothing of a well-formed policy: it is read back as it was, with its class names
and comments. -/
theorem readPolicy_writePolicy (p : Policy)
    (formed : p.WellFormed fun text => (Network.parseWithLength? text).isSome) :
    readPolicy true (writePolicy p) = .ok p := by
  obtain ⟨spelled, exprs⟩ := formed
  rw [Statement.spelledAll_iff] at spelled
  rw [Statement.everyAll_iff] at exprs
  have read : ∀ s ∈ p.statements, readStatement true (writeStatement s) = .ok s := by
    intro s member
    exact Statement.readStatement_writeStatement s (spelled s member) (exprs s member)
  have finite : (writePolicy p).isFinite = true := by
    have block : (Json.arr (writeStatements p.statements)).isFinite = true := by
      rw [Statement.writeStatements_eq, Json.isFinite_arr, List.forall_mem_map]
      intro s member
      exact Statement.isFinite_writeStatement s (exprs s member)
    simp [writePolicy, Json.isFinite_obj, Table.All, block]
  exact readPolicy_ok.mpr ⟨_, rfl, finite, rfl, Statement.block_writeStatements read rfl⟩

/-- Every kind of class name and comment that documents tell apart. -/
def spelledPolicy : Policy where
  name := "P"
  statements := [
    .branch (some "org.policy.If")
      (.all [.hasCommunity (some "org.policy.MatchCommunity") (.ref .communities) "65000:1",
        .inRanges none (.ref .network) ["10.0.0.0/8:16-24"] (some "sets$ExplicitPrefixSet")])
      [.assign none .asPath (.prepend none [65000, 65000] (.ref .asPath)),
        .finish (some "org.policy.StaticStatement") .accept]
      [.branch none (.unsupported "Probe" (.obj [("class", .str "org.Probe"), ("depth", .int 3)]))
        [.finish none .reject] [] (.text "probed")]
      .null,
    .branch none (.inList (some "org.MatchPrefixSet") (.lit none (.network "10.0.0.0/8")) "L" none)
      [.assign none .localPreference (.adjust none .increment 50)] [.finish none .pass] .absent]

theorem spelledPolicy_wellFormed :
    spelledPolicy.WellFormed fun text => (Network.parseWithLength? text).isSome := by
  constructor
  · simp only [spelledPolicy, Statement.SpelledAll, Statement.Spelled]
    decide
  · simp only [spelledPolicy, Statement.EveryAll, Statement.Every]
    decide

theorem spelledPolicy_read_back :
    spelledPolicy.WellFormed (fun text => (Network.parseWithLength? text).isSome) ∧
      readPolicy true (writePolicy spelledPolicy) = .ok spelledPolicy :=
  ⟨spelledPolicy_wellFormed, readPolicy_writePolicy _ spelledPolicy_wellFormed⟩

/-- A guard that compares with an address in the place of a network. -/
def bareNetworkPolicy : Policy where
  name := "P"
  statements := [.branch none (.inRanges none (.lit none (.network "10.0.0.1")) ["10.0.0.1/32"] none)
    [.finish none .accept] [.finish none .reject] .absent]

/-- A network without its length is a network, but no document can hold it. -/
theorem bareNetworkPolicy_not_read_back :
    bareNetworkPolicy.WellFormed (fun text => (Network.parse? text).isSome) ∧
      readPolicy true (writePolicy bareNetworkPolicy) ≠ .ok bareNetworkPolicy := by
  refine ⟨⟨?_, ?_⟩, ?_⟩
  · simp only [bareNetworkPolicy, Statement.SpelledAll, Statement.Spelled]
    decide
  · simp only [bareNetworkPolicy, Statement.EveryAll, Statement.Every]
    decide
  · have refused : readPolicy true (writePolicy bareNetworkPolicy) =
        Outcome.under [.field "statements", .index 0, .field "guard", .field "prefix",
          .field "prefix"] (.error (.encoding (.invalidNetwork "10.0.0.1"))) := by
      with_unfolding_all rfl
    rw [refused]
    rintro ⟨⟩

end RoutePolicy
