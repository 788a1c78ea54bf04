import RoutePolicy.Proofs.JsonReading
import RoutePolicy.Proofs.Outlines
import RoutePolicy.Proofs.Writing

/-!
Policies that are written alike have one outline: the text of a policy, whatever the order of its
members, tells all that a run can use of it.
-/

set_option autoImplicit false

namespace RoutePolicy

open Encoding

namespace Json

theorem inherited_held : Inherited Held where
  null := ⟨nofun, trivial⟩
  bool _ := ⟨nofun, trivial⟩
  str _ := ⟨nofun, trivial⟩
  items each := held_arr.mpr each
  members plain all := held_obj.mpr ⟨Table.arranged_of_plain plain.1 plain.2, all⟩

theorem held_int {i : Int} (exactly : Number.ofInt i = .finite i) : (int i).Held := by
  refine ⟨?_, trivial⟩
  intro n member
  obtain rfl := List.mem_singleton.mp member
  exact ⟨i, exactly, exactly⟩

/-- The class of an object does not depend on the order of members. -/
theorem className?_sorted {members : Table Json} (distinct : members.names.Nodup) :
    (obj members).sorted.className? = (obj members).className? := by
  unfold className?
  rw [get?_sorted distinct, get?]
  cases members.get? "class" with
  | none => rfl
  | some value => cases value <;> rfl

end Json

namespace Expr

/-- The class name of the set of a match is a name that documents keep. -/
def SetSpelled : Expr → Prop
  | inRanges _ _ _ setCls => setCls.Suits SetTag.explicit.name
  | inList _ _ _ setCls => setCls.Suits SetTag.named.name
  | _ => True

/-- A node the text of which tells all that a run can use. -/
structure Legible (e : Expr) : Prop where
  spelled : e.cls.Suits e.writtenTag.name
  setSpelled : e.SetSpelled
  integers : ∀ i ∈ e.ownIntegers, Number.ofInt i = .finite i
  whole : ∀ tag raw, e = unsupported tag raw →
    raw.Held ∧ raw.className? = some tag ∧ ExprTag.ofName? tag = none

theorem Legible.writes {e : Expr} (legible : e.Legible) : e.Writes Json.Held where
  integers i member := Json.held_int (legible.integers i member)
  whole tag raw same := (legible.whole tag raw same).1

/-- A well-formed node is legible if what it keeps whole is a value of documents. -/
theorem WellFormed.legible {isNetwork : String → Bool} {e : Expr} (formed : e.WellFormed isNetwork)
    (held : ∀ tag raw, e = unsupported tag raw → raw.Held) : e.Legible where
  spelled := formed.spelled
  setSpelled := by
    have own := formed.admissible
    cases e with
    | inRanges _ _ _ _ => exact own.1
    | inList _ _ _ _ => exact own
    | _ => trivial
  integers i member := Number.ofInt_safe (formed.safe i member)
  whole := by
    rintro tag raw rfl
    obtain ⟨-, named, unknown⟩ := formed.admissible
    exact ⟨held tag raw rfl, named, unknown⟩

/-- The class that the written value of a node shows. -/
def shownClass : Expr → String
  | unsupported tag _ => tag
  | e => e.writtenTag.name

theorem shownClass_eq {e : Expr} (supported : e.isSupported = true) :
    e.shownClass = e.writtenTag.name := by
  cases e <;> first | rfl | cases supported

theorem className?_writeExpr {e : Expr} (legible : e.Legible) :
    (writeExpr e).sorted.className? = some e.shownClass := by
  cases supported : e.isSupported with
  | true =>
      obtain ⟨rest, written, distinct⟩ := writeExpr_members supported
      obtain ⟨text, spells, tag⟩ := spelled_eq e.cls e.writtenTag
      rw [written, Json.className?_sorted distinct, Json.className?_some, shownClass_eq supported]
      exact ⟨_, text, rfl, by rw [spells]; rfl, tag⟩
  | false =>
      cases e with
      | unsupported tag raw =>
          obtain ⟨held, named, -⟩ := legible.whole tag raw rfl
          obtain ⟨members, name, rfl, -⟩ := Json.className?_some.mp named
          have distinct := (Json.held_obj.mp held).1.distinct
          exact (Json.className?_sorted distinct).trans named
      | _ => cases supported

theorem spelled_inj {cls cls' : Spelling} {short : String} (left : cls.Suits short)
    (right : cls'.Suits short) (same : cls.getD short = cls'.getD short) : cls = cls' := by
  cases cls with
  | none =>
      cases cls' with
      | none => rfl
      | some name => exact absurd same.symm (right name rfl).2
  | some name =>
      cases cls' with
      | none => exact absurd same (left name rfl).2
      | some name' => exact congrArg some same

/-- Nodes of the vocabulary that are written alike are spelled alike. -/
theorem cls_eq {a b : Expr} (left : a.Legible) (right : b.Legible) (supported : a.isSupported = true)
    (other : b.isSupported = true) (same : WrittenAlike a b) : a.cls = b.cls := by
  have names := spelled_of_sorted supported other same
  have left := left.spelled
  rw [writtenTag_eq supported other same] at left names
  rw [spelled_suits left, spelled_suits right.spelled, Json.str.injEq] at names
  exact spelled_inj left right.spelled names

theorem outlineAll_of_forall₂ {as bs : List Expr}
    (related : List.Forall₂ (fun a b => a.outline = b.outline) as bs) :
    outlineAll as = outlineAll bs := by
  induction related with
  | nil => rfl
  | cons first _ ih => rw [outlineAll, outlineAll, first, ih]

/-- Nodes with the same values, spelled alike, have one outline if their parts have. -/
theorem Matches.outline {R : Expr → Expr → Prop} {a b : Expr} (node : Matches R a b)
    (spelled : a.cls = b.cls) (left : a.SetSpelled) (right : b.SetSpelled)
    (parts : ∀ c ∈ a.children, ∀ d ∈ b.children, R c d → c.outline = d.outline) :
    a.outline = b.outline := by
  cases node with
  | lit _ | attr _ | call _ | adjust _ _ | namedSet _ =>
      cases spelled
      rfl
  | junction _ related | union related =>
      cases spelled
      simp only [Expr.outline, outlineAll_of_forall₂ (forall₂_of_mem related parts)]
  | not part | hasCommunity part _ | prepend _ part =>
      cases spelled
      simp only [Expr.outline, parts _ List.mem_cons_self _ List.mem_cons_self part]
  | inRanges part _ named | inList part _ named =>
      cases spelled
      simp only [Expr.outline, parts _ List.mem_cons_self _ List.mem_cons_self part,
        spelled_inj left right named]
  | compare _ first second =>
      cases spelled
      simp only [Expr.outline, parts _ List.mem_cons_self _ List.mem_cons_self first,
        parts _ (by simp [children]) _ (by simp [children]) second]

/-- Legible expressions that are written alike have one outline. -/
theorem outline_of_writtenAlike {a b : Expr} (left : a.Each Legible) (right : b.Each Legible)
    (same : WrittenAlike a b) : a.outline = b.outline := by
  induction a using childrenInduction generalizing b with
  | step a ih =>
    have shown : a.shownClass = b.shownClass := by
      have named := className?_writeExpr left.root
      rw [same, className?_writeExpr right.root] at named
      exact (Option.some.inj named).symm
    -- no class of the vocabulary is that of a construct outside it
    have apart : ∀ {x y : Expr}, x.Legible → x.isSupported = false → y.isSupported = true →
        x.shownClass ≠ y.shownClass := by
      intro x y legible outside inside named
      cases x with
      | unsupported tag raw =>
          obtain ⟨-, -, unknown⟩ := legible.whole tag raw rfl
          rw [shownClass_eq inside] at named
          have known := ofName?_name y.writtenTag
          rw [← named] at known
          exact absurd (known.symm.trans unknown) nofun
      | _ => cases outside
    cases supported : a.isSupported with
    | true =>
        cases other : b.isSupported with
        | true =>
            have node := matches_of_sorted supported other left.root.integers right.root.integers same
            have spelled := cls_eq left.root right.root supported other same
            apply node.outline spelled left.root.setSpelled right.root.setSpelled
            exact fun c inA d inB => ih c inA (left.child inA) (right.child inB)
        | false => exact absurd shown.symm (apart right.root other supported)
    | false =>
        cases other : b.isSupported with
        | true => exact absurd shown (apart left.root supported other)
        | false =>
            cases a with
            | unsupported tag raw =>
                cases b with
                | unsupported tag' raw' => exact congrArg (unsupported · .null) shown
                | _ => cases other
            | _ => cases supported

end Expr

namespace Statement

def cls : Statement → Spelling
  | branch cls _ _ _ _ | assign cls _ _ | finish cls _ => cls

/-- The class a statement is written with. -/
def tag : Statement → StatementTag
  | branch _ _ _ _ _ => .branch
  | assign _ target _ => .assign target
  | finish _ _ => .finish

theorem Spelled.own {s : Statement} (spelled : s.Spelled) : s.cls.Suits s.tag.name := by
  cases s with
  | branch _ _ _ _ _ => exact spelled.1
  | assign _ _ _ | finish _ _ => exact spelled

/-- A statement is written as an object that begins with its class; no key occurs twice. -/
theorem writeStatement_members (s : Statement) :
    ∃ rest, writeStatement s = .obj (("class", spelled s.cls s.tag.name) :: rest) ∧
      (Table.names (("class", spelled s.cls s.tag.name) :: rest)).Nodup := by
  cases s with
  | branch cls guard onTrue onFalse comment =>
      cases comment <;> exact ⟨_, rfl, by simp [Table.names, writeComment]⟩
  | assign cls target value => cases target <;> exact ⟨_, rfl, by simp [Table.names, valueKey]⟩
  | finish cls disposition => exact ⟨_, rfl, by simp [Table.names]⟩

/-- Statements that are written as values with the same members. -/
def WrittenAlike (s x : Statement) : Prop := (writeStatement s).sorted = (writeStatement x).sorted

theorem fields_eq {s x : Statement} (same : s.WrittenAlike x) (key : String) :
    ((writeStatement s).get? key).map Json.sorted = ((writeStatement x).get? key).map Json.sorted := by
  obtain ⟨rest, written, distinct⟩ := writeStatement_members s
  obtain ⟨rest', written', distinct'⟩ := writeStatement_members x
  rw [WrittenAlike, written, written'] at same
  rw [written, written']
  exact Json.member_eq distinct distinct' same key

/-- Statements that are written alike have the same class, and spell it alike. -/
theorem class_eq {s x : Statement} (left : s.Spelled) (right : x.Spelled)
    (same : s.WrittenAlike x) : s.tag = x.tag ∧ s.cls = x.cls := by
  have classes := fields_eq same "class"
  obtain ⟨rest, written, -⟩ := writeStatement_members s
  obtain ⟨rest', written', -⟩ := writeStatement_members x
  have names : s.cls.getD s.tag.name = x.cls.getD x.tag.name := by
    rw [written, written', spelled_suits left.own, spelled_suits right.own] at classes
    simpa [Json.get?, Table.get?, Json.sorted] using classes
  have tags : s.tag = x.tag := by
    have last := lastSegment_getD right.own (lastSegment_statement _)
    rw [← names, lastSegment_getD left.own (lastSegment_statement _)] at last
    have found := statementTag_ofName?.mpr last
    rw [statementTag_ofName?.mpr rfl] at found
    exact (Option.some.inj found).symm
  have own := left.own
  rw [tags] at own names
  exact ⟨tags, Expr.spelled_inj own right.own names⟩

theorem forall₂_of_sorted {block other : List Statement}
    (same : (Json.arr (writeStatements block)).sorted = (Json.arr (writeStatements other)).sorted) :
    List.Forall₂ WrittenAlike block other := by
  simp only [writeStatements_eq, Json.sorted, Json.sortedItems_eq, List.map_map,
    Json.arr.injEq] at same
  rwa [map_eq_iff_forall₂] at same

theorem outlineAll_of_forall₂ {block other : List Statement}
    (related : List.Forall₂ (fun s x => s.outline = x.outline) block other) :
    outlineAll block = outlineAll other := by
  induction related with
  | nil => rfl
  | cons first _ ih => rw [outlineAll, outlineAll, first, ih]

/-- A statement the text of which tells all that a run can use. -/
def Legible (s : Statement) : Prop := s.Spelled ∧ s.Every fun _ e => e.Each Expr.Legible

theorem Legible.branch {cls : Spelling} {guard : Expr} {onTrue onFalse : List Statement}
    {comment : Comment} (legible : (branch cls guard onTrue onFalse comment).Legible) :
    guard.Each Expr.Legible ∧ (∀ s ∈ onTrue, s.Legible) ∧ ∀ s ∈ onFalse, s.Legible := by
  obtain ⟨⟨-, spelledTrue, spelledFalse⟩, own, yes, no⟩ := legible
  rw [spelledAll_iff] at spelledTrue spelledFalse
  rw [everyAll_iff] at yes no
  exact ⟨own, fun s member => ⟨spelledTrue s member, yes s member⟩,
    fun s member => ⟨spelledFalse s member, no s member⟩⟩

theorem get?_comment (cls : Spelling) (guard : Expr) (onTrue onFalse : List Statement)
    (comment : Comment) : (writeStatement (.branch cls guard onTrue onFalse comment)).get? "comment" =
      commentMember comment := by
  cases comment <;> rfl

theorem commentMember_inj {comment other : Comment}
    (same : (commentMember comment).map Json.sorted = (commentMember other).map Json.sorted) :
    comment = other := by
  cases comment <;> cases other <;> simp_all [commentMember, Json.sorted]

/-- Legible statements that are written alike have one outline. -/
theorem outline_of_writtenAlike (s x : Statement) (left : s.Legible) (right : x.Legible)
    (same : s.WrittenAlike x) : s.outline = x.outline := by
  obtain ⟨tags, spelled⟩ := class_eq left.1 right.1 same
  have fields := fields_eq same
  cases s with
  | branch cls guard onTrue onFalse comment =>
      cases x with
      | branch cls' guard' onTrue' onFalse' comment' =>
          obtain ⟨own, ownTrue, ownFalse⟩ := left.branch
          obtain ⟨other, otherTrue, otherFalse⟩ := right.branch
          have guards := Expr.outline_of_writtenAlike own other
            (by simpa [Expr.WrittenAlike, writeStatement, Json.get?, Table.get?] using fields "guard")
          have relatedTrue := forall₂_of_sorted
            (by simpa [writeStatement, Json.get?, Table.get?] using fields "trueStatements")
          have relatedFalse := forall₂_of_sorted
            (by simpa [writeStatement, Json.get?, Table.get?] using fields "falseStatements")
          have yes := outlineAll_of_forall₂ <| forall₂_of_mem relatedTrue fun s inside x there =>
            outline_of_writtenAlike s x (ownTrue s inside) (otherTrue x there)
          have no := outlineAll_of_forall₂ <| forall₂_of_mem relatedFalse fun s inside x there =>
            outline_of_writtenAlike s x (ownFalse s inside) (otherFalse x there)
          have comments : comment = comment' := by
            have found := fields "comment"
            rw [get?_comment, get?_comment] at found
            exact commentMember_inj found
          cases spelled
          simp only [outline, guards, yes, no, comments]
      | _ => cases tags
  | assign cls target value =>
      cases x with
      | assign cls' target' value' =>
          cases tags
          cases spelled
          have found := fields (valueKey target)
          have values := Expr.outline_of_writtenAlike left.2 right.2 (by
            cases target <;>
              simpa [Expr.WrittenAlike, writeStatement, valueKey, Json.get?, Table.get?] using found)
          simp only [outline, values]
      | _ => cases tags
  | finish cls disposition =>
      cases x with
      | finish cls' disposition' =>
          cases spelled
          have words : endingName disposition = endingName disposition' := by
            simpa [writeStatement, Json.get?, Table.get?, Json.sorted] using fields "type"
          have found := ending?_some.mpr words.symm
          rw [ending?_some.mpr rfl] at found
          cases found
          rfl
      | _ => cases tags

end Statement

/-- A policy the text of which tells all that a run can use. -/
def Policy.Legible (p : Policy) : Prop := ∀ s ∈ p.statements, s.Legible

/-- Policies that are written as values with the same members. -/
def Policy.WrittenAlike (p q : Policy) : Prop := (writePolicy p).sorted = (writePolicy q).sorted

theorem Policy.WrittenAlike.name {p q : Policy} (alike : p.WrittenAlike q) : p.name = q.name := by
  have fields := Json.member_eq (by simp [Table.names]) (by simp [Table.names]) alike
  simpa [Table.get?, Json.sorted] using fields "name"

/-- Legible policies that are written alike have one outline. -/
theorem Policy.outline_of_writtenAlike {p q : Policy} (left : p.Legible) (right : q.Legible)
    (alike : p.WrittenAlike q) : p.outline = q.outline := by
  have fields := Json.member_eq (by simp [Table.names]) (by simp [Table.names]) alike
  have related := Statement.forall₂_of_sorted (by simpa [Table.get?] using fields "statements")
  have blocks := Statement.outlineAll_of_forall₂ <| forall₂_of_mem related fun s inside x there =>
    Statement.outline_of_writtenAlike s x (left s inside) (right x there)
  unfold outline
  rw [alike.name, blocks]

/-- A well-formed policy is legible if whatever its expressions keep whole is a value of documents. -/
theorem Policy.WellFormed.legible {isNetwork : String → Bool} {p : Policy}
    (formed : p.WellFormed isNetwork)
    (held : Statement.EveryAll (fun _ e => e.Each fun x =>
      ∀ tag raw, x = .unsupported tag raw → raw.Held) p.statements) : p.Legible := by
  obtain ⟨spelled, exprs⟩ := formed
  rw [Statement.spelledAll_iff] at spelled
  rw [Statement.everyAll_iff] at exprs held
  intro s member
  refine ⟨spelled s member, Statement.Every.both ?_ s (exprs s member) (held s member)⟩
  exact fun _ e own whole x inside => (own x inside).legible (whole x inside)

theorem Policy.WellFormed.legible_of_supported {isNetwork : String → Bool} {p : Policy}
    (formed : p.WellFormed isNetwork)
    (supported : Statement.EveryAll (fun _ e => e.Each fun x => x.isSupported = true)
      p.statements) : p.Legible := by
  apply formed.legible
  rw [Statement.everyAll_iff] at supported ⊢
  intro s member
  refine Statement.Every.both ?_ s (supported s member) (supported s member)
  rintro _ e own - x inside tag raw rfl
  cases own _ inside

end RoutePolicy
