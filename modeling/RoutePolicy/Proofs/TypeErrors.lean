import Mathlib.Data.List.Lex
import Mathlib.Order.WellFounded
import RoutePolicy.Proofs.References
import RoutePolicy.Proofs.Tours

/-!
Which type error is reported. The issues of a policy are listed in the order in which its statements
are left, those of the branches of a statement before its own. So the first error is that of the
earliest ill-typed statement of the document, unless there is another one inside the branches of this
statement: then it is one of these.
-/

set_option autoImplicit false

namespace RoutePolicy

/-! ### Two orders of positions -/

/-- Earlier statements come first, and the true branch before the false one. -/
inductive Turn.Precedes : Turn → Turn → Prop where
  | index {i j : Nat} (earlier : i < j) : Precedes (.index i) (.index j)
  | branch : Precedes (.branch true) (.branch false)

namespace Position

/-- Document order: a statement comes before the statements of its branches. -/
def Precedes : Position → Position → Prop := List.Lex Turn.Precedes

/-- The order in which statements are left: a statement comes after those of its branches. -/
inductive LeftBefore : Position → Position → Prop where
  | inside {turn : Turn} {rest : Position} : LeftBefore (turn :: rest) []
  | aside {turn other : Turn} {rest others : Position} (first : turn.Precedes other) :
      LeftBefore (turn :: rest) (other :: others)
  | beside {turn : Turn} {a b : Position} (inner : LeftBefore a b) :
      LeftBefore (turn :: a) (turn :: b)

variable {a b c : Position}

theorem Precedes.asymm (first : Precedes a b) : ¬ Precedes b a := by
  intro second
  induction first with
  | nil => cases second
  | rel turns =>
      cases second with
      | rel back => cases turns <;> cases back; omega
      | cons _ => cases turns; omega
  | cons _ ih =>
      cases second with
      | rel back => cases back; omega
      | cons inner => exact ih inner

/-- What comes after a position comes after the statements that the position lies in. -/
theorem Precedes.of_prefix (precedes : Precedes a b) (above : c <+: a) : Precedes c b := by
  induction precedes generalizing c with
  | nil =>
      rw [List.prefix_nil.mp above]
      exact .nil
  | rel turns =>
      rcases List.prefix_cons_iff.mp above with rfl | ⟨rest, rfl, -⟩
      · exact .nil
      · exact .rel turns
  | cons _ ih =>
      rcases List.prefix_cons_iff.mp above with rfl | ⟨rest, rfl, inner⟩
      · exact .nil
      · exact .cons (ih inner)

/-- A statement comes before those inside its branches. -/
theorem precedes_of_prefix (above : a <+: b) : b = a ∨ Precedes a b := by
  obtain ⟨rest, rfl⟩ := above
  cases rest with
  | nil => exact .inl (List.append_nil a)
  | cons turn rest =>
      have appended : Precedes (a ++ []) (a ++ turn :: rest) := List.Lex.append_left _ .nil a
      rw [List.append_nil] at appended
      exact .inr appended

/-- A statement is left before those that it lies in and before those that come after both. -/
theorem LeftBefore.cases (left : LeftBefore a b) : b <+: a ∧ b ≠ a ∨ Precedes a b ∧ ¬ a <+: b := by
  induction left with
  | inside => exact .inl ⟨List.nil_prefix, List.cons_ne_nil _ _ |>.symm⟩
  | aside first =>
      refine .inr ⟨.rel first, fun above => ?_⟩
      cases (List.cons_prefix_cons.mp above).1
      cases first
      omega
  | beside _ ih =>
      rcases ih with ⟨above, apart⟩ | ⟨precedes, apart⟩
      · exact .inl ⟨List.cons_prefix_cons.mpr ⟨rfl, above⟩, fun same => apart (List.cons.inj same).2⟩
      · exact .inr ⟨.cons precedes, fun above => apart (List.cons_prefix_cons.mp above).2⟩

theorem LeftBefore.append (left : LeftBefore a b) (above : Position) :
    LeftBefore (above ++ a) (above ++ b) := by
  induction above with
  | nil => exact left
  | cons turn rest ih => exact .beside ih

end Position

/-! ### Issues and their statements -/

namespace Statement

/-- The issues of a statement's own guard or assigned value. -/
def ownIssues : Statement → List Issue
  | branch _ guard _ _ _ => guard.issuesAs .guard .boolean
  | assign _ target value => value.issuesAs (.assigned target) target.toAttribute.type
  | finish _ _ => []

/-- The guard or the assigned value has a type error. -/
def IllTyped (s : Statement) : Prop := ∃ issue ∈ s.ownIssues, issue.complaint.isError = true

theorem below?_nil (s : Statement) : s.below? [] = some s := by
  cases s <;> rfl

theorem below?_branch {cls : Spelling} {guard : Expr} {onTrue onFalse : List Statement}
    {comment : Comment} {turn : Turn} {rest : Position} {t : Statement} :
    (branch cls guard onTrue onFalse comment).below? (turn :: rest) = some t ↔
      ∃ taken i inner, turn = .branch taken ∧ rest = .index i :: inner ∧
        ((if taken then onTrue else onFalse)[i]?).bind (·.below? inner) = some t := by
  constructor
  · intro found
    cases turn with
    | index i => cases found
    | branch taken =>
        rcases rest with _ | ⟨other, inner⟩
        · cases found
        · cases other with
          | index i => exact ⟨taken, i, inner, rfl, rfl, found⟩
          | branch other => cases found
  · rintro ⟨taken, i, inner, rfl, rfl, found⟩
    exact found

/-- Issues that are placed at a position. -/
theorem mem_map_placed {issues : List Issue} {here : Position} {x : PlacedIssue} :
    x ∈ issues.map (⟨·, here⟩) ↔ x.position = here ∧ x.issue ∈ issues := by
  constructor
  · rintro member
    obtain ⟨issue, own, rfl⟩ := List.mem_map.mp member
    exact ⟨rfl, own⟩
  · rintro ⟨rfl, own⟩
    exact List.mem_map.mpr ⟨x.issue, own, rfl⟩

/-- A statement without branches has only its own issues. -/
theorem mem_issues_leaf {s : Statement} (leaf : ∀ turn rest, s.below? (turn :: rest) = none)
    {here : Position} {x : PlacedIssue} : x ∈ s.ownIssues.map (⟨·, here⟩) ↔
      ∃ rest t, x.position = here ++ rest ∧ s.below? rest = some t ∧ x.issue ∈ t.ownIssues := by
  rw [mem_map_placed]
  constructor
  · rintro ⟨place, own⟩
    exact ⟨[], s, by rw [place, List.append_nil], below?_nil s, own⟩
  · rintro ⟨rest, t, place, found, own⟩
    cases rest with
    | nil =>
        cases (below?_nil s).symm.trans found
        exact ⟨by rw [place, List.append_nil], own⟩
    | cons turn rest =>
        rw [leaf] at found
        cases found

mutual

/-- The issues of a statement are those of the statements in it, each at its position. -/
theorem mem_issues (here : Position) (s : Statement) (x : PlacedIssue) :
    x ∈ s.issues here ↔ ∃ rest t, x.position = here ++ rest ∧ s.below? rest = some t ∧
      x.issue ∈ t.ownIssues := by
  cases s with
  | branch cls guard onTrue onFalse comment =>
      have inTrue := mem_blockIssues (here ++ [.branch true]) 0 onTrue x
      have inFalse := mem_blockIssues (here ++ [.branch false]) 0 onFalse x
      simp only [List.append_assoc, List.singleton_append, Nat.zero_add] at inTrue inFalse
      rw [issues, List.mem_append, List.mem_append, inTrue, inFalse, mem_map_placed]
      constructor
      · rintro ((⟨i, rest, t, place, found, own⟩ | ⟨i, rest, t, place, found, own⟩) | ⟨place, own⟩)
        · exact ⟨_, t, place, found, own⟩
        · exact ⟨_, t, place, found, own⟩
        · exact ⟨[], _, by rw [place, List.append_nil], below?_nil _, own⟩
      · rintro ⟨rest, t, place, found, own⟩
        cases rest with
        | nil =>
            cases (below?_nil _).symm.trans found
            exact .inr ⟨by rw [place, List.append_nil], own⟩
        | cons turn rest =>
            obtain ⟨taken, i, inner, rfl, rfl, found⟩ := below?_branch.mp found
            cases taken with
            | true => exact .inl (.inl ⟨i, inner, t, place, found, own⟩)
            | false => exact .inl (.inr ⟨i, inner, t, place, found, own⟩)
  | assign cls target value =>
      exact mem_issues_leaf (s := assign cls target value) (by simp [below?])
  | finish cls disposition =>
      exact mem_issues_leaf (s := finish cls disposition) (by simp [below?])

theorem mem_blockIssues (above : Position) (i : Nat) (block : List Statement) (x : PlacedIssue) :
    x ∈ blockIssues above i block ↔ ∃ j rest t, x.position = above ++ .index (i + j) :: rest ∧
      (block[j]?).bind (·.below? rest) = some t ∧ x.issue ∈ t.ownIssues := by
  cases block with
  | nil => simp [blockIssues]
  | cons s rest =>
      have first := mem_issues (above ++ [.index i]) s x
      have later := mem_blockIssues above (i + 1) rest x
      simp only [List.append_assoc, List.singleton_append] at first
      rw [blockIssues, List.mem_append, first, later]
      constructor
      · rintro (⟨inner, t, place, found, own⟩ | ⟨j, inner, t, place, found, own⟩)
        · exact ⟨0, inner, t, place, found, own⟩
        · refine ⟨j + 1, inner, t, ?_, found, own⟩
          rw [place, Nat.add_right_comm, Nat.add_assoc]
      · rintro ⟨j, inner, t, place, found, own⟩
        cases j with
        | zero => exact .inl ⟨inner, t, place, found, own⟩
        | succ j =>
            refine .inr ⟨j, inner, t, ?_, found, own⟩
            rw [place, Nat.add_right_comm, Nat.add_assoc]

end

/-- Issues in the order in which their statements are left. -/
def InOrder (issues : List PlacedIssue) : Prop :=
  issues.Pairwise fun x y => x.position = y.position ∨ x.position.LeftBefore y.position

/-- Issues of one place may come after those of places that are left before. -/
theorem InOrder.placed {before : List PlacedIssue} (ordered : InOrder before) {here : Position}
    (left : ∀ x ∈ before, x.position.LeftBefore here) (issues : List Issue) :
    InOrder (before ++ issues.map (⟨·, here⟩)) := by
  have own : InOrder (issues.map (⟨·, here⟩)) :=
    List.pairwise_map.mpr (List.pairwise_of_forall fun _ _ => .inl rfl)
  refine List.pairwise_append.mpr ⟨ordered, own, fun x member y later => .inr ?_⟩
  rw [(mem_map_placed.mp later).1]
  exact left x member

mutual

theorem issues_inOrder (here : Position) (s : Statement) : InOrder (s.issues here) := by
  cases s with
  | branch cls guard onTrue onFalse comment =>
      have inTrue := blockIssues_inOrder (here ++ [.branch true]) 0 onTrue
      have inFalse := blockIssues_inOrder (here ++ [.branch false]) 0 onFalse
      have branches : InOrder (blockIssues (here ++ [.branch true]) 0 onTrue ++
          blockIssues (here ++ [.branch false]) 0 onFalse) := by
        refine List.pairwise_append.mpr ⟨inTrue, inFalse, fun x member y later => .inr ?_⟩
        obtain ⟨i, rest, -, place, -⟩ := (mem_blockIssues _ _ _ x).mp member
        obtain ⟨j, others, -, other, -⟩ := (mem_blockIssues _ _ _ y).mp later
        rw [place, other, List.append_assoc, List.append_assoc]
        exact .append (.aside .branch) here
      refine branches.placed (fun x member => ?_) (guard.issuesAs .guard .boolean)
      have inside : ∃ turn rest, x.position = here ++ turn :: rest := by
        rcases List.mem_append.mp member with first | second
        · obtain ⟨i, rest, -, place, -⟩ := (mem_blockIssues _ _ _ x).mp first
          exact ⟨_, _, place.trans (List.append_assoc _ _ _)⟩
        · obtain ⟨i, rest, -, place, -⟩ := (mem_blockIssues _ _ _ x).mp second
          exact ⟨_, _, place.trans (List.append_assoc _ _ _)⟩
      obtain ⟨turn, rest, place⟩ := inside
      have left := Position.LeftBefore.append (a := turn :: rest) .inside here
      rwa [← place, List.append_nil] at left
  | assign cls target value => exact InOrder.placed .nil (by simp) _
  | finish cls disposition => exact .nil

theorem blockIssues_inOrder (above : Position) (i : Nat) (block : List Statement) :
    InOrder (blockIssues above i block) := by
  cases block with
  | nil => exact .nil
  | cons s rest =>
      have first := issues_inOrder (above ++ [.index i]) s
      have later := blockIssues_inOrder above (i + 1) rest
      refine List.pairwise_append.mpr ⟨first, later, fun x member y after => .inr ?_⟩
      obtain ⟨inner, -, place, -⟩ := (mem_issues _ s x).mp member
      obtain ⟨j, others, -, other, -⟩ := (mem_blockIssues _ _ rest y).mp after
      rw [place, other, List.append_assoc]
      exact .append (.aside (.index (by omega))) above

end

end Statement

/-! ### The first error of a policy -/

namespace Policy

variable {p : Policy}

/-- The policy has a statement with a type error of its own at a position. -/
def IllTypedAt (p : Policy) (position : Position) : Prop :=
  ∃ s, p.statementAt? position = some s ∧ s.IllTyped

/-- No other statement with a type error comes before the one at this position in the document. -/
structure FirstIllTyped (p : Policy) (position : Position) : Prop where
  illTyped : p.IllTypedAt position
  first : ∀ other, p.IllTypedAt other → other = position ∨ position.Precedes other

theorem mem_issues {x : PlacedIssue} : x ∈ p.issues ↔
    ∃ s, p.statementAt? x.position = some s ∧ x.issue ∈ s.ownIssues := by
  rw [issues, Statement.mem_blockIssues]
  simp only [List.nil_append, Nat.zero_add]
  constructor
  · rintro ⟨i, rest, s, place, found, own⟩
    exact ⟨s, by rwa [place], own⟩
  · rintro ⟨s, found, own⟩
    unfold statementAt? at found
    split at found
    · rename_i i rest place
      exact ⟨i, rest, s, place, found, own⟩
    · cases found

theorem illTypedAt_iff {position : Position} : p.IllTypedAt position ↔
    ∃ x ∈ p.issues, x.issue.complaint.isError = true ∧ x.position = position := by
  simp only [mem_issues]
  constructor
  · rintro ⟨s, found, issue, own, error⟩
    exact ⟨⟨issue, position⟩, ⟨s, found, own⟩, error, rfl⟩
  · rintro ⟨x, ⟨s, found, own⟩, error, rfl⟩
    exact ⟨s, found, x.issue, own, error⟩

/-- The first error is that of the ill-typed statement that is left first. -/
theorem firstError?_left {found : PlacedIssue} (first : p.firstError? = some found) :
    (∃ s, p.statementAt? found.position = some s ∧ found.issue ∈ s.ownIssues ∧
      found.issue.complaint.isError = true) ∧
      ∀ other, p.IllTypedAt other → found.position = other ∨ found.position.LeftBefore other := by
  obtain ⟨error, before, after, split, silent⟩ := List.find?_eq_some_iff_append.mp first
  have ordered : Statement.InOrder p.issues := Statement.blockIssues_inOrder [] 0 p.statements
  constructor
  · obtain ⟨s, place, own⟩ := mem_issues.mp (List.mem_of_find?_eq_some first)
    exact ⟨s, place, own, error⟩
  · intro other wrong
    obtain ⟨x, member, refused, rfl⟩ := illTypedAt_iff.mp wrong
    rw [split, List.mem_append, List.mem_cons] at member
    rcases member with earlier | rfl | later
    · have minor := silent x earlier
      rw [refused] at minor
      cases minor
    · exact .inl rfl
    · have suffix := (List.pairwise_append.mp (split ▸ ordered)).2.1
      exact (List.pairwise_cons.mp suffix).1 x later

theorem firstError?_isSome (refused : p.wellTyped = false) : ∃ found, p.firstError? = some found := by
  rw [← Option.isSome_iff_exists, firstError?, List.find?_isSome]
  simpa [wellTyped] using refused

/-- The ill-typed statement that comes first in the document stands on the way to the one that is left
first. -/
theorem exists_firstIllTyped {left : Position} (wrong : p.IllTypedAt left)
    (before : ∀ other, p.IllTypedAt other → left = other ∨ left.LeftBefore other) :
    ∃ first, p.FirstIllTyped first ∧ first <+: left := by
  obtain ⟨first, ⟨above, illTyped⟩, least⟩ := WellFounded.has_min (measure List.length).wf
    {position | position <+: left ∧ p.IllTypedAt position} ⟨left, List.prefix_rfl, wrong⟩
  refine ⟨first, ⟨illTyped, fun other refused => ?_⟩, above⟩
  have inside : other <+: left → other = first ∨ Position.Precedes first other := by
    intro outer
    rcases List.prefix_or_prefix_of_prefix above outer with inner | outside
    · exact Position.precedes_of_prefix inner
    · have length := Nat.not_lt.mp (least other ⟨outer, refused⟩)
      exact .inl (outside.eq_of_length_le length)
  rcases before other refused with rfl | leaves
  · exact inside List.prefix_rfl
  · rcases leaves.cases with ⟨outer, -⟩ | ⟨precedes, -⟩
    · exact inside outer
    · exact .inr (precedes.of_prefix above)

/-- What is reported about an ill-typed policy: a type error of the first ill-typed statement in the
document, or of a statement inside the branches of this one, and of the first one itself exactly if
no statement inside its branches has a type error. -/
structure Reported (p : Policy) (found : PlacedIssue) : Prop where
  own : ∃ s, p.statementAt? found.position = some s ∧ found.issue ∈ s.ownIssues ∧
    found.issue.complaint.isError = true
  first : ∃ first, p.FirstIllTyped first ∧ first <+: found.position ∧
    (found.position = first ↔ ∀ other, p.IllTypedAt other → first <+: other → other = first)

theorem reported_of_firstError? {found : PlacedIssue} (first : p.firstError? = some found) :
    p.Reported found := by
  obtain ⟨⟨s, place, own, error⟩, before⟩ := firstError?_left first
  have wrong : p.IllTypedAt found.position := ⟨s, place, found.issue, own, error⟩
  obtain ⟨first, earliest, above⟩ := exists_firstIllTyped wrong before
  refine ⟨⟨s, place, own, error⟩, first, earliest, above, ?_, fun alone => alone _ wrong above⟩
  rintro rfl other refused inner
  rcases before other refused with same | leaves
  · exact same.symm
  · rcases leaves.cases with ⟨outer, -⟩ | ⟨-, apart⟩
    · exact outer.eq_of_length_le inner.length_le
    · exact absurd inner apart

end Policy

/-! ### The first error of a topology -/

namespace Topology

/-- A check of all items fails at the first item that fails it. -/
theorem checkAll_error {α : Type} {check : α → Outcome Unit} {items : List α} {f : Failure}
    (failed : checkAll check items = .error f) : ∃ before item after,
      items = before ++ item :: after ∧ (∀ x ∈ before, check x = .ok ()) ∧ check item = .error f := by
  induction items with
  | nil => cases failed
  | cons item rest ih =>
      cases own : check item with
      | error g =>
          rw [checkAll, own] at failed
          cases failed
          exact ⟨[], item, rest, rfl, List.forall_mem_nil _, own⟩
      | ok passed =>
          rw [checkAll, own] at failed
          obtain ⟨before, other, after, rfl, passes, fails⟩ := ih failed
          exact ⟨item :: before, other, after, rfl, List.forall_mem_cons.mpr ⟨own, passes⟩, fails⟩

/-- The failure that names a type error. -/
def illTyped (node policy : String) (found : PlacedIssue) : Failure :=
  ⟨.malformed (.illTyped found.issue.complaint) [],
    [("node", node), ("policy", policy), ("statement", found.position.text)]⟩

/-- The check of one policy of a node. -/
def checkPolicy (n : Node) (p : Policy) : Outcome Unit :=
  match p.firstError? with
  | none => .ok ()
  | some found => .error (illTyped n.name p.name found)

theorem checkTypes_eq (t : Topology) : t.checkTypes =
    checkAll (fun n => checkAll (checkPolicy n) n.policies.values) t.nodes := rfl

theorem checkPolicy_ok {n : Node} {p : Policy} : checkPolicy n p = .ok () ↔ p.wellTyped = true := by
  have none : p.firstError? = none ↔ p.wellTyped = true := by
    simp [Policy.firstError?, Policy.wellTyped]
  rw [← none, checkPolicy]
  cases p.firstError? <;> simp

theorem checkPolicy_error {n : Node} {p : Policy} {f : Failure} (failed : checkPolicy n p = .error f) :
    ∃ found, p.firstError? = some found ∧ f = illTyped n.name p.name found := by
  unfold checkPolicy at failed
  split at failed
  · cases failed
  · rename_i found first
    cases failed
    exact ⟨found, first, rfl⟩

/-- A topology passes the check exactly if no policy has a type error. -/
theorem checkTypes_ok {t : Topology} : t.checkTypes = .ok () ↔
    ∀ n ∈ t.nodes, ∀ p ∈ n.policies.values, p.wellTyped = true := by
  simp only [checkTypes_eq, checkAll_ok, checkPolicy_ok]

/-- A topology that does not pass the check is refused for the first ill-typed policy of the first
node that has one. -/
theorem checkTypes_error {t : Topology} {f : Failure} (failed : t.checkTypes = .error f) :
    ∃ before n after earlier p later found, t.nodes = before ++ n :: after ∧
      (∀ m ∈ before, ∀ q ∈ m.policies.values, q.wellTyped = true) ∧
      n.policies.values = earlier ++ p :: later ∧ (∀ q ∈ earlier, q.wellTyped = true) ∧
      p.firstError? = some found ∧ f = illTyped n.name p.name found := by
  obtain ⟨before, n, after, nodes, passed, here⟩ := checkAll_error (checkTypes_eq t ▸ failed)
  obtain ⟨earlier, p, later, policies, fine, refused⟩ := checkAll_error here
  obtain ⟨found, first, rfl⟩ := checkPolicy_error refused
  simp only [checkAll_ok, checkPolicy_ok] at passed fine
  exact ⟨before, n, after, earlier, p, later, found, nodes, passed, policies, fine, first, rfl⟩

end Topology

/-- The first error of a policy is that of its first ill-typed statement, or of one inside the branches
of this statement if there is one; and a topology is refused for the first error of the first ill-typed
policy of the first node that has one. -/
theorem type_errors_named (policy : Policy) (t : Topology) :
    (policy.wellTyped = false →
      ∃ found, policy.firstError? = some found ∧ policy.Reported found) ∧
    ((∃ n ∈ t.nodes, ∃ p ∈ n.policies.values, p.wellTyped = false) →
      ∃ before n after earlier p later found, t.nodes = before ++ n :: after ∧
        (∀ m ∈ before, ∀ q ∈ m.policies.values, q.wellTyped = true) ∧
        n.policies.values = earlier ++ p :: later ∧ (∀ q ∈ earlier, q.wellTyped = true) ∧
        p.Reported found ∧ t.checkTypes = .error (Topology.illTyped n.name p.name found)) := by
  refine ⟨fun refused => ?_, fun ⟨n, listed, p, member, refused⟩ => ?_⟩
  · obtain ⟨found, first⟩ := Policy.firstError?_isSome refused
    exact ⟨found, first, Policy.reported_of_firstError? first⟩
  · cases checked : t.checkTypes with
    | ok passed =>
        rw [Topology.checkTypes_ok.mp checked n listed p member] at refused
        cases refused
    | error f =>
        obtain ⟨before, n, after, earlier, p, later, found, nodes, passed, policies, fine, first,
          rfl⟩ := Topology.checkTypes_error checked
        exact ⟨before, n, after, earlier, p, later, found, nodes, passed, policies, fine,
          Policy.reported_of_firstError? first, rfl⟩

namespace Misfit

/-! A truth value is assigned to a number in both branches of a condition, and once more behind it. -/

def value : Statement := .assign none .metric (.lit none (.bool true))

def guarded (guard : Expr) : Policy := ⟨"P", [.branch none guard [value] [value] .absent, value]⟩

def topology (guard : Expr) : Topology :=
  ⟨[⟨"r1", none, [], [], [("P", guarded guard)], false⟩], []⟩

/-- A guard without a type error. -/
def asked : Expr := .hasCommunity none (.ref .communities) "65000:1"

/-- A guard that is no condition. -/
def number : Expr := .lit none (.int 1)

theorem asked_errors_named :
    ((guarded asked).firstError?.map fun found => found.position.text) = some "0.true.0" ∧
      (∃ found, (guarded asked).firstError? = some found ∧ (guarded asked).Reported found) ∧
      ∃ before n after earlier p later found, (topology asked).nodes = before ++ n :: after ∧
        (∀ m ∈ before, ∀ q ∈ m.policies.values, q.wellTyped = true) ∧
        n.policies.values = earlier ++ p :: later ∧ (∀ q ∈ earlier, q.wellTyped = true) ∧
        p.Reported found ∧
        (topology asked).checkTypes = .error (Topology.illTyped n.name p.name found) := by
  have refused : (guarded asked).wellTyped = false := by decide
  have named := type_errors_named (guarded asked) (topology asked)
  refine ⟨by rfl, named.1 refused,
    named.2 ⟨_, List.mem_singleton_self _, guarded asked, ?_, refused⟩⟩
  exact List.mem_singleton_self _

/-- The error of the guard stands first in the document, but one of its branches is named. -/
theorem number_guard_not_named :
    (guarded number).FirstIllTyped [.index 0] ∧
      ∃ found, (guarded number).firstError? = some found ∧
        found.position = [.index 0, .branch true, .index 0] ∧
        (topology number).checkTypes = .error (Topology.illTyped "r1" "P" found) := by
  refine ⟨⟨⟨_, rfl, _, List.mem_singleton_self _, rfl⟩, ?_⟩, _, rfl, rfl, rfl⟩
  rintro other ⟨s, found, -⟩
  rcases other with _ | ⟨turn, rest⟩
  · cases found
  · cases turn with
    | branch taken => cases found
    | index i =>
        cases i with
        | zero =>
            rcases rest with _ | ⟨turn, inner⟩
            · exact .inl rfl
            · exact .inr (.cons .nil)
        | succ i => exact .inr (.rel (.index i.succ_pos))

end Misfit

end RoutePolicy
