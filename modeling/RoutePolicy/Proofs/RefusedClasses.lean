import RoutePolicy.Proofs.FailedReads
import RoutePolicy.Proofs.SimplifiedReferences
import RoutePolicy.Proofs.UnknownClasses

/-!
Refused classes. Where the reader that keeps classes outside the vocabulary succeeds, the reader
that refuses them fails for the first node of such a class, at its place: what stands before it is
read the same by both.
-/

set_option autoImplicit false

namespace RoutePolicy

/-- Nodes of expressions and their places, in the order in which they are read. -/
abbrev Located := List (Location × Expr)

namespace Located

/-- The nodes as seen from the enclosing value. -/
def further (step : Step) (found : Located) : Located := found.map fun x => (step :: x.1, x.2)

variable {α : Type}

/-- The nodes of the items of a list, the first of which has the given position. -/
def listed (locate : α → Located) : Nat → List α → Located
  | _, [] => []
  | i, x :: rest => further (.index i) (locate x) ++ listed locate (i + 1) rest

theorem map_snd_further {step : Step} {found : Located} :
    (further step found).map Prod.snd = found.map Prod.snd := by
  rw [further, List.map_map]
  rfl

theorem map_snd_listed {locate : α → Located} {nodes : α → List Expr} {xs : List α}
    (each : ∀ x ∈ xs, (locate x).map Prod.snd = nodes x) (i : Nat) :
    (listed locate i xs).map Prod.snd = xs.flatMap nodes := by
  induction xs generalizing i with
  | nil => rfl
  | cons x rest ih =>
      obtain ⟨here, later⟩ := List.forall_mem_cons.mp each
      rw [listed, List.map_append, map_snd_further, here, ih later, List.flatMap_cons]

end Located

namespace Expr

open Located (further)

mutual

/-- The nodes of an expression and their places in the encoding, each node before its parts. -/
def located : Expr → Located
  | e@(junction _ .all operands) => ([], e) :: further (.field "conjuncts") (locatedFrom 0 operands)
  | e@(junction _ .any operands) => ([], e) :: further (.field "disjuncts") (locatedFrom 0 operands)
  | e@(union _ operands) => ([], e) :: further (.field "exprs") (locatedFrom 0 operands)
  | e@(not _ operand) => ([], e) :: further (.field "expr") operand.located
  | e@(prepend _ _ operand) => ([], e) :: further (.field "expr") operand.located
  | e@(compare _ _ left right) =>
    ([], e) :: (further (.field "left") left.located ++ further (.field "right") right.located)
  | e@(hasCommunity _ subject _) => ([], e) :: further (.field "communitySetExpr") subject.located
  | e@(inRanges _ subject _ _) => ([], e) :: further (.field "prefix") subject.located
  | e@(inList _ subject _ _) => ([], e) :: further (.field "prefix") subject.located
  | e => [([], e)]

def locatedFrom (i : Nat) : List Expr → Located
  | [] => []
  | e :: rest => further (.index i) e.located ++ locatedFrom (i + 1) rest

end

theorem locatedFrom_eq (i : Nat) (es : List Expr) : locatedFrom i es = .listed located i es := by
  induction es generalizing i with
  | nil => rfl
  | cons e rest ih => rw [locatedFrom, ih, Located.listed]

theorem located_leaf {e : Expr} (leaf : e.children = []) : e.located = [([], e)] := by
  cases e with
  | junction cls op es =>
    obtain rfl : es = [] := leaf
    cases op <;> rfl
  | union cls es =>
    obtain rfl : es = [] := leaf
    rfl
  | compare _ _ _ _ | not _ _ | prepend _ _ _ | hasCommunity _ _ _ | inRanges _ _ _ _
  | inList _ _ _ _ => cases leaf
  | lit _ _ | attr _ _ | call _ _ | adjust _ _ _ | namedSet _ _ | unsupported _ _ => rfl

/-- Every node has a place. -/
theorem map_snd_located (e : Expr) : e.located.map Prod.snd = e.nodes := by
  induction e using Expr.childrenInduction with
  | step e ih =>
    cases e with
    | junction cls op es =>
      have operands := Located.map_snd_listed ih 0
      cases op <;> rw [located, List.map_cons, Located.map_snd_further, locatedFrom_eq, nodes_eq] <;>
        exact congrArg _ operands
    | union cls es =>
      rw [located, List.map_cons, Located.map_snd_further, locatedFrom_eq, nodes_eq]
      exact congrArg _ (Located.map_snd_listed ih 0)
    | compare cls comparator left right =>
      obtain ⟨inLeft, others⟩ := List.forall_mem_cons.mp ih
      have inRight := List.forall_mem_singleton.mp others
      rw [located, List.map_cons, List.map_append, Located.map_snd_further, Located.map_snd_further,
        inLeft, inRight, nodes]
    | not _ _ | prepend _ _ _ | hasCommunity _ _ _ | inRanges _ _ _ _ | inList _ _ _ _ =>
      rw [located, List.map_cons, Located.map_snd_further, List.forall_mem_singleton.mp ih, nodes]
    | lit _ _ | attr _ _ | call _ _ | adjust _ _ _ | namedSet _ _ | unsupported _ _ => rfl

end Expr

namespace Statement

open Located (further)

mutual

/-- The nodes of a statement's expressions and their places in the encoding. -/
def located : Statement → Located
  | branch _ guard onTrue onFalse _ =>
    further (.field "guard") guard.located ++
      (further (.field "trueStatements") (locatedFrom 0 onTrue) ++
        further (.field "falseStatements") (locatedFrom 0 onFalse))
  | assign _ target value => further (.field (Encoding.valueKey target)) value.located
  | finish _ _ => []

def locatedFrom (i : Nat) : List Statement → Located
  | [] => []
  | s :: rest => further (.index i) s.located ++ locatedFrom (i + 1) rest

end

theorem locatedFrom_eq (i : Nat) (block : List Statement) :
    locatedFrom i block = .listed located i block := by
  induction block generalizing i with
  | nil => rfl
  | cons s rest ih => rw [locatedFrom, ih, Located.listed]

mutual

theorem map_snd_located (s : Statement) : s.located.map Prod.snd = s.exprs.flatMap Expr.nodes := by
  cases s with
  | branch cls guard onTrue onFalse comment =>
      rw [located, List.map_append, List.map_append, Located.map_snd_further, Located.map_snd_further,
        Located.map_snd_further, Expr.map_snd_located, map_snd_locatedFrom 0 onTrue,
        map_snd_locatedFrom 0 onFalse, exprs, List.flatMap_cons, List.flatMap_append]
  | assign cls target value =>
      rw [located, Located.map_snd_further, Expr.map_snd_located, exprs, List.flatMap_singleton]
  | finish cls disposition => rfl

theorem map_snd_locatedFrom (i : Nat) (block : List Statement) :
    (locatedFrom i block).map Prod.snd = (exprsAll block).flatMap Expr.nodes := by
  cases block with
  | nil => rfl
  | cons s rest =>
      rw [locatedFrom, List.map_append, Located.map_snd_further, map_snd_located s,
        map_snd_locatedFrom (i + 1) rest, exprsAll, List.flatMap_append]

end

end Statement

namespace Policy

/-- The nodes of a policy's expressions. -/
def nodes (p : Policy) : List Expr := (Statement.exprsAll p.statements).flatMap Expr.nodes

/-- The nodes of a policy's expressions and their places in the encoding. -/
def located (p : Policy) : Located :=
  .further (.field "statements") (Statement.locatedFrom 0 p.statements)

theorem map_snd_located (p : Policy) : p.located.map Prod.snd = p.nodes := by
  rw [located, Located.map_snd_further, Statement.map_snd_locatedFrom, nodes]

theorem admitted_iff {p : Policy} : p.Admitted false ↔ ∀ e ∈ p.nodes, e.isSupported = true := by
  have own : ∀ e : Expr, Expr.Admitted false e ↔ e.isSupported = true := by simp [Expr.Admitted]
  simp only [Admitted, Statement.everyAll_exprs, Expr.Each, own, nodes, List.forall_mem_flatMap]

end Policy

namespace Encoding

variable {α β : Type} {ms : Table Json} {key : String}

/-! ### Strict readings -/

/-- The failure for a node at a place, if its class is outside the vocabulary. -/
def refused? (x : Location × Expr) : Option Failure :=
  match x.2 with
  | .unsupported tag _ => some (.encodingAt (.unsupportedExpression tag) x.1)
  | _ => none

/-- What a strict reader makes of a value with these nodes: the first refused node decides. -/
def strictly (found : Located) (a : α) : Outcome α :=
  match found.findSome? refused? with
  | some f => .error f
  | none => .ok a

theorem refused?_supported {place : Location} {e : Expr} (supported : e.isSupported = true) :
    refused? (place, e) = none := by
  cases e <;> first | rfl | cases supported

theorem findSome?_further {step : Step} {found : Located} :
    (found.further step).findSome? refused? =
      (found.findSome? refused?).map (Failure.within step) := by
  induction found with
  | nil => rfl
  | cons x rest ih =>
      obtain ⟨place, e⟩ := x
      rw [Located.further] at ih
      cases e <;> simp only [Located.further, List.map_cons, List.findSome?_cons, refused?, ih]
      rfl

/-- A refused node of an enclosed value is refused one step further. -/
theorem within_strictly {step : Step} {found : Located} {a : α} :
    Outcome.within step (strictly found a) = strictly (found.further step) a := by
  rw [strictly, strictly, findSome?_further]
  cases found.findSome? refused? <;> rfl

/-- A member that is there is read where it stands. -/
theorem child_found {value : Json}
    {read : (value : Json) → sizeOf value < sizeOf (Json.obj ms) → Outcome α}
    (here : ms.get? key = some value) :
    child ms key read = Outcome.within (.field key) (read value (Json.sizeOf_get? here)) := by
  unfold child
  split
  · rename_i other same
    cases here.symm.trans same
    rfl
  · rename_i missing
    rw [here] at missing
    cases missing

/-- What a strict reader makes of a value, given what the other one reads and the nodes of that. -/
structure Surveyed (j : Json) (found : Located) (a : α) (r : Outcome α) : Prop where
  /-- The first node outside the vocabulary is refused. -/
  strict : r = strictly found a
  /-- The nodes stand at their places. -/
  stands : ∀ x ∈ found, ∃ value, j.at? x.1 = some value ∧ readExpr true value = .ok x.2

namespace Surveyed

variable {j value : Json} {found more : Located} {a : α} {b : β} {r : Outcome α}
  {next : α → Outcome β}

theorem ok : Surveyed j [] a (.ok a) := ⟨rfl, List.forall_mem_nil _⟩

/-- What is read first is refused first. -/
theorem bind (first : Surveyed j found a r) (later : Surveyed j more b (next a)) :
    Surveyed j (found ++ more) b (r >>= next) where
  strict := by
    rw [first.strict, strictly, strictly, List.findSome?_append]
    cases found.findSome? refused? with
    | some f => rfl
    | none => exact later.strict
  stands := List.forall_mem_append.mpr ⟨first.stands, later.stands⟩

/-- Behind the last node nothing is refused. -/
theorem last (first : Surveyed j found a r) (done : next a = .ok b) :
    Surveyed j found b (r >>= next) := by
  rw [← List.append_nil found]
  exact first.bind (done ▸ ok)

/-- What holds no nodes is read the same. -/
theorem after {r : Outcome α} (read : r = .ok a) (later : Surveyed j found b (next a)) :
    Surveyed j found b (r >>= next) := by
  rw [read]
  exact later

theorem within {step : Step} (here : j.step? step = some value) (inner : Surveyed value found a r) :
    Surveyed j (found.further step) a (Outcome.within step r) where
  strict := by rw [inner.strict, within_strictly]
  stands := by
    refine List.forall_mem_map.mpr fun x member => ?_
    rw [Json.at?_cons here]
    exact inner.stands x member

/-- A node of the vocabulary stands before its parts and is not refused itself. -/
theorem node {e : Expr} {r : Outcome Expr} (read : readExpr true j = .ok e)
    (supported : e.isSupported = true) (inner : Surveyed j found e r) :
    Surveyed j (([], e) :: found) e r where
  strict := by
    rw [inner.strict, strictly, strictly, List.findSome?_cons, refused?_supported supported]
  stands := List.forall_mem_cons.mpr ⟨⟨j, rfl, read⟩, inner.stands⟩

theorem child {read : Json → Outcome α} (here : ms.get? key = some value)
    (inner : Surveyed value found a (read value)) :
    Surveyed (.obj ms) (found.further (.field key)) a
      (Encoding.child ms key fun value _ => read value) := by
  rw [child_found here]
  exact .within here inner

/-- The items of a list are read one after another, from any position on. -/
theorem eachFrom {read : Json → Outcome α} {locate : α → Located} (before : List Json)
    {items : List Json} {xs : List α}
    (related : List.Forall₂ (fun item x => Surveyed item (locate x) x (read item)) items xs) :
    Surveyed (.arr (before ++ items)) (.listed locate before.length xs) xs
      (Encoding.eachFrom before.length items fun item _ => read item) := by
  induction related generalizing before with
  | nil => exact ok
  | @cons item x rest xs first _ ih =>
      have here : (Json.arr (before ++ item :: rest)).step? (.index before.length) = some item := by
        simp [Json.step?]
      have later := ih (before ++ [item])
      rw [List.append_assoc, List.length_append] at later
      exact (first.within here).bind (later.last rfl)

theorem each {read : Json → Outcome α} {locate : α → Located} {items : List Json} {xs : List α}
    (related : List.Forall₂ (fun item x => Surveyed item (locate x) x (read item)) items xs) :
    Surveyed (.arr items) (.listed locate 0 xs) xs
      (Encoding.each items fun item _ => read item) :=
  eachFrom [] related

theorem operands {read : Json → Outcome α} {locate : α → Located} {items : List Json} {xs : List α}
    (filled : xs ≠ []) (here : ms.get? key = some (.arr items))
    (related : List.Forall₂ (fun item x => Surveyed item (locate x) x (read item)) items xs) :
    Surveyed (.obj ms) (.further (.field key) (.listed locate 0 xs)) xs
      (Encoding.operands ms key fun value _ => read value) := by
  have each := each related
  rw [Encoding.operands, child_found here]
  cases related with
  | nil => exact absurd rfl filled
  | cons _ _ => exact .within here each

end Surveyed

/-! ### Expressions -/

/-- What is surveyed of an expression: its nodes, by any reading of it. -/
def Surveys (e : Expr) : Prop :=
  ∀ j, readExpr true j = .ok e → Surveyed j e.located e (readExpr false j)

theorem surveyed_child {e : Expr} (surveys : Surveys e) (child : Child true ms key e) :
    Surveyed (.obj ms) (e.located.further (.field key)) e
      (Encoding.child ms key fun value _ => readExpr false value) := by
  obtain ⟨value, here, read⟩ := child
  exact .child here (surveys value read)

theorem surveyed_operands {es : List Expr} (surveys : ∀ e ∈ es, Surveys e)
    (operands : Operands true ms key es) :
    Surveyed (.obj ms) (.further (.field key) (Expr.locatedFrom 0 es)) es
      (Encoding.operands ms key fun value _ => readExpr false value) := by
  obtain ⟨filled, items, here, related⟩ := operands
  rw [Expr.locatedFrom_eq]
  refine .operands filled here (forall₂_of_mem related fun item _ e member read => ?_)
  exact surveys e member item read

theorem readExpr_surveyed (e : Expr) : Surveys e := by
  induction e using Expr.childrenInduction with
  | step e ih =>
    intro j read
    obtain ⟨ms, name, rfl, finite, cls⟩ := readExpr_object read
    have classed : className ms = .ok (lastSegment name) := className_ok.mpr ⟨name, cls, rfl⟩
    cases known : ExprTag.ofName? (lastSegment name) with
    | none =>
      obtain ⟨-, rfl⟩ := (readExpr_other finite cls known).mp read
      rw [readExpr, if_pos finite]
      refine .after classed ?_
      simp only [known]
      exact ⟨rfl, List.forall_mem_singleton.mpr ⟨_, rfl, read⟩⟩
    | some tag =>
      have named := exprTag_ofName?.mp known
      have encodes := (readExpr_known finite cls named).mp read
      have supported := isSupported_of_encodes encodes
      by_cases leaf : e.children = []
      · -- without parts both readers read the same
        have same : Encodes false ms tag e := by
          refine (encodes_admitted fun c _ => readExpr_iff_admitted c).mpr ⟨encodes, ?_⟩
          rw [leaf]
          exact List.forall_mem_nil _
        rw [Expr.located_leaf leaf, (readExpr_known finite cls named).mpr same]
        exact .node read supported .ok
      · rw [readExpr, if_pos finite]
        refine .after classed ?_
        simp only [known]
        cases tag with
        | boolean | integer | ref | communities | address | network | asPath | call | increment
        | decrement | namedSet =>
          obtain ⟨_, -, rfl⟩ := encodes
          exact absurd rfl leaf
        | all | any | union =>
          obtain ⟨es, operands, rfl⟩ := encodes
          exact .node read rfl ((surveyed_operands ih operands).last rfl)
        | not =>
          obtain ⟨operand, child, rfl⟩ := encodes
          exact .node read rfl ((surveyed_child (ih _ (.head _)) child).last rfl)
        | hasCommunity =>
          obtain ⟨community, ⟨found, valid⟩, subject, child, rfl⟩ := encodes
          refine .node read rfl (.after (checkedText_iff.mpr ⟨found, valid⟩) ?_)
          exact (surveyed_child (ih _ (.head _)) child).last rfl
        | prepend =>
          obtain ⟨list, asns, operand, child, rfl⟩ := encodes
          refine .node read rfl (.after (asnList_ok.mpr asns) ?_)
          exact (surveyed_child (ih _ (.head _)) child).last rfl
        | compare =>
          obtain ⟨comparator, word, left, inLeft, right, inRight, rfl⟩ := encodes
          refine .node read rfl (.after (readComparator_ok.mpr word) ?_)
          refine (surveyed_child (ih _ (.head _)) inLeft).bind ?_
          exact (surveyed_child (ih _ (.tail _ (.head _))) inRight).last rfl
        | matchNetworks =>
          obtain ⟨subject, child, set, networks, rfl⟩ := encodes
          have parts : (set.toExpr (spelling ms) subject).children = [subject] := by
            cases set <;> rfl
          have located : (set.toExpr (spelling ms) subject).located =
              ([], set.toExpr (spelling ms) subject) ::
                subject.located.further (.field "prefix") := by
            cases set <;> rfl
          rw [parts, List.forall_mem_singleton] at ih
          rw [located]
          refine .node read supported ((surveyed_child ih child).last ?_)
          rw [child_iff.mpr networks]
          rfl

/-! ### Statements -/

theorem surveyed_block {block : List Statement} (surveys : ∀ s ∈ block, ∀ j,
      readStatement true j = .ok s → Surveyed j s.located s (readStatement false j))
    (encodes : Block true ms key block) :
    Surveyed (.obj ms) (.further (.field key) (Statement.locatedFrom 0 block)) block
      (Encoding.child ms key fun value _ =>
        Encoding.block value fun item _ => readStatement false item) := by
  obtain ⟨items, here, related⟩ := encodes
  rw [Statement.locatedFrom_eq]
  refine .child here (.each (forall₂_of_mem related fun item _ s member read => ?_))
  exact surveys s member item read

theorem readStatement_surveyed (s : Statement) (j : Json) (read : readStatement true j = .ok s) :
    Surveyed j s.located s (readStatement false j) := by
  obtain ⟨ms, name, tag, rfl, finite, cls, named⟩ := readStatement_object read
  have classed : className ms = .ok (lastSegment name) := className_ok.mpr ⟨name, cls, rfl⟩
  have known := statementTag_ofName?.mpr named
  have encodes := (readStatement_known finite cls named).mp read
  rw [readStatement, if_pos finite]
  refine .after classed ?_
  simp only [known]
  cases tag with
  | finish =>
    obtain ⟨disposition, word, rfl⟩ := encodes
    exact .after (readEnding_ok.mpr word) .ok
  | assign target =>
    obtain ⟨value, child, rfl⟩ := encodes
    exact (surveyed_child (readExpr_surveyed value) child).last rfl
  | branch =>
    obtain ⟨comment, said, guard, child, onTrue, inTrue, onFalse, inFalse, rfl⟩ := encodes
    refine .after (readComment_ok.mpr said) ?_
    refine (surveyed_child (readExpr_surveyed guard) child).bind ?_
    refine (surveyed_block (fun s _ => readStatement_surveyed s) inTrue).bind ?_
    exact (surveyed_block (fun s _ => readStatement_surveyed s) inFalse).last rfl
termination_by sizeOf s

theorem readPolicy_surveyed {j : Json} {p : Policy} (read : readPolicy true j = .ok p) :
    Surveyed j p.located p (readPolicy false j) := by
  obtain ⟨ms, rfl, finite, named, block⟩ := readPolicy_ok.mp read
  refine .after (members_ok.mpr ⟨rfl, finite⟩) (.after (stringField_ok.mpr named) ?_)
  exact (surveyed_block (fun s _ => readStatement_surveyed s) block).last rfl

/-- An unsupported node is read from what it keeps. -/
theorem raw_of_readExpr {value raw : Json} {tag : String}
    (read : readExpr true value = .ok (.unsupported tag raw)) : value = raw := by
  obtain ⟨ms, name, rfl, finite, cls⟩ := readExpr_object read
  cases known : ExprTag.ofName? (lastSegment name) with
  | some tag =>
    have encodes := (readExpr_known finite cls (exprTag_ofName?.mp known)).mp read
    cases isSupported_of_encodes encodes
  | none =>
    obtain ⟨-, same⟩ := (readExpr_other finite cls known).mp read
    cases same
    rfl

/-- The first node outside the vocabulary is the one that is refused. -/
theorem strictly_first {found : Located} {a : α} {x : Location × Expr}
    (first : found.find? (fun x => !x.2.isSupported) = some x) :
    ∃ place tag raw, x = (place, .unsupported tag raw) ∧
      strictly found a = .error (.encodingAt (.unsupportedExpression tag) place) := by
  obtain ⟨refused, before, after, rfl, passed⟩ := List.find?_eq_some_iff_append.mp first
  obtain ⟨place, e⟩ := x
  have earlier : before.findSome? refused? = none := by
    refine List.findSome?_eq_none_iff.mpr fun x member => refused?_supported ?_
    simpa using passed x member
  cases e with
  | unsupported tag raw =>
    refine ⟨place, tag, raw, rfl, ?_⟩
    rw [strictly, List.findSome?_append, earlier]
    rfl
  | _ => cases refused

/-- Places within a policy have a text, so a refusal names its place. -/
theorem message_of_refused {p : Policy} {j : Json} {tag : String} {place : Location} {e : Expr}
    (member : (place, e) ∈ p.located)
    (failed : readPolicy false j = .error (.encodingAt (.unsupportedExpression tag) place)) :
    (Failure.encodingAt (.unsupportedExpression tag) place).message =
      "Unsupported expression '" ++ tag ++ "'" ++ " at " ++ Location.text place := by
  have plain := ((blames_readPolicy false j).place failed).1
  obtain ⟨inner, -, same⟩ := List.mem_map.mp member
  cases same
  rw [message_encodingAt, if_neg (Location.text_ne plain)]
  rfl

/-- To keep classes outside the vocabulary changes nothing about policies that hold none, and what
the strict reader refuses in another policy is the first node that was kept. -/
theorem keeping_is_conservative (j : Json) (p : Policy) :
    (readPolicy false j = .ok p ↔
      readPolicy true j = .ok p ∧ ∀ e ∈ p.nodes, e.isSupported = true) ∧
    (readPolicy true j = .ok p → p.located.map Prod.snd = p.nodes ∧
      (∀ x ∈ p.located, ∃ value, j.at? x.1 = some value ∧ readExpr true value = .ok x.2) ∧
      ((∃ e ∈ p.nodes, e.isSupported = false) → ∃ place tag raw f,
        p.located.find? (fun x => !x.2.isSupported) = some (place, .unsupported tag raw) ∧
        j.at? place = some raw ∧ readPolicy false j = .error f ∧
          f = .encodingAt (.unsupportedExpression tag) place ∧
          f.message = "Unsupported expression '" ++ tag ++ "'" ++ " at " ++ Location.text place)) := by
  refine ⟨?_, fun read => ?_⟩
  · rw [readPolicy_iff_admitted, Policy.admitted_iff]
  · have surveyed := readPolicy_surveyed read
    refine ⟨p.map_snd_located, surveyed.stands, ?_⟩
    rintro ⟨e, inside, refused⟩
    rw [← p.map_snd_located] at inside
    obtain ⟨x, member, rfl⟩ := List.mem_map.mp inside
    have held : (p.located.find? fun x => !x.2.isSupported).isSome = true :=
      List.find?_isSome.mpr ⟨x, member, by rw [refused, Bool.not_false]⟩
    obtain ⟨first, found⟩ := Option.isSome_iff_exists.mp held
    obtain ⟨place, tag, raw, rfl, fails⟩ := strictly_first (a := p) found
    have among := List.mem_of_find?_eq_some found
    obtain ⟨value, there, kept⟩ := surveyed.stands _ among
    cases raw_of_readExpr kept
    have failed := surveyed.strict.trans fails
    exact ⟨place, tag, raw, _, found, there, failed, rfl, message_of_refused among failed⟩

namespace Outside

def matchTag : Json := .obj [("class", .str "MatchTag"), ("tag", .int 7)]

def metric : Json := .obj [("class", .str "RouteAttribute"), ("attribute", .str "metric")]

def igpCost : Json := .obj [("class", .str "IgpCost")]

/-- A guard with a part of an unknown class, and a branch that assigns another one. -/
def tagged : Json := .obj [("name", .str "export"), ("statements", .arr [.obj [("class", .str "If"),
  ("guard", .obj [("class", .str "Conjunction"), ("conjuncts", .arr [metric, matchTag])]),
  ("trueStatements", .arr []), ("falseStatements", .arr [.obj [("class", .str "SetMetric"),
    ("metric", igpCost)]])]])]

def kept : Policy := ⟨"export", [.branch none
  (.all [.ref .metric, .unsupported "MatchTag" matchTag]) []
  [.assign none .metric (.unsupported "IgpCost" igpCost)] .absent]⟩

end Outside

open Outside in
theorem tagged_refused : readPolicy true tagged = .ok kept ∧
    (∃ e ∈ kept.nodes, e.isSupported = false) ∧ ∃ f, readPolicy false tagged = .error f ∧
      f.message = "Unsupported expression 'MatchTag' at statements[0].guard.conjuncts[1]" := by
  have read : readPolicy true tagged = .ok kept := by with_unfolding_all rfl
  have held : ∃ e ∈ kept.nodes, e.isSupported = false :=
    ⟨.unsupported "MatchTag" matchTag, .tail _ (.tail _ (.head _)), rfl⟩
  obtain ⟨place, tag, raw, f, found, -, failed, -, said⟩ :=
    ((keeping_is_conservative tagged kept).2 read).2.2 held
  have first : (kept.located.find? fun x => !x.2.isSupported) = some
      ([.field "statements", .index 0, .field "guard", .field "conjuncts", .index 1],
        .unsupported "MatchTag" matchTag) := rfl
  cases first.symm.trans found
  exact ⟨read, held, f, failed, said⟩

end Encoding

end RoutePolicy
