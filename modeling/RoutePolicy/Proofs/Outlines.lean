import RoutePolicy.Execution
import RoutePolicy.Proofs.Evaluation

/-!
What a run depends on. The raw form of constructs outside the vocabulary is not read, and of the
policies of a table only those are that the run can call.
-/

set_option autoImplicit false

namespace RoutePolicy

/-! ### Outlines -/

namespace Expr

mutual

/-- The expression without the raw form of constructs outside the vocabulary. -/
def outline : Expr → Expr
  | junction cls op operands => junction cls op (outlineAll operands)
  | union cls operands => union cls (outlineAll operands)
  | not cls operand => not cls operand.outline
  | prepend cls asns operand => prepend cls asns operand.outline
  | compare cls comparator left right => compare cls comparator left.outline right.outline
  | hasCommunity cls subject community => hasCommunity cls subject.outline community
  | inRanges cls subject ranges setCls => inRanges cls subject.outline ranges setCls
  | inList cls subject name setCls => inList cls subject.outline name setCls
  | unsupported tag _ => unsupported tag .null
  | leaf => leaf

def outlineAll : List Expr → List Expr
  | [] => []
  | e :: rest => e.outline :: outlineAll rest

end

end Expr

namespace Statement

mutual

def outline : Statement → Statement
  | branch cls guard onTrue onFalse comment =>
    branch cls guard.outline (outlineAll onTrue) (outlineAll onFalse) comment
  | assign cls target value => assign cls target value.outline
  | finish cls disposition => finish cls disposition

def outlineAll : List Statement → List Statement
  | [] => []
  | s :: rest => s.outline :: outlineAll rest

end

end Statement

def Policy.outline (p : Policy) : Policy := ⟨p.name, Statement.outlineAll p.statements⟩

variable [Arithmetic]

namespace Expr

variable (calls : Calls) (r : Record)

mutual

theorem evaluate_outline (e : Expr) : e.outline.evaluate calls r = e.evaluate calls r := by
  cases e with
  | junction cls op operands | union cls operands =>
      simp only [outline, evaluate, evaluateAll_outline operands]
  | not cls operand | prepend cls asns operand => simp only [outline, evaluate, evaluate_outline operand]
  | compare cls comparator left right =>
      simp only [outline, evaluate, evaluate_outline left, evaluate_outline right]
  | hasCommunity cls subject _ | inRanges cls subject _ _ =>
      simp only [outline, evaluate, evaluate_outline subject]
  | inList _ _ _ _ | unsupported _ _ => simp only [outline, evaluate]
  | lit _ _ | attr _ _ | call _ _ | adjust _ _ _ | namedSet _ _ => rfl

theorem evaluateAll_outline (es : List Expr) :
    evaluateAll calls r (outlineAll es) = evaluateAll calls r es := by
  cases es with
  | nil => rfl
  | cons e rest => simp only [outlineAll, evaluateAll, evaluate_outline e, evaluateAll_outline rest]

end

end Expr

namespace Execution

mutual

theorem runStatement_outline (frame : Frame) (here : Position) (s : Statement) :
    runStatement frame here s.outline = runStatement frame here s := by
  cases s with
  | branch cls guard onTrue onFalse comment =>
      funext thread paths
      simp only [Statement.outline, runStatement, guardValue, Expr.evaluate_outline,
        runBlock_outline frame _ _ onTrue, runBlock_outline frame _ _ onFalse]
  | assign cls target value =>
      funext thread paths
      simp only [Statement.outline, runStatement, Expr.evaluate_outline]
  | finish cls disposition => rfl

theorem runBlock_outline (frame : Frame) (above : Position) (i : Nat) (block : List Statement) :
    runBlock frame above i (Statement.outlineAll block) = runBlock frame above i block := by
  cases block with
  | nil => rfl
  | cons s rest =>
      funext thread paths
      simp only [Statement.outlineAll, runBlock, runStatement_outline frame _ s,
        runBlock_outline frame above (i + 1) rest]

end

/-- Policies with one outline run alike. -/
theorem runPolicy_outline {calls : Calls} {limit : Int} {assumptions : List Expr} {p q : Policy}
    {r : Record} (same : p.outline = q.outline) :
    runPolicy calls limit assumptions p r = runPolicy calls limit assumptions q r := by
  obtain ⟨name, block⟩ := p
  obtain ⟨other, block'⟩ := q
  obtain ⟨rfl, blocks⟩ := Policy.mk.inj same
  unfold runPolicy
  rw [← runBlock_outline, blocks, runBlock_outline]

end Execution

/-! ### Calls and attributes -/

omit [Arithmetic] in
/-- What a part calls, the expression calls. -/
theorem Expr.calls_child {e c : Expr} {name : String} (member : c ∈ e.children)
    (called : name ∈ c.calls) : name ∈ e.calls := by
  obtain ⟨x, inside, own⟩ := List.mem_filterMap.mp called
  refine List.mem_filterMap.mpr ⟨x, ?_, own⟩
  rw [Expr.nodes_eq]
  exact List.mem_cons_of_mem e (List.mem_flatMap.mpr ⟨c, member, inside⟩)

omit [Arithmetic] in
theorem Expr.mem_attributes {e : Expr} {name : Attribute} :
    name ∈ e.attributes ↔ ∃ x ∈ e.nodes, x.ownAttribute? = some name := by
  rw [attributes, List.mem_eraseDups, List.mem_filterMap]

omit [Arithmetic] in
/-- The attributes of a part are read by the whole. -/
theorem Expr.attributes_child {e c : Expr} (member : c ∈ e.children) {name : Attribute}
    (reads : name ∈ c.attributes) : name ∈ e.attributes := by
  rw [mem_attributes] at reads ⊢
  obtain ⟨x, inside, own⟩ := reads
  refine ⟨x, ?_, own⟩
  rw [nodes_eq, List.mem_cons, List.mem_flatMap]
  exact .inr ⟨c, member, inside⟩

omit [Arithmetic] in
theorem Expr.attributes_own {e : Expr} {name : Attribute} (own : e.ownAttribute? = some name) :
    name ∈ e.attributes := by
  refine mem_attributes.mpr ⟨e, ?_, own⟩
  rw [nodes_eq]
  exact List.mem_cons_self

namespace Expr

variable {calls others : Calls} {r s : Record}

theorem evaluateAll_congr {es : List Expr}
    (each : ∀ e ∈ es, e.evaluate calls r = e.evaluate others s) :
    evaluateAll calls r es = evaluateAll others s es := by
  induction es with
  | nil => rfl
  | cons e rest ih =>
      obtain ⟨here, later⟩ := List.forall_mem_cons.mp each
      rw [evaluateAll, evaluateAll, here, ih later]

/-- An evaluation depends on the calls of the expression and on the slots that it reads only. -/
theorem evaluate_congr {e : Expr} (answered : ∀ name ∈ e.calls, calls name r = others name s)
    (reads : ∀ name ∈ e.attributes, r.get? name = s.get? name) :
    e.evaluate calls r = e.evaluate others s := by
  induction e using childrenInduction with
  | step e ih =>
    by_cases operator : e.isOperator = true
    · rw [evaluate_isOperator operator, evaluate_isOperator operator, evaluateAll_congr]
      exact fun c member => ih c member
        (fun name called => answered name (calls_child member called))
        fun name inside => reads name (attributes_child member inside)
    · have lookup : ∀ name, e.ownAttribute? = some name → r.lookup name = s.lookup name := by
        intro name own
        rw [Record.lookup, Record.lookup, reads name (attributes_own own)]
      cases e with
      | attr cls name => exact lookup name rfl
      | adjust cls shift amount => rw [evaluate, evaluate, lookup .localPreference rfl]
      | call cls policy => exact answered policy (by simp [Expr.calls, nodes, ownCall?])
      | lit _ _ | inList _ _ _ _ | namedSet _ _ | unsupported _ _ => rfl
      | _ => exact absurd rfl operator

theorem evaluate_calls_congr (r : Record) (e : Expr)
    (agree : ∀ name ∈ e.calls, calls name = others name) :
    e.evaluate calls r = e.evaluate others r :=
  evaluate_congr (fun name called => congrFun (agree name called) r) fun _ _ => rfl

end Expr

namespace Execution

variable {policy : String} {limit : Int} {calls others : Calls}

mutual

theorem runStatement_congr (here : Position) (s : Statement)
    (agree : ∀ e ∈ s.exprs, ∀ name ∈ e.calls, calls name = others name) :
    runStatement ⟨policy, limit, calls⟩ here s = runStatement ⟨policy, limit, others⟩ here s := by
  cases s with
  | branch cls guard onTrue onFalse comment =>
      obtain ⟨own, below⟩ := List.forall_mem_cons.mp agree
      obtain ⟨yes, no⟩ := List.forall_mem_append.mp below
      funext thread paths
      simp only [runStatement, guardValue, Expr.evaluate_calls_congr _ guard own, runBlock_congr _ _ onTrue yes,
        runBlock_congr _ _ onFalse no, exceeded]
  | assign cls target value =>
      have own := agree value List.mem_cons_self
      funext thread paths
      simp only [runStatement, Expr.evaluate_calls_congr _ value own]
  | finish cls disposition => rfl

theorem runBlock_congr (above : Position) (i : Nat) (block : List Statement)
    (agree : ∀ e ∈ Statement.exprsAll block, ∀ name ∈ e.calls, calls name = others name) :
    runBlock ⟨policy, limit, calls⟩ above i block =
      runBlock ⟨policy, limit, others⟩ above i block := by
  cases block with
  | nil => rfl
  | cons s rest =>
      obtain ⟨own, later⟩ := List.forall_mem_append.mp agree
      funext thread paths
      simp only [runBlock, runStatement_congr _ s own, runBlock_congr above (i + 1) rest later]

end

/-- A run of a policy depends on the calls of the policy only. -/
theorem runPolicy_congr {assumptions : List Expr} {p : Policy} {r : Record}
    (agree : ∀ name ∈ Statement.calls p.statements, calls name = others name) :
    runPolicy calls limit assumptions p r = runPolicy others limit assumptions p r := by
  have each : ∀ e ∈ Statement.exprsAll p.statements, ∀ name ∈ e.calls, calls name = others name := by
    intro e member name called
    exact agree name (List.mem_eraseDups.mpr (List.mem_flatMap.mpr ⟨e, member, called⟩))
  simp only [runPolicy, runBlock_congr [] 0 p.statements each]

end Execution

/-! ### Tables and chains -/

/-- Policies of one outline that call within a set. -/
structure Policy.Resembles (names : String → Prop) (p q : Policy) : Prop where
  outline : p.outline = q.outline
  calls : ∀ callee ∈ Statement.calls p.statements, names callee

omit [Arithmetic] in
theorem Policy.Resembles.name {names : String → Prop} {p q : Policy} (same : p.Resembles names q) :
    p.name = q.name := (Policy.mk.inj same.outline).1

/-- Tables that hold such policies under all names of the set. -/
def Table.Agree (names : String → Prop) (table other : Table Policy) : Prop :=
  ∀ name, names name → ∃ p q, table.get? name = some p ∧ other.get? name = some q ∧
    p.Resembles names q

section

variable {table other : Table Policy} {names : String → Prop} {limit : Int}
  {assumptions : List Expr}

/-- Calls within the set are answered alike. -/
theorem Execution.callsFrom_agree (agree : Table.Agree names table other) (stack : List String)
    {name : String} (inside : names name) :
    callsFrom table limit stack name = callsFrom other limit stack name := by
  obtain ⟨p, q, found, there, same⟩ := agree name inside
  funext r
  unfold callsFrom
  by_cases fresh : name ∈ stack
  · rw [dif_pos fresh, dif_pos fresh]
  · rw [dif_neg fresh, dif_neg fresh]
    have smaller := idle_lt fresh found
    have below : ∀ callee ∈ Statement.calls p.statements,
        callsFrom table limit (stack ++ [name]) callee =
          callsFrom other limit (stack ++ [name]) callee :=
      fun callee called => callsFrom_agree agree (stack ++ [name]) (same.calls callee called)
    split
    · rename_i missing
      rw [found] at missing
      cases missing
    · rename_i own here
      rw [found] at here
      cases here
      split
      · rename_i missing
        rw [there] at missing
        cases missing
      · rename_i foreign here
        rw [there] at here
        cases here
        rw [runPolicy_congr below, runPolicy_outline same.outline]
termination_by (idle table stack).length
decreasing_by exact smaller

theorem evaluatePolicy_agree (agree : Table.Agree names table other) {p q : Policy}
    (same : p.Resembles names q) (r : Record) :
    evaluatePolicy ⟨assumptions, limit, table⟩ p r =
      evaluatePolicy ⟨assumptions, limit, other⟩ q r := by
  have calls : ∀ callee ∈ Statement.calls p.statements,
      Execution.callsFrom table limit [p.name] callee =
        Execution.callsFrom other limit [p.name] callee :=
    fun callee called => Execution.callsFrom_agree agree [p.name] (same.calls callee called)
  unfold evaluatePolicy
  dsimp only
  rw [Execution.runPolicy_congr calls, Execution.runPolicy_outline same.outline, same.name]

theorem Chain.extendAll_agree (agree : Table.Agree names table other) {p q : Policy}
    (same : p.Resembles names q) (threads : List Thread) :
    extendAll ⟨assumptions, limit, table⟩ p threads =
      extendAll ⟨assumptions, limit, other⟩ q threads := by
  induction threads with
  | nil => rfl
  | cons thread rest ih =>
    simp only [extendAll, extend, evaluatePolicy_agree agree same, ih]

theorem Chain.run_agree (agree : Table.Agree names table other) {ps qs : List Policy}
    (related : List.Forall₂ (Policy.Resembles names) ps qs) (last : String) (finished : List Path)
    (passed : List Thread) : run ⟨assumptions, limit, table⟩ last finished passed ps =
      run ⟨assumptions, limit, other⟩ last finished passed qs := by
  induction related generalizing last finished passed with
  | nil => rfl
  | cons first _ ih => simp only [run, extendAll_agree agree first, first.name, ih]

/-- A chain has the same paths with policies of the same outlines, from tables that agree. -/
theorem evaluateChain_agree (agree : Table.Agree names table other) {ps qs : List Policy}
    (related : List.Forall₂ (Policy.Resembles names) ps qs) (r : Record) :
    evaluateChain ⟨assumptions, limit, table⟩ ps r =
      evaluateChain ⟨assumptions, limit, other⟩ qs r := by
  cases related with
  | nil => rfl
  | cons first rest =>
    simp only [evaluateChain, Chain.run_agree agree (.cons first rest), first.name]

end

end RoutePolicy
