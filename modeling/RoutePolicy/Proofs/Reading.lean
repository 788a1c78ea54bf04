import RoutePolicy.Encoding.Reader
import RoutePolicy.Proofs.Policies

/-!
What the readers of documents promise: unions have operands, and written networks are well formed.
-/

set_option autoImplicit false

namespace RoutePolicy

theorem Outcome.within_ok {α : Type} {step : Step} {r : Outcome α} {a : α} :
    Outcome.within step r = .ok a ↔ r = .ok a := by
  cases r <;> simp [Outcome.within, Except.mapError]

theorem Outcome.under_ok {α : Type} {place : Location} {r : Outcome α} {a : α} :
    Outcome.under place r = .ok a ↔ r = .ok a := by
  unfold Outcome.under
  induction place with
  | nil => rfl
  | cons step rest ih => rw [List.foldr_cons, Outcome.within_ok, ih]

theorem Network.isSome_parse? {text : String} (parses : (parseWithLength? text).isSome = true) :
    (parse? text).isSome = true := by
  unfold parseWithLength? at parses
  split at parses
  · exact parses
  · cases parses

namespace Encoding

variable {α : Type}

theorem eachFrom_ok {position : Nat} {items : List Json}
    {read : (item : Json) → item ∈ items → Outcome α} {xs : List α}
    (done : eachFrom position items read = .ok xs) :
    xs.length = items.length ∧ ∀ x ∈ xs, ∃ item member, read item member = .ok x := by
  induction items generalizing position xs with
  | nil =>
      cases done
      simp
  | cons item rest ih =>
      obtain ⟨first, here, done⟩ := Outcome.bind_ok.mp done
      obtain ⟨others, later, same⟩ := Outcome.bind_ok.mp done
      cases same
      obtain ⟨lengths, found⟩ := ih later
      refine ⟨congrArg (· + 1) lengths, List.forall_mem_cons.mpr ⟨?_, fun x member => ?_⟩⟩
      · exact ⟨item, List.mem_cons_self, Outcome.within_ok.mp here⟩
      · obtain ⟨other, inside, done⟩ := found x member
        exact ⟨other, List.mem_cons_of_mem item inside, done⟩

theorem child_ok {ms : Table Json} {key : String}
    {read : (value : Json) → sizeOf value < sizeOf (Json.obj ms) → Outcome α} {a : α}
    (done : child ms key read = .ok a) : ∃ value smaller, read value smaller = .ok a := by
  unfold child at done
  split at done
  · exact ⟨_, _, Outcome.within_ok.mp done⟩
  · cases done

theorem operands_ok {ms : Table Json} {key : String}
    {read : (value : Json) → sizeOf value < sizeOf (Json.obj ms) → Outcome α} {xs : List α}
    (done : operands ms key read = .ok xs) :
    xs ≠ [] ∧ ∀ x ∈ xs, ∃ value smaller, read value smaller = .ok x := by
  obtain ⟨value, smaller, done⟩ := child_ok done
  split at done
  · cases done
  · rename_i items bound notEmpty
    obtain ⟨lengths, found⟩ := eachFrom_ok done
    refine ⟨?_, fun x member => ?_⟩
    · rintro rfl
      obtain rfl := List.length_eq_zero_iff.mp lengths.symm
      exact notEmpty bound HEq.rfl rfl
    · obtain ⟨item, _, read⟩ := found x member
      exact ⟨item, _, read⟩
  · cases done

theorem checkedText_ok {ms : Table Json} {key : String} {check : String → Bool}
    {fault : String → EncodingFault} {text : String}
    (done : checkedText ms key check fault = .ok text) : check text = true := by
  obtain ⟨found, _, done⟩ := Outcome.bind_ok.mp done
  split at done
  · rename_i passed
    cases done
    exact passed
  · cases done

end Encoding

namespace Expr

def isUnion : Expr → Bool
  | union _ _ => true
  | _ => false

/-- A node that has operands where its class asks for some. -/
def Filled : Expr → Prop
  | junction _ _ operands | union _ operands => operands ≠ []
  | _ => True

/-- A filled node reaches a literal. -/
theorem Filled.foldable {e : Expr} (filled : e.Filled) (written : e.isWritten = true) :
    Foldable e := by
  refine ⟨written, ?_⟩
  rintro cls es rfl
  exact filled

end Expr

namespace Encoding

open RoutePolicy.Expr

/-- What was read is a node over operands that were read. -/
structure ReadNode (keep : Bool) (e : Expr) : Prop where
  written : e.isWritten = true
  filled : e.Filled
  children : ∀ c ∈ e.children, ∃ value, readExpr keep value = .ok c

variable {keep : Bool}

theorem ReadNode.leaf {e : Expr} (leaf : e.children = []) (written : e.isWritten = true)
    (filled : e.Filled) : ReadNode keep e :=
  ⟨written, filled, by simp [leaf]⟩

theorem ReadNode.unary {e operand : Expr} {value : Json} (read : readExpr keep value = .ok operand)
    (unary : e.children = [operand]) (written : e.isWritten = true) (filled : e.Filled) :
    ReadNode keep e :=
  ⟨written, filled, fun c member => by
    rw [unary, List.mem_singleton] at member
    exact ⟨value, member ▸ read⟩⟩

theorem readExpr_node {j : Json} {e : Expr} (read : readExpr keep j = .ok e) : ReadNode keep e := by
  unfold readExpr at read
  split at read
  · rename_i ms
    split at read
    · obtain ⟨tag, _, read⟩ := Outcome.bind_ok.mp read
      cases kind : ExprTag.ofName? tag with
      | none =>
          simp only [kind] at read
          split at read
          · cases read
            exact .leaf rfl rfl trivial
          · cases read
      | some known =>
          cases known <;> simp only [kind] at read
          case union | all | any =>
            obtain ⟨es, found, same⟩ := Outcome.bind_ok.mp read
            cases same
            obtain ⟨filled, parts⟩ := operands_ok found
            refine ⟨rfl, filled, fun x member => ?_⟩
            obtain ⟨value, _, read⟩ := parts x member
            exact ⟨value, read⟩
          case not =>
            obtain ⟨x, found, same⟩ := Outcome.bind_ok.mp read
            cases same
            obtain ⟨value, _, read⟩ := child_ok found
            exact .unary read rfl rfl trivial
          case compare =>
            obtain ⟨comparator, _, read⟩ := Outcome.bind_ok.mp read
            obtain ⟨left, foundLeft, read⟩ := Outcome.bind_ok.mp read
            obtain ⟨right, foundRight, same⟩ := Outcome.bind_ok.mp read
            cases same
            obtain ⟨value, _, readLeft⟩ := child_ok foundLeft
            obtain ⟨other, _, readRight⟩ := child_ok foundRight
            refine ⟨rfl, trivial, ?_⟩
            simp only [children, List.forall_mem_cons]
            exact ⟨⟨value, readLeft⟩, ⟨other, readRight⟩, by simp⟩
          case hasCommunity | prepend =>
            obtain ⟨_, _, read⟩ := Outcome.bind_ok.mp read
            obtain ⟨x, found, same⟩ := Outcome.bind_ok.mp read
            cases same
            obtain ⟨value, _, read⟩ := child_ok found
            exact .unary read rfl rfl trivial
          case matchNetworks =>
            obtain ⟨x, found, read⟩ := Outcome.bind_ok.mp read
            obtain ⟨set, _, same⟩ := Outcome.bind_ok.mp read
            obtain ⟨value, _, readSubject⟩ := child_ok found
            cases set <;> cases same <;> exact .unary readSubject rfl rfl trivial
          case network =>
            obtain ⟨text, found, same⟩ := Outcome.bind_ok.mp read
            cases same
            exact .leaf rfl (Network.isSome_parse? (checkedText_ok found)) trivial
          all_goals
            obtain ⟨_, _, same⟩ := Outcome.bind_ok.mp read
            cases same
            exact .leaf rfl rfl trivial
    · cases read
  · cases read

theorem readExpr_filled {j : Json} {e : Expr} (read : readExpr keep j = .ok e) :
    e.Each fun x => x.isWritten = true ∧ x.Filled := by
  induction e using childrenInduction generalizing j with
  | step e ih =>
    have node := readExpr_node read
    refine each_iff.mpr ⟨⟨node.written, node.filled⟩, fun c member => ?_⟩
    obtain ⟨value, read⟩ := node.children c member
    exact ih c member read

/-- An expression that was read reaches a literal when all attributes are known. -/
theorem readExpr_foldable {j : Json} {e : Expr} (read : readExpr keep j = .ok e) :
    e.Each Foldable :=
  (readExpr_filled read).mono fun _ node => node.2.foldable node.1

theorem block_ok {α : Type} {j : Json} {read : (item : Json) → sizeOf item < sizeOf j → Outcome α}
    {xs : List α} (done : block j read = .ok xs) :
    ∀ x ∈ xs, ∃ item smaller, read item smaller = .ok x := by
  unfold block at done
  split at done
  · intro x member
    obtain ⟨item, _, read⟩ := (eachFrom_ok done).2 x member
    exact ⟨item, _, read⟩
  · cases done

/-- The parts of a statement that was read were read. -/
def ReadParts (keep : Bool) : Statement → Prop
  | .branch _ guard onTrue onFalse _ =>
    (∃ value, readExpr keep value = .ok guard) ∧
      (∀ s ∈ onTrue, ∃ value, readStatement keep value = .ok s) ∧
      ∀ s ∈ onFalse, ∃ value, readStatement keep value = .ok s
  | .assign _ _ value => ∃ j, readExpr keep j = .ok value
  | .finish _ _ => True

theorem readStatement_parts {j : Json} {s : Statement} (read : readStatement keep j = .ok s) :
    ReadParts keep s := by
  unfold readStatement at read
  split at read
  · split at read
    · obtain ⟨tag, _, read⟩ := Outcome.bind_ok.mp read
      cases kind : StatementTag.ofName? tag with
      | none =>
          simp only [kind] at read
          cases read
      | some known =>
          cases known with
          | branch =>
              simp only [kind] at read
              obtain ⟨comment, _, read⟩ := Outcome.bind_ok.mp read
              obtain ⟨guard, foundGuard, read⟩ := Outcome.bind_ok.mp read
              obtain ⟨onTrue, foundTrue, read⟩ := Outcome.bind_ok.mp read
              obtain ⟨onFalse, foundFalse, same⟩ := Outcome.bind_ok.mp read
              cases same
              obtain ⟨value, _, readGuard⟩ := child_ok foundGuard
              obtain ⟨trueValue, _, readTrue⟩ := child_ok foundTrue
              obtain ⟨falseValue, _, readFalse⟩ := child_ok foundFalse
              refine ⟨⟨value, readGuard⟩, fun s member => ?_, fun s member => ?_⟩
              · obtain ⟨item, _, read⟩ := block_ok readTrue s member
                exact ⟨item, read⟩
              · obtain ⟨item, _, read⟩ := block_ok readFalse s member
                exact ⟨item, read⟩
          | finish =>
              simp only [kind] at read
              obtain ⟨disposition, _, same⟩ := Outcome.bind_ok.mp read
              cases same
              trivial
          | assign target =>
              simp only [kind] at read
              obtain ⟨x, found, same⟩ := Outcome.bind_ok.mp read
              cases same
              obtain ⟨value, _, read⟩ := child_ok found
              exact ⟨value, read⟩
    · cases read
  · cases read

/-- The expressions of a statement that was read were read. -/
theorem readStatement_every (s : Statement) {j : Json} (read : readStatement keep j = .ok s) :
    s.Every fun _ e => ∃ value, readExpr keep value = .ok e := by
  have parts := readStatement_parts read
  cases s with
  | branch cls guard onTrue onFalse comment =>
      obtain ⟨readGuard, readTrue, readFalse⟩ := parts
      refine ⟨readGuard, Statement.everyAll_iff.mpr fun s member => ?_,
        Statement.everyAll_iff.mpr fun s member => ?_⟩
      · obtain ⟨item, read⟩ := readTrue s member
        exact readStatement_every s read
      · obtain ⟨item, read⟩ := readFalse s member
        exact readStatement_every s read
  | assign cls target value => exact parts
  | finish cls disposition => trivial

theorem readStatements_every {j : Json} {block : List Statement}
    (read : readStatements keep j = .ok block) :
    Statement.EveryAll (fun _ e => ∃ value, readExpr keep value = .ok e) block :=
  Statement.everyAll_iff.mpr fun s member => by
    obtain ⟨item, _, read⟩ := block_ok read s member
    exact readStatement_every s read

theorem readPolicy_every {j : Json} {p : Policy} (read : readPolicy keep j = .ok p) :
    Statement.EveryAll (fun _ e => ∃ value, readExpr keep value = .ok e) p.statements := by
  obtain ⟨ms, _, read⟩ := Outcome.bind_ok.mp read
  obtain ⟨name, _, read⟩ := Outcome.bind_ok.mp read
  obtain ⟨statements, found, same⟩ := Outcome.bind_ok.mp read
  cases same
  obtain ⟨value, _, read⟩ := child_ok found
  exact readStatements_every read

theorem readPolicy_foldable {j : Json} {p : Policy} (read : readPolicy keep j = .ok p) :
    p.Foldable :=
  (readPolicy_every read).mono fun _ _ ⟨_, own⟩ => readExpr_foldable own

end Encoding

end RoutePolicy
