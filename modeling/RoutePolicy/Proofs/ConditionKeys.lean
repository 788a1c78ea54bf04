import RoutePolicy.Proofs.WrittenValues
import RoutePolicy.Reachability.Propagation

/-!
Conditions that are written in the same way are the same up to the spelling of classes, as long as
their integers are written without rounding.
-/

set_option autoImplicit false

namespace RoutePolicy

open Encoding

/-! ### Words -/

theorem Attribute.name_inj {a b : Attribute} (same : a.name = b.name) : a = b := by
  cases a <;> cases b <;> first | rfl | exact absurd same (by decide)

theorem Comparator.name_inj {a b : Comparator} (same : a.name = b.name) : a = b := by
  cases a <;> cases b <;> first | rfl | exact absurd same (by decide)

/-! ### Numbers of written expressions -/

theorem Json.numbersIn_int {i : Int} (safe : i.natAbs ≤ Number.maxSafe) :
    (int i).NumbersIn Number.IsSafe := by
  intro n member
  obtain rfl := List.mem_singleton.mp member
  exact ⟨i, safe, Number.ofInt_safe safe⟩

namespace Expr

/-- A node of the vocabulary whose integers are written without rounding. -/
structure Printed (e : Expr) : Prop where
  supported : e.isSupported = true
  safe : ∀ i ∈ e.ownIntegers, i.natAbs ≤ Number.maxSafe

instance (e : Expr) : Decidable (Printed e) :=
  decidable_of_iff (e.isSupported = true ∧ ∀ i ∈ e.ownIntegers, i.natAbs ≤ Number.maxSafe)
    ⟨fun both => ⟨both.1, both.2⟩, fun printed => ⟨printed.supported, printed.safe⟩⟩

/-- Only safe integers are written. -/
theorem numbersIn_writeExpr {e : Expr} (printed : e.Each Printed) :
    (writeExpr e).NumbersIn Number.IsSafe := by
  have writes : ∀ x, Printed x → x.Writes (Json.NumbersIn Number.IsSafe) := by
    rintro x ⟨supported, safe⟩
    refine ⟨fun i member => Json.numbersIn_int (safe i member), ?_⟩
    rintro tag raw rfl
    cases supported
  exact (Json.inherited_numbersIn Number.IsSafe).writeExpr (printed.mono writes)

/-! ### Classes -/

def cls : Expr → Spelling
  | lit cls _ | attr cls _ | junction cls _ _ | not cls _ | compare cls _ _ _ => cls
  | hasCommunity cls _ _ | inRanges cls _ _ _ | inList cls _ _ _ | union cls _ => cls
  | prepend cls _ _ | call cls _ | adjust cls _ _ | namedSet cls _ => cls
  | unsupported _ _ => none

/-- The class a node is written with. -/
def writtenTag : Expr → ExprTag
  | lit _ (.bool _) => .boolean
  | lit _ (.int _) => .integer
  | lit _ (.address _) => .address
  | lit _ (.network _) => .network
  | lit _ (.communities _) => .communities
  | lit _ (.asPath _) => .asPath
  | attr _ _ => .ref
  | junction _ .all _ => .all
  | junction _ .any _ => .any
  | not _ _ => .not
  | compare _ _ _ _ => .compare
  | hasCommunity _ _ _ => .hasCommunity
  | inRanges _ _ _ _ | inList _ _ _ _ => .matchNetworks
  | union _ _ => .union
  | prepend _ _ _ => .prepend
  | call _ _ => .call
  | adjust _ .increment _ => .increment
  | adjust _ .decrement _ => .decrement
  | namedSet _ _ => .namedSet
  | unsupported _ _ => .boolean

/-- The nodes that are written with a class. -/
def HasTag : ExprTag → Expr → Prop
  | .boolean, e => ∃ cls value, e = lit cls (.bool value)
  | .integer, e => ∃ cls value, e = lit cls (.int value)
  | .address, e => ∃ cls text, e = lit cls (.address text)
  | .network, e => ∃ cls text, e = lit cls (.network text)
  | .communities, e => ∃ cls members, e = lit cls (.communities members)
  | .asPath, e => ∃ cls asns, e = lit cls (.asPath asns)
  | .ref, e => ∃ cls name, e = attr cls name
  | .all, e => ∃ cls operands, e = junction cls .all operands
  | .any, e => ∃ cls operands, e = junction cls .any operands
  | .not, e => ∃ cls operand, e = not cls operand
  | .compare, e => ∃ cls comparator left right, e = compare cls comparator left right
  | .hasCommunity, e => ∃ cls subject community, e = hasCommunity cls subject community
  | .matchNetworks, e => (∃ cls subject ranges setCls, e = inRanges cls subject ranges setCls) ∨
      ∃ cls subject name setCls, e = inList cls subject name setCls
  | .union, e => ∃ cls operands, e = union cls operands
  | .prepend, e => ∃ cls asns operand, e = prepend cls asns operand
  | .call, e => ∃ cls policy, e = call cls policy
  | .increment, e => ∃ cls amount, e = adjust cls .increment amount
  | .decrement, e => ∃ cls amount, e = adjust cls .decrement amount
  | .namedSet, e => ∃ cls name, e = namedSet cls name

theorem hasTag {e : Expr} (supported : e.isSupported = true) : HasTag e.writtenTag e := by
  cases e with
  | lit cls l => cases l <;> exact ⟨_, _, rfl⟩
  | junction cls op operands => cases op <;> exact ⟨_, _, rfl⟩
  | adjust cls shift amount => cases shift <;> exact ⟨_, _, rfl⟩
  | inRanges _ _ _ _ => exact .inl ⟨_, _, _, _, rfl⟩
  | inList _ _ _ _ => exact .inr ⟨_, _, _, _, rfl⟩
  | compare _ _ _ _ => exact ⟨_, _, _, _, rfl⟩
  | hasCommunity _ _ _ | prepend _ _ _ => exact ⟨_, _, _, rfl⟩
  | attr _ _ | not _ _ | union _ _ | call _ _ | namedSet _ _ => exact ⟨_, _, rfl⟩
  | unsupported _ _ => cases supported

theorem ofName?_name (tag : ExprTag) : ExprTag.ofName? tag.name = some tag := by
  cases tag <;> decide

theorem lastSegment_name (tag : ExprTag) : lastSegment tag.name = tag.name := by
  cases tag <;> decide

theorem spelled_eq (cls : Spelling) (tag : ExprTag) :
    ∃ text, spelled cls tag.name = .str text ∧ lastSegment text = tag.name := by
  unfold spelled
  split
  · rename_i name
    by_cases own : lastSegment name = tag.name
    · exact ⟨name, by rw [if_pos own], own⟩
    · exact ⟨tag.name, by rw [if_neg own], lastSegment_name tag⟩
  · exact ⟨tag.name, rfl, lastSegment_name tag⟩

/-- A node is written as an object that begins with its class; no key occurs twice. -/
theorem writeExpr_members {e : Expr} (supported : e.isSupported = true) :
    ∃ rest, writeExpr e = .obj (("class", spelled e.cls e.writtenTag.name) :: rest) ∧
      (Table.names (("class", spelled e.cls e.writtenTag.name) :: rest)).Nodup := by
  cases e with
  | lit cls l => cases l <;> exact ⟨_, rfl, by simp [Table.names]⟩
  | junction cls op operands => cases op <;> exact ⟨_, rfl, by simp [Table.names]⟩
  | adjust cls shift amount => cases shift <;> exact ⟨_, rfl, by simp [Table.names]⟩
  | unsupported _ _ => cases supported
  | _ cls => exact ⟨_, rfl, by simp [Table.names]⟩

/-- Nodes that are written as the same value have the same members. -/
theorem fields_eq {a b : Expr} (left : a.isSupported = true) (right : b.isSupported = true)
    (same : (writeExpr a).sorted = (writeExpr b).sorted) (key : String) :
    ((writeExpr a).get? key).map Json.sorted = ((writeExpr b).get? key).map Json.sorted := by
  obtain ⟨rest, written, distinct⟩ := writeExpr_members left
  obtain ⟨rest', written', distinct'⟩ := writeExpr_members right
  rw [written, written'] at same
  rw [written, written']
  exact Json.member_eq distinct distinct' same key

/-- Nodes that are written as the same value have the same class name. -/
theorem spelled_of_sorted {a b : Expr} (left : a.isSupported = true) (right : b.isSupported = true)
    (same : (writeExpr a).sorted = (writeExpr b).sorted) :
    spelled a.cls a.writtenTag.name = spelled b.cls b.writtenTag.name := by
  have classes := fields_eq left right same "class"
  obtain ⟨rest, written, -⟩ := writeExpr_members left
  obtain ⟨rest', written', -⟩ := writeExpr_members right
  obtain ⟨text, spells, -⟩ := spelled_eq a.cls a.writtenTag
  obtain ⟨text', spells', -⟩ := spelled_eq b.cls b.writtenTag
  rw [written, written', spells, spells'] at classes
  rw [spells, spells']
  simpa [Json.get?, Table.get?, Json.sorted] using classes

/-- Nodes written as objects with equal members have the same class. -/
theorem writtenTag_eq {a b : Expr} (left : a.isSupported = true) (right : b.isSupported = true)
    (same : (writeExpr a).sorted = (writeExpr b).sorted) : a.writtenTag = b.writtenTag := by
  have classes := spelled_of_sorted left right same
  obtain ⟨text, spells, tag⟩ := spelled_eq a.cls a.writtenTag
  obtain ⟨text', spells', tag'⟩ := spelled_eq b.cls b.writtenTag
  rw [spells, spells', Json.str.injEq] at classes
  have names : a.writtenTag.name = b.writtenTag.name := by rw [← tag, ← tag', classes]
  have found := ofName?_name a.writtenTag
  rw [names, ofName?_name] at found
  exact (Option.some.inj found).symm

/-! ### Expressions -/

theorem strs_inj {xs ys : List String} (same : (Json.strs xs).sorted = (Json.strs ys).sorted) :
    xs = ys := by
  simp only [Json.strs, Json.sorted, Json.sortedItems_eq, List.map_map, Json.arr.injEq] at same
  exact List.map_injective_iff.mpr (fun _ _ equal => by simpa [Json.sorted] using equal) same

theorem int_inj {i j : Int} (left : Number.ofInt i = .finite i) (right : Number.ofInt j = .finite j)
    (same : (Json.int i).sorted = (Json.int j).sorted) : i = j := by
  simp only [Json.int, Json.sorted, left, right, Json.num.injEq, Number.finite.injEq] at same
  exact_mod_cast same

theorem asns_inj {xs ys : List Int} (left : ∀ i ∈ xs, Number.ofInt i = .finite i)
    (right : ∀ i ∈ ys, Number.ofInt i = .finite i)
    (same : (asns xs).sorted = (asns ys).sorted) : xs = ys := by
  simp only [asns, Json.sorted, Json.sortedItems_eq, List.map_map, Json.arr.injEq] at same
  induction xs generalizing ys with
  | nil => exact (List.map_eq_nil_iff.mp same.symm).symm
  | cons x xs ih =>
      cases ys with
      | nil => cases same
      | cons y ys =>
          obtain ⟨first, rest⟩ := List.cons.inj same
          obtain ⟨leftHere, leftLater⟩ := List.forall_mem_cons.mp left
          obtain ⟨rightHere, rightLater⟩ := List.forall_mem_cons.mp right
          rw [int_inj leftHere rightHere first, ih leftLater rightLater rest]

/-- Expressions that are written as values with the same members. -/
def WrittenAlike (a b : Expr) : Prop := (writeExpr a).sorted = (writeExpr b).sorted

theorem forall₂_of_sorted {as bs : List Expr}
    (same : (Json.arr (writeExprs as)).sorted = (Json.arr (writeExprs bs)).sorted) :
    List.Forall₂ WrittenAlike as bs := by
  simp only [writeExprs_eq, Json.sorted, Json.sortedItems_eq, List.map_map, Json.arr.injEq] at same
  rwa [map_eq_iff_forall₂] at same

/-- Literals that are written as the same value are equal. -/
theorem literal_of_sorted {cls cls' : Spelling} {l l' : Literal}
    (exact : ∀ i ∈ (lit cls l).ownIntegers, Number.ofInt i = .finite i)
    (exact' : ∀ i ∈ (lit cls' l').ownIntegers, Number.ofInt i = .finite i)
    (same : WrittenAlike (lit cls l) (lit cls' l')) : l = l' := by
  have tags := writtenTag_eq rfl rfl same
  have fields := fields_eq rfl rfl same
  cases l <;> cases l' <;> try cases tags
  case bool.bool value value' =>
    have texts := fields "type"
    cases value <;> cases value' <;>
      first | rfl | simp [writeExpr, writeLiteral, Json.get?, Table.get?, Json.sorted] at texts
  case int.int i j =>
    have values := fields "value"
    rw [int_inj (exact i List.mem_cons_self) (exact' j List.mem_cons_self)
      (by simpa [writeExpr, writeLiteral, Json.get?, Table.get?] using values)]
  case address.address =>
    simpa [writeExpr, writeLiteral, Json.get?, Table.get?, Json.sorted] using fields "ip"
  case network.network =>
    simpa [writeExpr, writeLiteral, Json.get?, Table.get?, Json.sorted] using fields "prefix"
  case communities.communities members members' =>
    have texts := fields "communitySet"
    have lists : members = members' :=
      strs_inj (by simpa [writeExpr, writeLiteral, Json.get?, Table.get?] using texts)
    rw [lists]
  case asPath.asPath asns asns' =>
    have numbers := fields "asns"
    have lists : asns = asns' := asns_inj exact exact'
      (by simpa [writeExpr, writeLiteral, Json.get?, Table.get?] using numbers)
    rw [lists]

/-- Nodes with the same values, the parts of which are related. -/
inductive Matches (R : Expr → Expr → Prop) : Expr → Expr → Prop where
  | lit {cls cls' : Spelling} (l : Literal) : Matches R (lit cls l) (lit cls' l)
  | attr {cls cls' : Spelling} (name : Attribute) : Matches R (attr cls name) (attr cls' name)
  | junction {cls cls' : Spelling} (op : Junction) {as bs : List Expr}
      (parts : List.Forall₂ R as bs) : Matches R (junction cls op as) (junction cls' op bs)
  | not {cls cls' : Spelling} {a b : Expr} (part : R a b) : Matches R (not cls a) (not cls' b)
  | compare {cls cls' : Spelling} (comparator : Comparator) {a b c d : Expr} (left : R a c)
      (right : R b d) : Matches R (compare cls comparator a b) (compare cls' comparator c d)
  | hasCommunity {cls cls' : Spelling} {a b : Expr} (part : R a b) (community : String) :
      Matches R (hasCommunity cls a community) (hasCommunity cls' b community)
  | inRanges {cls cls' : Spelling} {a b : Expr} (part : R a b) (ranges : List String)
      {setCls setCls' : Spelling}
      (named : setCls.getD SetTag.explicit.name = setCls'.getD SetTag.explicit.name) :
      Matches R (inRanges cls a ranges setCls) (inRanges cls' b ranges setCls')
  | inList {cls cls' : Spelling} {a b : Expr} (part : R a b) (name : String)
      {setCls setCls' : Spelling}
      (named : setCls.getD SetTag.named.name = setCls'.getD SetTag.named.name) :
      Matches R (inList cls a name setCls) (inList cls' b name setCls')
  | union {cls cls' : Spelling} {as bs : List Expr} (parts : List.Forall₂ R as bs) :
      Matches R (union cls as) (union cls' bs)
  | prepend {cls cls' : Spelling} (asns : List Int) {a b : Expr} (part : R a b) :
      Matches R (prepend cls asns a) (prepend cls' asns b)
  | call {cls cls' : Spelling} (policy : String) : Matches R (call cls policy) (call cls' policy)
  | adjust {cls cls' : Spelling} (shift : Shift) (amount : Int) :
      Matches R (adjust cls shift amount) (adjust cls' shift amount)
  | namedSet {cls cls' : Spelling} (name : String) :
      Matches R (namedSet cls name) (namedSet cls' name)

/-- Nodes of the vocabulary that are written alike have the same values, and parts that are written
alike. -/
theorem matches_of_sorted {a b : Expr} (left : a.isSupported = true) (right : b.isSupported = true)
    (exactLeft : ∀ i ∈ a.ownIntegers, Number.ofInt i = .finite i)
    (exactRight : ∀ i ∈ b.ownIntegers, Number.ofInt i = .finite i) (same : WrittenAlike a b) :
    Matches WrittenAlike a b := by
  have tags := writtenTag_eq left right same
  have fields := fields_eq left right same
  have one := hasTag left
  have other := hasTag right
  rw [← tags] at other
  -- one case for each class; the members of the written object say the rest
  generalize a.writtenTag = tag at one other
  cases tag with
  | boolean | integer | address | network | communities | asPath =>
      obtain ⟨cls, value, rfl⟩ := one
      obtain ⟨cls', value', rfl⟩ := other
      have values := literal_of_sorted exactLeft exactRight same
      cases values
      exact .lit _
  | ref =>
      obtain ⟨cls, name, rfl⟩ := one
      obtain ⟨cls', name', rfl⟩ := other
      have words : name.name = name'.name := by
        simpa [writeExpr, Json.get?, Table.get?, Json.sorted] using fields "attribute"
      cases Attribute.name_inj words
      exact .attr name
  | all =>
      obtain ⟨cls, operands, rfl⟩ := one
      obtain ⟨cls', operands', rfl⟩ := other
      exact .junction .all (forall₂_of_sorted
        (by simpa [writeExpr, Json.get?, Table.get?] using fields "conjuncts"))
  | any =>
      obtain ⟨cls, operands, rfl⟩ := one
      obtain ⟨cls', operands', rfl⟩ := other
      exact .junction .any (forall₂_of_sorted
        (by simpa [writeExpr, Json.get?, Table.get?] using fields "disjuncts"))
  | union =>
      obtain ⟨cls, operands, rfl⟩ := one
      obtain ⟨cls', operands', rfl⟩ := other
      exact .union (forall₂_of_sorted
        (by simpa [writeExpr, Json.get?, Table.get?] using fields "exprs"))
  | not =>
      obtain ⟨cls, operand, rfl⟩ := one
      obtain ⟨cls', operand', rfl⟩ := other
      exact .not (by simpa [WrittenAlike, writeExpr, Json.get?, Table.get?] using fields "expr")
  | compare =>
      obtain ⟨cls, comparator, l, r, rfl⟩ := one
      obtain ⟨cls', comparator', l', r', rfl⟩ := other
      have words : comparator.name = comparator'.name := by
        simpa [writeExpr, Json.get?, Table.get?, Json.sorted] using fields "comparator"
      cases Comparator.name_inj words
      exact .compare comparator
        (by simpa [WrittenAlike, writeExpr, Json.get?, Table.get?] using fields "left")
        (by simpa [WrittenAlike, writeExpr, Json.get?, Table.get?] using fields "right")
  | hasCommunity =>
      obtain ⟨cls, subject, community, rfl⟩ := one
      obtain ⟨cls', subject', community', rfl⟩ := other
      have communities : community = community' := by
        simpa [writeExpr, Json.get?, Table.get?, Json.sorted] using fields "community"
      cases communities
      exact .hasCommunity
        (by simpa [WrittenAlike, writeExpr, Json.get?, Table.get?] using fields "communitySetExpr") community
  | matchNetworks =>
      have objects := fields "prefixSet"
      rcases one with ⟨cls, subject, ranges, setCls, rfl⟩ | ⟨cls, subject, name, setCls, rfl⟩ <;>
        rcases other with ⟨cls', subject', ranges', setCls', rfl⟩ |
          ⟨cls', subject', name', setCls', rfl⟩ <;>
        simp only [writeExpr, Json.get?, Table.get?, String.reduceEq, if_true, if_false,
          Option.map_some, Option.some.injEq] at objects
      all_goals
        have members := Json.member_eq (by simp [Table.names]) (by simp [Table.names]) objects
        have subjects : WrittenAlike subject subject' := by
          simpa [WrittenAlike, writeExpr, Json.get?, Table.get?] using fields "prefix"
      · have spaces := strs_inj (by simpa [Table.get?] using members "prefixSpace")
        cases spaces
        exact .inRanges subjects ranges (by simpa [Table.get?, Json.sorted] using members "class")
      · simpa [Table.get?] using members "prefixSpace"
      · simpa [Table.get?] using members "prefixSpace"
      · have names : name = name' := by simpa [Table.get?, Json.sorted] using members "name"
        cases names
        exact .inList subjects name (by simpa [Table.get?, Json.sorted] using members "class")
  | prepend =>
      obtain ⟨cls, list, operand, rfl⟩ := one
      obtain ⟨cls', list', operand', rfl⟩ := other
      have lists : list = list' := asns_inj exactLeft exactRight
        (by simpa [writeExpr, Json.get?, Table.get?] using fields "asns")
      cases lists
      exact .prepend list (by simpa [WrittenAlike, writeExpr, Json.get?, Table.get?] using fields "expr")
  | call =>
      obtain ⟨cls, policy, rfl⟩ := one
      obtain ⟨cls', policy', rfl⟩ := other
      have names : policy = policy' := by
        simpa [writeExpr, Json.get?, Table.get?, Json.sorted] using fields "calledPolicyName"
      cases names
      exact .call policy
  | increment =>
      obtain ⟨cls, i, rfl⟩ := one
      obtain ⟨cls', j, rfl⟩ := other
      have numbers : i = j := int_inj (exactLeft i List.mem_cons_self)
        (exactRight j List.mem_cons_self)
        (by simpa [writeExpr, Json.get?, Table.get?] using fields "addend")
      cases numbers
      exact .adjust .increment i
  | decrement =>
      obtain ⟨cls, i, rfl⟩ := one
      obtain ⟨cls', j, rfl⟩ := other
      have numbers : i = j := int_inj (exactLeft i List.mem_cons_self)
        (exactRight j List.mem_cons_self)
        (by simpa [writeExpr, Json.get?, Table.get?] using fields "subtrahend")
      cases numbers
      exact .adjust .decrement i
  | namedSet =>
      obtain ⟨cls, name, rfl⟩ := one
      obtain ⟨cls', name', rfl⟩ := other
      have names : name = name' := by
        simpa [writeExpr, Json.get?, Table.get?, Json.sorted] using fields "name"
      cases names
      exact .namedSet name

theorem sameAll_of_forall₂ {as bs : List Expr}
    (related : List.Forall₂ (fun a b => Expr.same a b = true) as bs) : sameAll as bs = true := by
  induction related with
  | nil => rfl
  | cons first _ ih => rw [sameAll, first, ih, Bool.and_self]

/-- Nodes with the same values are the same up to spelling if their parts are. -/
theorem Matches.same {R : Expr → Expr → Prop} {a b : Expr} (node : Matches R a b)
    (parts : ∀ c ∈ a.children, ∀ d ∈ b.children, R c d → Expr.same c d = true) :
    Expr.same a b = true := by
  cases node with
  | lit _ | attr _ | call _ | adjust _ _ | namedSet _ => simp [Expr.same]
  | junction op related | union related =>
      have lists := sameAll_of_forall₂ (forall₂_of_mem related parts)
      simpa [Expr.same] using lists
  | not part | hasCommunity part _ | inRanges part _ _ | inList part _ _ | prepend _ part =>
      have operands := parts _ List.mem_cons_self _ List.mem_cons_self part
      simpa [Expr.same] using operands
  | compare comparator left right =>
      have first := parts _ List.mem_cons_self _ List.mem_cons_self left
      have second := parts _ (by simp [children]) _ (by simp [children]) right
      simp [Expr.same, first, second]

/-- Expressions that are written as the same value are the same up to spelling. -/
theorem same_of_sorted {a b : Expr} (left : a.Each Printed) (right : b.Each Printed)
    (same : WrittenAlike a b) : Expr.same a b = true := by
  induction a using childrenInduction generalizing b with
  | step a ih =>
    have exact : ∀ {e : Expr}, Printed e → ∀ i ∈ e.ownIntegers, Number.ofInt i = .finite i :=
      fun printed i member => Number.ofInt_safe (printed.safe i member)
    have node := matches_of_sorted left.root.supported right.root.supported (exact left.root)
      (exact right.root) same
    exact node.same fun c inA d inB => ih c inA (left.child inA) (right.child inB)

/-- Conditions with one key are written alike. -/
theorem writtenAlike_of_key {a b : Expr} (left : a.Each Printed) (right : b.Each Printed)
    (same : Variant.conditionKey a = Variant.conditionKey b) : WrittenAlike a b :=
  Json.sorted_eq_of_canonical Number.legible_safe (numbersIn_writeExpr left)
    (numbersIn_writeExpr right) same

/-- Conditions with one key are the same up to spelling. -/
theorem same_of_key {a b : Expr} (left : a.Each Printed) (right : b.Each Printed)
    (same : Variant.conditionKey a = Variant.conditionKey b) : Expr.same a b = true :=
  same_of_sorted left right (writtenAlike_of_key left right same)

/-- Conditions with one key are written with one class name. -/
theorem spelled_of_key {a b : Expr} (left : a.Each Printed) (right : b.Each Printed)
    (same : Variant.conditionKey a = Variant.conditionKey b) :
    spelled a.cls a.writtenTag.name = spelled b.cls b.writtenTag.name :=
  spelled_of_sorted left.root.supported right.root.supported (writtenAlike_of_key left right same)

end Expr

end RoutePolicy
