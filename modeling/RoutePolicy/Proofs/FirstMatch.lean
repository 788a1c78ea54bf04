import RoutePolicy.Proofs.Complements
import RoutePolicy.Proofs.Inlining

/-!
Lists of networks are read from the top: the first line whose range holds a network decides, and a
network that no line holds is denied. The condition of a list says this of every subject that is a
network, and for a known network it is the plain constant.
-/

set_option autoImplicit false

namespace RoutePolicy

namespace ListLine

/-- Whether the first of the lines that hold something permits it. -/
def firstPermits (holds : ListLine → Bool) (lines : List ListLine) : Bool :=
  (lines.find? holds).any (·.action = .permit)

def covers (n : Network) (line : ListLine) : Bool := NetworkRange.textCovers line.range n

/-- Whether a list permits a network. -/
def admits (lines : List ListLine) (n : Network) : Bool := firstPermits (covers n) lines

/-- Whether a list permits a value, which it can only if that is a network. -/
def admitsValue (lines : List ListLine) : Value → Bool
  | .network text => (Network.parse? text).any (admits lines)
  | _ => false

theorem firstPermits_cons {holds : ListLine → Bool} {line : ListLine} {rest : List ListLine} :
    firstPermits holds (line :: rest) =
      if holds line then decide (line.action = .permit) else firstPermits holds rest := by
  unfold firstPermits
  rw [List.find?_cons]
  cases holds line <;> rfl

theorem firstPermits_false (lines : List ListLine) : firstPermits (fun _ => false) lines = false := by
  rw [firstPermits, List.find?_eq_none.mpr fun _ _ => Bool.false_ne_true, Option.any_none]

/-- A list permits what the first line does of which the value lies in the range. -/
theorem admitsValue_eq (lines : List ListLine) (v : Value) :
    admitsValue lines v = firstPermits (fun line => v.inRanges [line.range]) lines := by
  cases v with
  | network text =>
      cases parsed : Network.parse? text with
      | none => simp [admitsValue, Value.inRanges, parsed, firstPermits_false]
      | some n =>
          have holds : covers n = fun line => (Value.network text).inRanges [line.range] := by
            funext line
            simp [covers, Value.inRanges, parsed]
          rw [admitsValue, parsed, Option.any_some, admits, holds]
  | _ => exact (firstPermits_false lines).symm

end ListLine

/-! ### The conditions of permitting lines -/

namespace Expr.Compositional

open ListLine

variable {v : Expr → Value} (compositional : Compositional v)

include compositional

theorem truth_all (es : List Expr) : (v (all es)).truth = es.all fun e => (v e).truth := by
  rw [all, compositional.truth_eq_join, Junction.join, List.all_map]
  rfl

theorem truth_any (es : List Expr) : (v (any es)).truth = es.any fun e => (v e).truth := by
  rw [any, compositional.truth_eq_join, Junction.join, List.any_map]
  rfl

/-- One of the conditions of permitting lines is true exactly if no earlier line holds the subject
and the first of the lines that do permits it. The induction is on the lines, the earlier ones being
those the conditions deny. -/
theorem truth_permits (subject : Expr) (lines : List ListLine) (earlier : List Expr) :
    ((permits subject earlier lines).any fun e => (v e).truth) =
      (earlier.all (fun e => !(v e).truth) && admitsValue lines (v subject)) := by
  rw [admitsValue_eq]
  induction lines generalizing earlier with
  | nil => simp [permits, firstPermits]
  | cons line rest ih =>
      have match' : (v (.inRanges none subject [line.range] none)).truth =
          (v subject).inRanges [line.range] := by
        rw [compositional.inRanges]
        rfl
      have later := ih (earlier ++ [.inRanges none subject [line.range] none])
      rw [List.all_append, List.all_cons, List.all_nil, Bool.and_true, match'] at later
      rw [permits, firstPermits_cons]
      split
      · rename_i permit
        have own : (v (all (earlier.map (.not none) ++
            [.inRanges none subject [line.range] none]))).truth =
            (earlier.all (fun e => !(v e).truth) && (v subject).inRanges [line.range]) := by
          rw [compositional.truth_all, List.all_append, List.all_map, List.all_cons, List.all_nil,
            Bool.and_true, match']
          simp only [Function.comp_def, compositional.truth_not]
        rw [List.any_cons, own, later, permit]
        cases (v subject).inRanges [line.range] <;> simp
      · rename_i deny
        rw [later, deny]
        cases (v subject).inRanges [line.range] <;> simp

theorem truth_condition (subject : Expr) (lines : List ListLine) :
    (v (any (permits subject [] lines))).truth = admitsValue lines (v subject) := by
  rw [compositional.truth_any, compositional.truth_permits, List.all_nil, Bool.true_and]

end Expr.Compositional

namespace ListLine

open RoutePolicy.Expr

/-! ### Refused lists -/

/-- A list has a condition exactly if the ranges of all its lines are valid. -/
theorem condition_of_valid {lines : List ListLine} (valid : ∀ line ∈ lines, line.isValid = true)
    (subject : Expr) : condition lines subject = .ok (any (permits subject [] lines)).simplify := by
  have none : lines.find? (!·.isValid) = none :=
    List.find?_eq_none.mpr fun line member => by simp [valid line member]
  rw [condition, none]
  dsimp only
  split
  · rename_i empty
    rw [empty]
    rfl
  · rfl

theorem condition_refused {lines : List ListLine} {subject : Expr} {f : Failure}
    (refused : condition lines subject = .error f) :
    ∃ line ∈ lines, line.isValid = false ∧ f = .reference (.invalidRange line.range) := by
  unfold condition at refused
  split at refused
  · rename_i line found
    cases refused
    refine ⟨line, List.mem_of_find?_eq_some found, ?_, rfl⟩
    simpa using List.find?_some found
  · split at refused <;> cases refused

theorem refused_of_invalid {lines : List ListLine} {line : ListLine} (member : line ∈ lines)
    (invalid : line.isValid = false) (subject : Expr) :
    ∃ f, condition lines subject = .error f := by
  unfold condition
  split
  · exact ⟨_, rfl⟩
  · rename_i none
    have valid := List.find?_eq_none.mp none line member
    simp [invalid] at valid

theorem valid_of_condition {lines : List ListLine} {subject e : Expr}
    (found : condition lines subject = .ok e) : ∀ line ∈ lines, line.isValid = true := by
  intro line member
  by_contra invalid
  obtain ⟨f, refused⟩ := refused_of_invalid member (Bool.eq_false_of_not_eq_true invalid) subject
  rw [found] at refused
  cases refused

/-! ### Values of the condition -/

section

variable {T : ValueType → Expr → Prop} {Q : Expr → Prop}

/-- The conditions of permitting lines have a property of nodes that no rule breaks, if matches of
the subject have it. -/
theorem eachOf_permits (stable : Stable type T False Q) {subject : Expr} (below : subject.Each Q)
    (ranged : ∀ range, Q (.inRanges none subject [range] none)) (lines : List ListLine) :
    ∀ e ∈ permits subject [] lines, e.EachOf T Q .boolean := by
  refine forall_permits ?_ ?_ ?_ (List.forall_mem_nil _)
  · exact fun line _ => ⟨each_unary (ranged line.range) below rfl,
      stable.own_operator (.inRanges none subject [line.range] none) rfl⟩
  · exact fun e condition => ⟨each_unary (stable.negated e condition.2) condition.1 rfl,
      stable.own_operator (.not none e) rfl⟩
  · exact fun es filled each => stable.eachOf_junction filled each

end

/-- A network is one as it stands: no operator gives networks. -/
theorem each_proper_of_network {subject : Expr} (typed : subject.type = .network) :
    subject.Each Proper := by
  cases subject with
  | lit _ _ | attr _ _ => exact each_leaf ⟨rfl, rfl⟩ rfl
  | _ => cases typed

/-- The condition of a list on a network is well typed. -/
theorem eachOf_condition {lines : List ListLine} {subject e : Expr}
    (typed : subject.type = .network) (found : condition lines subject = .ok e) :
    e.EachOf HasType Proper .boolean := by
  have ranged : ∀ range, Proper (.inRanges none subject [range] none) := fun range =>
    ⟨rfl, fitted_of_hasType rfl (List.forall_mem_singleton.mpr typed)⟩
  have parts := eachOf_permits proper_stable (each_proper_of_network typed) ranged lines
  rw [condition_of_valid (valid_of_condition found)] at found
  cases found
  refine proper_typed.eachOf_simplify (each_iff.mpr ⟨⟨rfl, ?_⟩, fun c member => (parts c member).1⟩)
  exact fitted_of_hasType rfl fun c member => (parts c member).2

/-- The condition of a list has the value that its first match gives on the value of the subject. If
that is no network, it is denied. -/
theorem value_condition {lines : List ListLine} {subject e : Expr} (proper : subject.Each Proper)
    (found : condition lines subject = .ok e) (names : Names) (route : Route) :
    e.value names route = .bool (admitsValue lines (subject.value names route)) := by
  have parts := eachOf_permits lenient_stable (proper.mono fun _ => Proper.lenient)
    (fun _ => ⟨rfl, .inl rfl⟩) lines
  rw [condition_of_valid (valid_of_condition found)] at found
  cases found
  have lenient : (any (permits subject [] lines)).Each Lenient :=
    each_iff.mpr ⟨lenient_of_allowed rfl rfl fun c member => (parts c member).2,
      fun c member => (parts c member).1⟩
  rw [value_simplify_of_lenient lenient,
    ← (compositional_value names route).truth_condition subject lines]
  exact Value.eq_bool rfl

/-! ### Conditions of known networks -/

/-- What simplifies to a plain constant. -/
def Settles (e : Expr) : Prop := ∃ value, e.simplify = bool value

theorem settles_not {e : Expr} (settles : Settles e) : Settles (.not none e) := by
  obtain ⟨value, equal⟩ := settles
  refine ⟨!value, ?_⟩
  rw [simplify, equal]
  rfl

theorem settles_junction {op : Junction} {es : List Expr} (each : ∀ e ∈ es, Settles e) :
    Settles (junction none op es) := by
  have parts : ∀ p ∈ (es.map simplify).flatMap (junctionParts op), p.bool? ≠ none := by
    intro p member
    obtain ⟨_, simple, part⟩ := List.mem_flatMap.mp member
    obtain ⟨e, inside, rfl⟩ := List.mem_map.mp simple
    obtain ⟨value, equal⟩ := each e inside
    rw [equal] at part
    rw [List.mem_singleton.mp part]
    exact Option.some_ne_none value
  have constant : ∃ value, simplifyJunction op (es.map simplify) = bool value := by
    rcases simplifyJunction_form op (es.map simplify) with constant | ⟨kept, undecided, form⟩
    · exact constant
    · have empty : kept = [] := List.eq_nil_iff_forall_not_mem.mpr fun p member =>
        parts p (undecided p member).1 (undecided p member).2
      rcases form with single | ⟨filled, -⟩
      · rw [empty] at single
        cases single
      · exact absurd empty filled
  obtain ⟨value, equal⟩ := constant
  refine ⟨value, ?_⟩
  rw [simplify, simplifyAll_eq, settle, simplifyNode, equal]
  rfl

theorem settles_inRanges {cls : Spelling} {text : String} {n : Network}
    (parsed : Network.parse? text = some n) (ranges : List String) :
    Settles (.inRanges none (.lit cls (.network text)) ranges none) := by
  have plain : (lit cls (.network text)).simplify = lit cls (.network text) :=
    simplify_eq_self_iff.mpr (each_leaf trivial rfl)
  refine ⟨ranges.any (NetworkRange.textCovers · n), ?_⟩
  rw [simplify, plain, settle, simplifyNode, simplifyInRanges, parsed]
  rfl

theorem settles_condition {cls : Spelling} {text : String} {n : Network}
    (parsed : Network.parse? text = some n) (lines : List ListLine) :
    Settles (any (permits (lit cls (.network text)) [] lines)) := by
  refine settles_junction (forall_permits ?_ ?_ ?_ (List.forall_mem_nil _))
  · exact fun line _ => settles_inRanges parsed [line.range]
  · exact fun e settles => settles_not settles
  · exact fun es _ each => settles_junction each

/-- The condition of a list on a known network is the plain constant that its first match says. -/
theorem condition_of_network {lines : List ListLine}
    (valid : ∀ line ∈ lines, line.isValid = true) {cls : Spelling} {text : String} {n : Network}
    (parsed : Network.parse? text = some n) :
    condition lines (lit cls (.network text)) = .ok (bool (admits lines n)) := by
  obtain ⟨value, equal⟩ := @settles_condition cls text n parsed lines
  have found := condition_of_valid valid (lit cls (.network text))
  rw [equal] at found
  let route : Route := ⟨text, "", [], 0, 0, 0, 0, [], by rw [parsed]; rfl⟩
  have first : Value.bool value = .bool (admitsValue lines (.network text)) :=
    value_condition (each_proper_of_network rfl) found Names.none route
  rw [admitsValue, parsed, Option.any_some] at first
  rw [found, Value.bool.inj first]

/-- A list is refused exactly if the range of some line, permitting or denying, is malformed, and
such a line is named. Otherwise its condition on a known network is the plain constant that the first
line says whose range holds the network, false if none does; and on every subject that is a network
the condition has the value that the first match gives on the value of the subject. -/
theorem condition_is_first_match (lines : List ListLine) :
    (∀ subject, (∃ f, condition lines subject = .error f) ↔
      ∃ line ∈ lines, line.isValid = false) ∧
    (∀ subject f, condition lines subject = .error f →
      ∃ line ∈ lines, line.isValid = false ∧ f = .reference (.invalidRange line.range)) ∧
    ((∀ line ∈ lines, line.isValid = true) →
      (∀ cls text n, Network.parse? text = some n →
        condition lines (lit cls (.network text)) = .ok (bool (admits lines n))) ∧
      ∀ subject, subject.type = .network → ∃ e, condition lines subject = .ok e ∧
        ∀ names route,
          e.value names route = .bool (admitsValue lines (subject.value names route))) := by
  refine ⟨fun subject => ⟨?_, ?_⟩, fun _ _ => condition_refused, fun valid => ⟨?_, ?_⟩⟩
  · rintro ⟨f, refused⟩
    obtain ⟨line, member, invalid, -⟩ := condition_refused refused
    exact ⟨line, member, invalid⟩
  · rintro ⟨line, member, invalid⟩
    exact refused_of_invalid member invalid subject
  · exact fun cls text n parsed => condition_of_network valid parsed
  · exact fun subject typed =>
      ⟨_, condition_of_valid valid subject,
        value_condition (each_proper_of_network typed) (condition_of_valid valid subject)⟩

/-- A list whose first line denies a part of what the second one permits; the third one repeats the
second one, and the last one holds nothing that is left. -/
def overlapping : List ListLine :=
  [⟨.deny, "10.1.0.0/16:16-32"⟩, ⟨.permit, "10.0.0.0/8:8-24"⟩, ⟨.permit, "10.0.0.0/8:8-24"⟩,
    ⟨.deny, "10.0.0.0/8:8-24"⟩]

theorem overlapping_is_first_match :
    (∀ line ∈ overlapping, line.isValid = true) ∧
    condition overlapping (lit none (.network "10.2.0.0/16")) = .ok (bool true) ∧
    condition overlapping (lit none (.network "10.1.2.0/24")) = .ok (bool false) ∧
    condition overlapping (lit none (.network "172.16.0.0/12")) = .ok (bool false) ∧
    (∃ e, condition overlapping (ref .network) = .ok e ∧ ∀ names route,
      e.value names route = .bool (admitsValue overlapping (.network route.network))) ∧
    ∃ f, condition (overlapping ++ [⟨.deny, "10.0.0.0/33"⟩]) (ref .network) = .error f := by
  have valid : ∀ line ∈ overlapping, line.isValid = true := by decide
  obtain ⟨-, -, read⟩ := condition_is_first_match overlapping
  obtain ⟨known, values⟩ := read valid
  have inside : admits overlapping ⟨0x0A020000, 16⟩ = true := by decide
  have denied : admits overlapping ⟨0x0A010200, 24⟩ = false := by decide
  have outside : admits overlapping ⟨0xAC100000, 12⟩ = false := by decide
  refine ⟨valid, ?_, ?_, ?_, values (ref .network) rfl, ?_⟩
  · rw [known none "10.2.0.0/16" ⟨0x0A020000, 16⟩ (by decide), inside]
  · rw [known none "10.1.2.0/24" ⟨0x0A010200, 24⟩ (by decide), denied]
  · rw [known none "172.16.0.0/12" ⟨0xAC100000, 12⟩ (by decide), outside]
  · obtain ⟨refused, -⟩ := condition_is_first_match (overlapping ++ [⟨.deny, "10.0.0.0/33"⟩])
    exact (refused (ref .network)).mpr ⟨⟨.deny, "10.0.0.0/33"⟩, by simp, by decide⟩

end ListLine

end RoutePolicy
