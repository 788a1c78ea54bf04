import RoutePolicy.Proofs.Reading
import RoutePolicy.Proofs.Tables
import RoutePolicy.Topology.Condensed

/-!
What the reader of condensed documents promises of the nodes of a topology: whatever the reader of
policies promises of each policy, for one that all expressions reach literals.
-/

set_option autoImplicit false

namespace RoutePolicy

/-- A property of values that the parts of a value have too. -/
structure Json.Hereditary (G : Json → Prop) : Prop where
  null : G .null
  items : ∀ items, G (.arr items) → ∀ item ∈ items, G item
  members : ∀ members : Table Json, G (.obj members) → members.All G

theorem Json.hereditary_true : Json.Hereditary fun _ => True :=
  ⟨trivial, fun _ _ _ _ => trivial, fun _ _ _ _ => trivial⟩

/-- A topology of policies all expressions of which reach literals. -/
def Topology.Foldable (t : Topology) : Prop := ∀ n ∈ t.nodes, n.policies.All Policy.Foldable

theorem Topology.create_ok {nodes : List Node} {edges : List Edge} {t : Topology}
    (created : create nodes edges = .ok t) : t = ⟨nodes, edges⟩ := by
  obtain ⟨_, _, created⟩ := Outcome.bind_ok.mp created
  obtain ⟨_, _, same⟩ := Outcome.bind_ok.mp created
  cases same
  rfl

/-- Policies with a property, each under its own name. -/
structure Policy.Collected (Q : Policy → Prop) (known : Table Policy) : Prop where
  distinct : known.names.Nodup
  named : ∀ entry ∈ known, entry.2.name = entry.1
  all : known.All Q

theorem Policy.Collected.arrange {Q : Policy → Prop} {known : Table Policy}
    (collected : Collected Q known) : Collected Q (Table.arrange known) where
  distinct := (Table.arranged_arrange known).distinct
  named entry member :=
    collected.named entry ((Table.perm_arrange collected.distinct).1.mem_iff.mp member)
  all := collected.all.arrange

namespace Condensed

/-! ### Parts of a document -/

section

variable {G : Json → Prop} {place : Location}

theorem object_ok {j : Option Json} {ms : Table Json} (found : object j place = .ok ms) :
    j = some (.obj ms) := by
  unfold object at found
  split at found
  · rename_i members same
    cases found
    obtain ⟨value, rfl, inside⟩ := Option.bind_eq_some_iff.mp same
    unfold Json.members? at inside
    split at inside
    · split at inside
      · cases inside
        rfl
      · cases inside
    · cases inside
  · cases found

theorem array_ok {j : Option Json} {items : List Json} (found : array j place = .ok items) :
    j = some (.arr items) := by
  unfold array at found
  split at found
  · cases found
    rfl
  · cases found

/-- The members of an object and the objects among its members have what the object has. -/
theorem members_of_object (hereditary : Json.Hereditary G) {j : Option Json} {ms : Table Json}
    (own : ∀ value, j = some value → G value) (found : object j place = .ok ms) : ms.All G :=
  hereditary.members ms (own _ (object_ok found))

theorem items_of_array (hereditary : Json.Hereditary G) {j : Option Json} {items : List Json}
    (own : ∀ value, j = some value → G value) (found : array j place = .ok items) :
    ∀ item ∈ items, G item :=
  hereditary.items items (own _ (array_ok found))

end

/-! ### Policies that are read -/

section

variable {keep : Bool} {G : Json → Prop} {Q : Policy → Prop}

/-- What the reader of policies promises of values with the property `G`. -/
structure Promises (keep : Bool) (G : Json → Prop) (Q : Policy → Prop) : Prop where
  hereditary : Json.Hereditary G
  reads : ∀ j p, G j → Encoding.readPolicy keep j = .ok p → Q p

variable {known known' : Table Policy} {place : Location}

theorem readPolicy_collected (promises : Promises keep G Q) {j : Json} {name : String} (own : G j)
    (before : Policy.Collected Q known) (read : readPolicy keep place known j = .ok (name, known')) :
    Policy.Collected Q known' := by
  obtain ⟨p, found, read⟩ := Outcome.bind_ok.mp read
  cases earlier : known.get? p.name with
  | none =>
    rw [earlier] at read
    cases read
    have absent : p.name ∉ known.names := by
      rw [← Table.has_iff, Table.has, earlier]
      exact Bool.false_ne_true
    constructor
    · rw [Table.names, List.map_append]
      exact List.perm_append_comm.nodup_iff.mpr (List.nodup_cons.mpr ⟨absent, before.distinct⟩)
    · intro entry member
      rcases List.mem_append.mp member with old | new
      · exact before.named entry old
      · obtain rfl := List.mem_singleton.mp new
        rfl
    · have holds := promises.reads j p own (Outcome.under_ok.mp found)
      exact before.all.append (Table.All.single holds)
  | some other =>
    rw [earlier] at read
    dsimp only at read
    split at read
    · cases read
      exact before
    · cases read

theorem readPolicies_collected (promises : Promises keep G Q) {i : Nat} {js : List Json}
    {names : List String} (own : ∀ j ∈ js, G j) (before : Policy.Collected Q known)
    (read : readPolicies keep place i known js = .ok (names, known')) :
    Policy.Collected Q known' := by
  induction js generalizing i known names with
  | nil =>
      cases read
      exact before
  | cons j rest ih =>
      obtain ⟨here, later⟩ := List.forall_mem_cons.mp own
      obtain ⟨⟨name, first⟩, found, read⟩ := Outcome.bind_ok.mp read
      obtain ⟨⟨others, last⟩, further, same⟩ := Outcome.bind_ok.mp read
      cases same
      exact ih later (readPolicy_collected promises here before found) further

theorem readChain_collected (promises : Promises keep G Q) {j : Option Json} {names : List String}
    (own : ∀ value, j = some value → G value) (before : Policy.Collected Q known)
    (read : readChain keep place known j = .ok (names, known')) : Policy.Collected Q known' := by
  obtain ⟨items, found, read⟩ := Outcome.bind_ok.mp read
  exact readPolicies_collected promises (items_of_array promises.hereditary own found) before read

theorem readInterface_collected (promises : Promises keep G Q) {j : Json} {chains : Chains}
    (own : G j) (before : Policy.Collected Q known)
    (read : readInterface keep place known j = .ok (chains, known')) :
    Policy.Collected Q known' := by
  obtain ⟨ms, found, read⟩ := Outcome.bind_ok.mp read
  obtain ⟨⟨imports, between⟩, entering, read⟩ := Outcome.bind_ok.mp read
  obtain ⟨⟨exports, last⟩, leaving, same⟩ := Outcome.bind_ok.mp read
  cases same
  have members : ms.All G := by
    refine members_of_object promises.hereditary ?_ found
    rintro _ ⟨⟩
    exact own
  have member : ∀ key value, ms.get? key = some value → G value := fun _ _ => members.get?
  have middle := readChain_collected promises (member "import") before entering
  exact readChain_collected promises (member "export") middle leaving

theorem readInterfaces_collected (promises : Promises keep G Q) {node : String} {js : Table Json}
    {interfaces : Table Chains} (own : js.All G) (before : Policy.Collected Q known)
    (read : readInterfaces keep node place known js = .ok (interfaces, known')) :
    Policy.Collected Q known' ∧ interfaces.names = js.names := by
  induction js generalizing known interfaces with
  | nil =>
      cases read
      exact ⟨before, rfl⟩
  | cons entry rest ih =>
      obtain ⟨here, later⟩ := List.forall_mem_cons.mp own
      obtain ⟨⟨chains, between⟩, found, read⟩ := Outcome.bind_ok.mp read
      obtain ⟨⟨others, last⟩, further, same⟩ := Outcome.bind_ok.mp read
      cases same
      have middle := readInterface_collected promises here before (Outcome.inContext_ok.mp found)
      obtain ⟨collected, names⟩ := ih later middle further
      exact ⟨collected, congrArg (entry.1 :: ·) names⟩

theorem readListed_collected (promises : Promises keep G Q) {node : String} {js : Table Json}
    (own : js.All G) (before : Policy.Collected Q known)
    (read : readListed keep node place known js = .ok known') : Policy.Collected Q known' := by
  induction js generalizing known with
  | nil =>
      cases read
      exact before
  | cons entry rest ih =>
      obtain ⟨here, later⟩ := List.forall_mem_cons.mp own
      obtain ⟨⟨name, between⟩, found, read⟩ := Outcome.bind_ok.mp read
      dsimp only at read
      split at read
      · exact ih later (readPolicy_collected promises here before found) read
      · cases read

/-- A node that is read from an object has its name, its AS number and its interfaces, and policies
of the property that the reader promises. -/
theorem readNode_ok (promises : Promises keep G Q) {name : String} {j : Json} {n : Node} (own : G j)
    (read : readNode keep name j = .ok n) :
    n.name = name ∧ Policy.Collected Q n.policies ∧ ∃ ms : Table Json, j = .obj ms ∧
      readAsn [.field "nodes", .field name, .field "asn"] (ms.get? "asn") = .ok n.asn ∧
        ∃ js : Table Json, ms.get? "interfaces" = some (.obj js) ∧
          n.interfaces.names = js.names := by
  obtain ⟨ms, object, read⟩ := Outcome.bind_ok.mp read
  obtain ⟨asn, numbered, read⟩ := Outcome.bind_ok.mp read
  obtain ⟨items, _, read⟩ := Outcome.bind_ok.mp read
  obtain ⟨networks, _, read⟩ := Outcome.bind_ok.mp read
  obtain ⟨js, table, read⟩ := Outcome.bind_ok.mp read
  obtain ⟨⟨interfaces, bound⟩, found, read⟩ := Outcome.bind_ok.mp read
  have same : j = .obj ms := Option.some.inj (object_ok object)
  have members : ms.All G := promises.hereditary.members ms (same ▸ own)
  have member : ∀ key value, ms.get? key = some value → G value := fun _ _ => members.get?
  have inside := members_of_object promises.hereditary (member "interfaces") table
  have empty : Policy.Collected Q [] := ⟨List.nodup_nil, nofun, Table.All.nil⟩
  obtain ⟨collected, names⟩ := readInterfaces_collected promises inside empty found
  dsimp only at read
  split at read
  · obtain ⟨_, kept, read⟩ := Outcome.bind_ok.mp read
    obtain ⟨external, _, done⟩ := Outcome.bind_ok.mp read
    cases kept
    cases done
    exact ⟨rfl, collected.arrange, ms, same, numbered, js, object_ok table, names⟩
  · rename_i listed present
    obtain ⟨entries, listing, read⟩ := Outcome.bind_ok.mp read
    obtain ⟨known, further, read⟩ := Outcome.bind_ok.mp read
    obtain ⟨external, _, done⟩ := Outcome.bind_ok.mp read
    cases done
    have all : Table.All G entries := by
      refine members_of_object promises.hereditary ?_ listing
      rintro _ ⟨⟩
      exact member _ _ present
    have whole := readListed_collected promises all collected further
    exact ⟨rfl, whole.arrange, ms, same, numbered, js, object_ok table, names⟩

/-- The nodes that are read are those of the members, in their order. -/
theorem readNodes_ok {js : Table Json} {nodes : List Node} (read : readNodes keep js = .ok nodes) :
    List.Forall₂ (fun entry n => readNode keep entry.1 entry.2 = .ok n) js nodes := by
  induction js generalizing nodes with
  | nil =>
      cases read
      exact .nil
  | cons entry rest ih =>
      obtain ⟨n, own, read⟩ := Outcome.bind_ok.mp read
      obtain ⟨others, later, same⟩ := Outcome.bind_ok.mp read
      cases same
      exact .cons own (ih later)

end

end Condensed

namespace Topology

variable {keep : Bool} {j : Json} {t : Topology}

/-- The nodes of a condensed document are read from its object of nodes. -/
theorem ofJson_ok (read : ofJson keep j = .ok t) : create t.nodes t.edges = .ok t ∧
    ∃ ms js : Table Json, j = .obj ms ∧ ms.get? "nodes" = some (.obj js) ∧
      List.Forall₂ (fun entry n => Condensed.readNode keep entry.1 entry.2 = .ok n) js t.nodes := by
  obtain ⟨⟨nodes, edges⟩, parts, created⟩ := Outcome.bind_ok.mp read
  cases create_ok created
  refine ⟨created, ?_⟩
  unfold Condensed.readParts at parts
  split at parts
  · cases parts
  · rename_i ms members
    dsimp only at parts
    split at parts
    · obtain ⟨js, object, parts⟩ := Outcome.bind_ok.mp parts
      obtain ⟨nodes', found, parts⟩ := Outcome.bind_ok.mp parts
      obtain ⟨items, _, parts⟩ := Outcome.bind_ok.mp parts
      obtain ⟨edges', _, same⟩ := Outcome.bind_ok.mp parts
      cases same
      have whole : Condensed.object (some j) [] = .ok ms := by
        rw [Condensed.object, Option.bind_some, members]
      cases Condensed.object_ok whole
      exact ⟨ms, js, rfl, Condensed.object_ok object, Condensed.readNodes_ok found⟩
    · cases parts

/-- The policies of a condensed document have what all expressions that are read have. -/
theorem each_of_ofJson {Q : Expr → Prop}
    (reads : ∀ j e, Encoding.readExpr keep j = .ok e → e.Each Q) (read : ofJson keep j = .ok t) :
    ∀ n ∈ t.nodes,
      n.policies.All fun p => Statement.EveryAll (fun _ e => e.Each Q) p.statements := by
  obtain ⟨-, ms, js, -, -, related⟩ := ofJson_ok read
  have promises : Condensed.Promises keep (fun _ => True) fun p =>
      Statement.EveryAll (fun _ e => e.Each Q) p.statements :=
    ⟨Json.hereditary_true, fun _ _ _ found =>
      (Encoding.readPolicy_every found).mono fun _ _ ⟨_, own⟩ => reads _ _ own⟩
  intro n member
  obtain ⟨entry, -, own⟩ := exists_of_forall₂ related.flip member
  exact (Condensed.readNode_ok promises trivial own).2.1.all

end Topology

end RoutePolicy
