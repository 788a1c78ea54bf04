import RoutePolicy.Proofs.Condensation
import RoutePolicy.Proofs.ParsedValues

/-!
The condensed document of a topology is read back. What comes back has the same nodes, chains and
edges, and of the policies those that chains reach; written again it has the same canonical text.
-/

set_option autoImplicit false

namespace RoutePolicy

open Encoding RoutePolicy.Condensed

/-! ### Values that are written -/

namespace Json

theorem Held.members? {members : Table Json} (held : (obj members).Held) :
    (obj members).members? = some members := if_pos held.isFinite

end Json

namespace Expr

mutual

theorem same_refl (e : Expr) : e.same e = true := by
  cases e with
  | junction _ _ operands | union _ operands => simp [same, sameAll_refl operands]
  | compare _ _ left right => simp [same, same_refl left, same_refl right]
  | not _ e | hasCommunity _ e _ | inRanges _ e _ _ | inList _ e _ _ | prepend _ _ e =>
    simp [same, same_refl e]
  | lit _ _ | attr _ _ | call _ _ | adjust _ _ _ | namedSet _ _ | unsupported _ _ => simp [same]

theorem sameAll_refl (es : List Expr) : sameAll es es = true := by
  cases es with
  | nil => rfl
  | cons e rest => rw [sameAll, same_refl e, sameAll_refl rest, Bool.and_self]

end

end Expr

namespace Statement

mutual

theorem same_refl (s : Statement) : s.same s = true := by
  cases s with
  | branch _ guard onTrue onFalse _ =>
    simp [same, guard.same_refl, sameAll_refl onTrue, sameAll_refl onFalse]
  | assign _ _ value => simp [same, value.same_refl]
  | finish _ _ => simp [same]

theorem sameAll_refl (block : List Statement) : sameAll block block = true := by
  cases block with
  | nil => rfl
  | cons s rest => rw [sameAll, same_refl s, sameAll_refl rest, Bool.and_self]

end

end Statement

/-! ### Policies of a node -/

/-- A node that its text holds: each of its policies is read back from what it is written as. -/
structure Node.Storable (keep : Bool) (n : Node) : Prop where
  legible : n.Legible
  read : n.policies.All fun p => Encoding.readPolicy keep (writePolicy p) = .ok p
  asn : ∀ asn ∈ n.asn, 0 ≤ asn

/-- Policies of a node, each under its name. -/
structure Node.Collects (n : Node) (known : Table Policy) : Prop where
  distinct : known.names.Nodup
  own : ∀ entry ∈ known, n.policies.get? entry.1 = some entry.2

namespace Condensed

variable {keep : Bool} {n : Node} {known : Table Policy}

theorem object_of_held {members : Table Json} (held : (Json.obj members).Held) (place : Location) :
    object (some (.obj members)) place = .ok members := by
  unfold object
  rw [Option.bind_some, held.members?]

/-- What a step of reading adds: the policies of the given names that are not known yet. -/
def Adds (n : Node) (known : Table Policy) (names : List String) (known' : Table Policy) : Prop :=
  n.Collects known' ∧ ∀ name, name ∈ known'.names ↔ name ∈ known.names ∨ name ∈ names

theorem Adds.nil (collects : n.Collects known) : Adds n known [] known :=
  ⟨collects, by simp⟩

theorem Adds.trans {between known' : Table Policy} {names others : List String}
    (first : Adds n known names between) (second : Adds n between others known') :
    Adds n known (names ++ others) known' := by
  refine ⟨second.1, fun name => ?_⟩
  rw [second.2, first.2, List.mem_append, or_assoc]

theorem readPolicy_adds (storable : n.Storable keep) (collects : n.Collects known) {name : String}
    {p : Policy} (found : n.policies.get? name = some p) (place : Location) : ∃ known',
      readPolicy keep place known (writePolicy p) = .ok (name, known') ∧
        Adds n known [name] known' := by
  have read : Outcome.under place (Encoding.readPolicy keep (writePolicy p)) = .ok p :=
    Outcome.under_ok.mpr (storable.read.get? found)
  have named := storable.legible.name_of_get? found
  cases before : known.get? name with
  | none =>
    refine ⟨known ++ [(name, p)], ?_, ⟨?_, ?_⟩, ?_⟩
    · refine Outcome.bind_ok.mpr ⟨p, read, ?_⟩
      rw [named, before]
    · have fresh : name ∉ known.names := by
        rw [← Table.has_iff, Table.has, before]
        exact Bool.false_ne_true
      rw [Table.names, List.map_append]
      exact List.perm_append_comm.nodup_iff.mpr (List.nodup_cons.mpr ⟨fresh, collects.distinct⟩)
    · intro entry member
      rcases List.mem_append.mp member with old | new
      · exact collects.own entry old
      · obtain rfl := List.mem_singleton.mp new
        exact found
    · intro other
      simp [Table.names]
  | some other =>
    have same : other = p := by
      have own := collects.own _ (Table.mem_of_get? before)
      exact Option.some.inj (own.symm.trans found)
    refine ⟨known, ?_, collects, ?_⟩
    · refine Outcome.bind_ok.mpr ⟨p, read, ?_⟩
      rw [named, before, same]
      exact if_pos (Statement.sameAll_refl p.statements)
    · intro listed
      have member := Table.mem_names_of_get? before
      simp only [List.mem_singleton]
      exact ⟨.inl, fun either => either.elim id fun same => same ▸ member⟩

theorem readPolicies_adds (storable : n.Storable keep) (collects : n.Collects known)
    (place : Location) (i : Nat) {names : List String}
    (all : ∀ name ∈ names, n.policies.has name = true) : ∃ known',
      readPolicies keep place i known ((n.chain names).map writePolicy) = .ok (names, known') ∧
        Adds n known names known' := by
  induction names generalizing i known with
  | nil => exact ⟨known, rfl, .nil collects⟩
  | cons name rest ih =>
    obtain ⟨here, later⟩ := List.forall_mem_cons.mp all
    obtain ⟨p, found⟩ := Option.isSome_iff_exists.mp here
    obtain ⟨between, own, first⟩ := readPolicy_adds storable collects found (place ++ [.index i])
    obtain ⟨known', others, second⟩ := ih first.1 (i + 1) later
    refine ⟨known', ?_, first.trans second⟩
    unfold Node.chain at others ⊢
    rw [List.filterMap_cons_some found, List.map_cons]
    refine Outcome.bind_ok.mpr ⟨(name, between), own, ?_⟩
    exact Outcome.bind_ok.mpr ⟨(rest, known'), others, rfl⟩

theorem readInterface_adds (storable : n.Storable keep) (collects : n.Collects known)
    (place : Location) {c : Chains} (all : ∀ name ∈ c.policies, n.policies.has name = true) :
    ∃ known', readInterface keep place known (writeChains n c) = .ok (c, known') ∧
      Adds n known c.policies known' := by
  obtain ⟨entering, leaving⟩ := List.forall_mem_append.mp all
  obtain ⟨between, imports, first⟩ :=
    readPolicies_adds storable collects (place ++ [.field "import"]) 0 entering
  obtain ⟨known', exports, second⟩ :=
    readPolicies_adds storable first.1 (place ++ [.field "export"]) 0 leaving
  refine ⟨known', ?_, first.trans second⟩
  refine Outcome.bind_ok.mpr ⟨_, object_of_held (storable.legible.held_chains c) place, ?_⟩
  refine Outcome.bind_ok.mpr ⟨(c.imports, between), imports, ?_⟩
  exact Outcome.bind_ok.mpr ⟨(c.exports, known'), exports, rfl⟩

theorem readInterfaces_adds (storable : n.Storable keep) (collects : n.Collects known)
    (node : String) (place : Location) {entries : Table Chains}
    (all : ∀ entry ∈ entries, ∀ name ∈ entry.2.policies, n.policies.has name = true) : ∃ known',
      readInterfaces keep node place known
          (entries.map fun (name, c) => (name, writeChains n c)) = .ok (entries, known') ∧
        Adds n known (entries.values.flatMap Chains.policies) known' := by
  induction entries generalizing known with
  | nil => exact ⟨known, rfl, .nil collects⟩
  | cons entry rest ih =>
    obtain ⟨name, c⟩ := entry
    obtain ⟨here, later⟩ := List.forall_mem_cons.mp all
    obtain ⟨between, own, first⟩ :=
      readInterface_adds storable collects (place ++ [.field name]) here
    obtain ⟨known', others, second⟩ := ih first.1 later
    refine ⟨known', ?_, first.trans second⟩
    refine Outcome.bind_ok.mpr ⟨(c, between), Outcome.inContext_ok.mpr own, ?_⟩
    exact Outcome.bind_ok.mpr ⟨(rest, known'), others, rfl⟩

theorem readListed_adds (storable : n.Storable keep) (collects : n.Collects known)
    (node : String) (place : Location) {entries : Table Policy}
    (own : ∀ entry ∈ entries, n.policies.get? entry.1 = some entry.2) : ∃ known',
      readListed keep node place known
          (entries.map fun (name, p) => (name, writePolicy p)) = .ok known' ∧
        Adds n known entries.names known' := by
  induction entries generalizing known with
  | nil => exact ⟨known, rfl, .nil collects⟩
  | cons entry rest ih =>
    obtain ⟨name, p⟩ := entry
    obtain ⟨here, later⟩ := List.forall_mem_cons.mp own
    obtain ⟨between, read, first⟩ := readPolicy_adds storable collects here (place ++ [.field name])
    obtain ⟨known', others, second⟩ := ih first.1 later
    refine ⟨known', ?_, first.trans second⟩
    refine Outcome.bind_ok.mpr ⟨(name, between), read, ?_⟩
    dsimp only
    rw [if_pos rfl]
    exact others

/-! ### Nodes -/

theorem readAsn_int (place : Location) {asn : Option Int} (positive : ∀ i ∈ asn, 0 ≤ i)
    (exactly : ∀ i ∈ asn, Number.ofInt i = .finite i) : readAsn place (asn.map .int) = .ok asn := by
  cases asn with
  | none => rfl
  | some i =>
    have nat : (Number.ofInt i).toNat? = some i.toNat := by
      rw [exactly i rfl]
      simp [Number.toNat?, Number.toInt?, positive i rfl]
    rw [Option.map_some, Json.int, readAsn, nat]
    simp [positive i rfl]

theorem readNetworks_strs (place : Location) (i : Nat) (texts : List String) :
    readNetworks place i (texts.map .str) = .ok texts := by
  induction texts generalizing i with
  | nil => rfl
  | cons text rest ih => exact Outcome.bind_ok.mpr ⟨rest, ih (i + 1), rfl⟩

theorem readExternal_written (place : Location) (external : Bool) :
    readExternal place (if external then some (.bool true) else none) = .ok external := by
  cases external <;> rfl

/-- The policies that are only called are listed by name, if there are any. -/
theorem listed_adds (storable : n.Storable keep) (collects : n.Collects known)
    (place : Location) : ∃ known', Adds n known (n.calledOnly.map Policy.name) known' ∧
      (((writeNode n).get? "policies" = none ∧ known' = known) ∨ ∃ listed,
        (Json.obj listed).Held ∧ (writeNode n).get? "policies" = some (.obj listed) ∧
          readListed keep n.name place known listed = .ok known') := by
  have legible := storable.legible
  rw [get?_policies]
  cases none : n.calledOnly.isEmpty with
  | true =>
    rw [List.isEmpty_iff.mp none]
    exact ⟨known, .nil collects, .inl ⟨rfl, rfl⟩⟩
  | false =>
    let entries : Table Policy := n.calledOnly.map fun p => (p.name, p)
    have names : entries.names = n.calledOnly.map Policy.name := by simp [entries, Table.names]
    have perm := (Table.perm_arrange (names ▸ legible.distinct_calledOnly)).1
    have own : ∀ entry ∈ Table.arrange entries, n.policies.get? entry.1 = some entry.2 := by
      intro entry member
      obtain ⟨p, listed, rfl⟩ := List.mem_map.mp (perm.mem_iff.mp member)
      exact legible.get?_name (Node.mem_calledOnly.mp listed).1
    obtain ⟨known', read, collects', added⟩ :=
      readListed_adds storable collects n.name place own
    refine ⟨known', ⟨collects', fun name => ?_⟩, .inr ⟨_, ?_, rfl, ?_⟩⟩
    · rw [added, ← names]
      exact or_congr_right (perm.map Prod.fst).mem_iff
    · exact legible.held_policies
    · rw [← Table.arrange_map, List.map_map] at read
      exact read

/-- What the interfaces and the list of called policies add are the policies that chains reach. -/
theorem mem_reached {between known' : Table Policy} (legible : n.Legible) (resolved : n.Resolved)
    (first : Adds n [] (Table.values (Table.arrange n.interfaces) |>.flatMap Chains.policies) between)
    (second : Adds n between (n.calledOnly.map Policy.name) known') (name : String) :
    name ∈ Table.names known' ↔ n.Reaches n.bound name := by
  have perm := (Table.perm_arrange legible.interfaces).1
  have bound : name ∈ (Table.values (Table.arrange n.interfaces)).flatMap Chains.policies ↔
      name ∈ n.bound := ((perm.map Prod.snd).flatMap_right _).mem_iff
  rw [second.2, first.2, bound, Node.mem_calledOnly_names resolved legible.named]
  constructor
  · rintro ((none | own) | ⟨reaches, -⟩)
    · cases none
    · exact .known own
    · exact reaches
  · intro reaches
    by_cases own : name ∈ n.bound
    · exact .inl (.inr own)
    · exact .inr ⟨reaches, own⟩

theorem readNode_writeNode (storable : n.Storable keep) (resolved : n.Resolved) : ∃ known,
    readNode keep n.name (writeNode n) = .ok
        { n with interfaces := Table.arrange n.interfaces, policies := Table.arrange known } ∧
      n.Collects known ∧ ∀ name, name ∈ Table.names known ↔ n.Reaches n.bound name := by
  have legible := storable.legible
  obtain ⟨members, written, plain⟩ := writeNode_object n
  have held : (Json.obj members).Held := written ▸ legible.held
  have fields : ∀ key, members.get? key = (writeNode n).get? key := by
    intro key
    rw [written]
    rfl
  have chained : ∀ entry ∈ Table.arrange n.interfaces, ∀ name ∈ entry.2.policies,
      n.policies.has name = true := by
    intro entry member
    exact resolved.bound entry ((Table.perm_arrange legible.interfaces).1.mem_iff.mp member)
  have empty : n.Collects [] := ⟨List.nodup_nil, nofun⟩
  obtain ⟨between, interfaces, first⟩ := readInterfaces_adds storable empty n.name
    [.field "nodes", .field n.name, .field "interfaces"] chained
  obtain ⟨known, second, called⟩ := listed_adds storable first.1
    [.field "nodes", .field n.name, .field "policies"]
  rw [← fields] at called
  have asn : readAsn [.field "nodes", .field n.name, .field "asn"] (members.get? "asn") =
      .ok n.asn := by
    rw [fields, get?_asn]
    exact readAsn_int _ storable.asn legible.asn
  have networks : array (members.get? "prefixes")
      [.field "nodes", .field n.name, .field "prefixes"] = .ok (n.networks.map .str) := by
    rw [fields, get?_prefixes]
    rfl
  have object : object (members.get? "interfaces")
      [.field "nodes", .field n.name, .field "interfaces"] =
        .ok ((Table.arrange n.interfaces).map fun (name, c) => (name, writeChains n c)) := by
    rw [fields, get?_interfaces, ← Table.arrange_map]
    exact object_of_held legible.held_interfaces _
  have external : readExternal [.field "nodes", .field n.name, .field "external"]
      (members.get? "external") = .ok n.external := by
    rw [fields, get?_external]
    exact readExternal_written _ n.external
  refine ⟨known, ?_, second.1, mem_reached legible resolved first second⟩
  rw [written]
  refine Outcome.bind_ok.mpr ⟨members, object_of_held held _, ?_⟩
  refine Outcome.bind_ok.mpr ⟨n.asn, asn, ?_⟩
  refine Outcome.bind_ok.mpr ⟨n.networks.map .str, networks, ?_⟩
  refine Outcome.bind_ok.mpr ⟨n.networks, readNetworks_strs _ 0 n.networks, ?_⟩
  refine Outcome.bind_ok.mpr ⟨_, object, ?_⟩
  refine Outcome.bind_ok.mpr ⟨(Table.arrange n.interfaces, between), interfaces, ?_⟩
  rcases called with ⟨missing, rfl⟩ | ⟨listed, object, found, read⟩
  · rw [missing]
    exact Outcome.bind_ok.mpr ⟨known, rfl, Outcome.bind_ok.mpr ⟨n.external, external, rfl⟩⟩
  · rw [found]
    refine Outcome.bind_ok.mpr ⟨listed, object_of_held object _, ?_⟩
    exact Outcome.bind_ok.mpr ⟨known, read, Outcome.bind_ok.mpr ⟨n.external, external, rfl⟩⟩

end Condensed

end RoutePolicy
