import TypedForms.Proofs.SortedTexts
import TypedForms.Proofs.WellFormedTrees
import TypedForms.Ty.Union

/-! Types in normal form.

A union in normal form has at least two components, none of them a union, no two
the same, in ascending order of their texts.  A type is normal when all unions
inside it are.  Building the union of normal types gives a normal type again, and
so does reading an ascription that has no union without members.
-/
namespace TypedForms.Ty

/-! ## Nodes -/

/-- Induction over a type: a procedure type or union may assume the statement of all that it is
built from. -/
@[induction_eliminator]
theorem induct {motive : Ty → Prop} (number : motive .number) (boolean : motive .boolean)
    (string : motive .string) (void : motive .void) (var : ∀ name, motive (.var name))
    (proc : ∀ params result, (∀ param ∈ params, motive param) → motive result →
      motive (.proc params result))
    (union : ∀ members, (∀ member ∈ members, motive member) → motive (.union members))
    (type : Ty) : motive type :=
  @Ty.rec motive (fun list => ∀ type ∈ list, motive type) number boolean string void var proc union
    (fun _ member => nomatch member)
    (fun _ _ first later => List.forall_mem_cons.mpr ⟨first, later⟩) type

theorem texts_eq_map (list : List Ty) : texts list = list.map text := by
  induction list with
  | nil => rfl
  | cons first rest ih => simp [texts, ih]

theorem ofAscriptions_eq_map (list : List Ascription) :
    ofAscriptions list = list.map ofAscription := by
  induction list with
  | nil => rfl
  | cons first rest ih => simp [ofAscriptions, ih]

mutual

/-- The type and every type inside it. -/
def nodes : Ty → List Ty
  | .proc params result => .proc params result :: (nodesAll params ++ result.nodes)
  | .union members => .union members :: nodesAll members
  | type => [type]

/-- The nodes of the types of a list. -/
def nodesAll : List Ty → List Ty
  | [] => []
  | first :: rest => first.nodes ++ nodesAll rest

end

@[simp] theorem nodesAll_eq_flatMap (list : List Ty) : nodesAll list = list.flatMap nodes := by
  induction list with
  | nil => rfl
  | cons first rest ih => simp [nodesAll, ih]

/-- Every node satisfies the condition. -/
def All (holds : Ty → Prop) (type : Ty) : Prop :=
  ∀ node ∈ type.nodes, holds node

instance (holds : Ty → Prop) [DecidablePred holds] (type : Ty) : Decidable (type.All holds) :=
  inferInstanceAs (Decidable (∀ node ∈ type.nodes, holds node))

variable {holds : Ty → Prop}

theorem all_leaf {type : Ty} (leaf : type.nodes = [type]) : type.All holds ↔ holds type := by
  simp [All, leaf]

theorem all_proc : (proc params result).All holds ↔
    holds (.proc params result) ∧ (∀ param ∈ params, param.All holds) ∧ result.All holds := by
  simp only [All, nodes, nodesAll_eq_flatMap, List.forall_mem_cons, List.forall_mem_append,
    List.forall_mem_flatMap]

theorem all_union : (union members).All holds ↔
    holds (.union members) ∧ ∀ member ∈ members, member.All holds := by
  simp only [All, nodes, nodesAll_eq_flatMap, List.forall_mem_cons, List.forall_mem_flatMap]

/-! ## Normal types and legal names -/

/-- The components of a union in normal form. -/
structure NormalUnion (members : List Ty) : Prop where
  several : 2 ≤ members.length
  flat : ∀ member ∈ members, member.tag ≠ .union
  distinct : members.Nodup
  ascending : Text.Ascending text members

theorem NormalUnion.ne_nil (union : NormalUnion members) : members ≠ [] := by
  rintro rfl
  exact absurd union.several (by decide)

/-- What normal form asks of a node by itself. -/
def NormalAt : Ty → Prop
  | .union members => NormalUnion members
  | _ => True

instance (members : List Ty) : Decidable (NormalUnion members) :=
  decidable_of_iff (2 ≤ members.length ∧ (∀ member ∈ members, member.tag ≠ .union) ∧
      members.Nodup ∧ Text.Ascending text members)
    ⟨fun ⟨several, flat, distinct, ascending⟩ => ⟨several, flat, distinct, ascending⟩,
      fun union => ⟨union.several, union.flat, union.distinct, union.ascending⟩⟩

instance : (type : Ty) → Decidable type.NormalAt
  | .union members => inferInstanceAs (Decidable (NormalUnion members))
  | .number | .boolean | .string | .void | .var _ | .proc .. => .isTrue trivial

/-- Every union in the type, at any depth, is in normal form. -/
def Normal (type : Ty) : Prop :=
  type.All NormalAt

instance (type : Ty) : Decidable type.Normal :=
  inferInstanceAs (Decidable (type.All NormalAt))

/-- What is asked of the name of a node. -/
def LegalAt : Ty → Prop
  | .var name => Token.LegalName name
  | _ => True

instance : (type : Ty) → Decidable type.LegalAt
  | .var name => inferInstanceAs (Decidable (Token.LegalName name))
  | .number | .boolean | .string | .void | .proc .. | .union _ => .isTrue trivial

/-- Every variable in the type has a legal name. -/
def Legal (type : Ty) : Prop :=
  type.All LegalAt

instance (type : Ty) : Decidable type.Legal :=
  inferInstanceAs (Decidable (type.All LegalAt))

/-- A type that its text stands for: normal, with legal names. -/
structure Readable (type : Ty) : Prop where
  normal : type.Normal
  legal : type.Legal

theorem legal_union : (union members).Legal ↔ ∀ member ∈ members, member.Legal :=
  ⟨fun legal => (all_union.mp legal).2, fun legal => all_union.mpr ⟨trivial, legal⟩⟩

theorem atomic_readable {type : Ty} (atomic : type.isAtomic = true) : type.Readable := by
  cases type with
  | number | boolean | string | void =>
    exact ⟨(all_leaf rfl).mpr trivial, (all_leaf rfl).mpr trivial⟩
  | var | proc | union => cases atomic

theorem readable_var : (var name).Readable ↔ Token.LegalName name :=
  ⟨fun readable => (all_leaf rfl).mp readable.legal,
    fun legal => ⟨(all_leaf rfl).mpr trivial, (all_leaf rfl).mpr legal⟩⟩

theorem readable_proc : (proc params result).Readable ↔
    (∀ param ∈ params, param.Readable) ∧ result.Readable := by
  constructor
  · intro readable
    obtain ⟨_, paramsNormal, resultNormal⟩ := all_proc.mp readable.normal
    obtain ⟨_, paramsLegal, resultLegal⟩ := all_proc.mp readable.legal
    exact ⟨fun param member => ⟨paramsNormal param member, paramsLegal param member⟩,
      resultNormal, resultLegal⟩
  · rintro ⟨params, result⟩
    exact ⟨all_proc.mpr ⟨trivial, fun param member => (params param member).normal, result.normal⟩,
      all_proc.mpr ⟨trivial, fun param member => (params param member).legal, result.legal⟩⟩

/-! ## Lists without repetition -/

private theorem nodup_eraseDups [DecidableEq α] (list : List α) : list.eraseDups.Nodup := by
  cases list with
  | nil => exact .nil
  | cons first rest =>
    rw [List.eraseDups_cons]
    exact List.nodup_cons.mpr ⟨by simp, nodup_eraseDups _⟩
termination_by list.length
decreasing_by exact Nat.lt_succ_of_le (List.length_filter_le _ _)

private theorem eraseDups_of_nodup [DecidableEq α] {list : List α} (distinct : list.Nodup) :
    list.eraseDups = list := by
  induction list with
  | nil => rfl
  | cons first rest ih =>
    obtain ⟨absent, restDistinct⟩ := List.nodup_cons.mp distinct
    have kept : rest.filter (fun other => !other == first) = rest := by
      apply List.filter_eq_self.mpr
      intro other member
      have different : other ≠ first := fun same => absent (same ▸ member)
      simpa using different
    rw [List.eraseDups_cons, kept, ih restDistinct]

/-! ## Unions -/

/-- The components of the union of a list of types. -/
def alternatives (members : List Ty) : List Ty :=
  Text.sortBy text (members.flatMap components).eraseDups

theorem unionOf_eq (members : List Ty) : unionOf members = ofComponents (alternatives members) :=
  rfl

theorem alternatives_perm (members : List Ty) :
    (alternatives members).Perm (members.flatMap components).eraseDups :=
  Text.sortBy_perm _

@[simp] theorem mem_alternatives :
    type ∈ alternatives members ↔ ∃ member ∈ members, type ∈ member.components := by
  rw [(alternatives_perm members).mem_iff, List.mem_eraseDups, List.mem_flatMap]

theorem alternatives_distinct (members : List Ty) : (alternatives members).Nodup :=
  (alternatives_perm members).nodup_iff.mpr (nodup_eraseDups _)

theorem alternatives_ascending (members : List Ty) : Text.Ascending text (alternatives members) :=
  Text.sortBy_ascending _

/-- Types that are no unions and stand in order without repetition are all there is to sort. -/
theorem alternatives_of_components (same : members.flatMap components = types)
    (distinct : types.Nodup) (ascending : Text.Ascending text types) :
    alternatives members = types := by
  rw [alternatives, same, eraseDups_of_nodup distinct, Text.sortBy_of_ascending ascending]

theorem components_of_flat {type : Ty} (flat : type.tag ≠ .union) : type.components = [type] := by
  cases type with
  | union members => exact absurd rfl flat
  | _ => rfl

theorem components_ofComponents {types : List Ty} (flat : ∀ type ∈ types, type.tag ≠ .union) :
    (ofComponents types).components = types := by
  match types with
  | [] => rfl
  | [type] => exact components_of_flat (flat type (by simp))
  | _ :: _ :: _ => rfl

theorem ofComponents_several (several : 2 ≤ types.length) : ofComponents types = .union types := by
  cases types with
  | nil => exact absurd several (by decide)
  | cons first rest =>
    cases rest with
    | nil => exact absurd several (by simp)
    | cons second rest => rfl

theorem components_flat {type : Ty} (normal : type.Normal) :
    ∀ component ∈ type.components, component.tag ≠ .union := by
  cases type with
  | union members => exact (all_union.mp normal).1.flat
  | _ => simp [components, tag]

theorem components_normal {type : Ty} (normal : type.Normal) :
    ∀ component ∈ type.components, component.Normal := by
  cases type with
  | union members => exact (all_union.mp normal).2
  | _ => exact fun component member => List.mem_singleton.mp member ▸ normal

/-- A condition that no union breaks by itself is one on the components. -/
theorem components_all (unions : ∀ members, holds (.union members)) {type : Ty} :
    (∀ component ∈ type.components, component.All holds) ↔ type.All holds := by
  cases type with
  | union members =>
    exact ⟨fun all => all_union.mpr ⟨unions members, all⟩, fun all => (all_union.mp all).2⟩
  | _ => simp [components]

theorem components_legal {type : Ty} :
    (∀ component ∈ type.components, component.Legal) ↔ type.Legal :=
  components_all fun _ => trivial

theorem components_ne_nil {type : Ty} (normal : type.Normal) : type.components ≠ [] := by
  cases type with
  | union members =>
    exact (all_union.mp normal).1.ne_nil
  | _ => simp [components]

theorem ofComponents_normal {types : List Ty} (nonempty : types ≠ [])
    (flat : ∀ type ∈ types, type.tag ≠ .union) (distinct : types.Nodup)
    (ascending : Text.Ascending text types) (normal : ∀ type ∈ types, type.Normal) :
    (ofComponents types).Normal := by
  match types with
  | [] => exact absurd rfl nonempty
  | [type] => exact normal type (by simp)
  | first :: second :: rest =>
    exact all_union.mpr ⟨⟨by simp, flat, distinct, ascending⟩, normal⟩

/-- The union of normal types is normal. -/
theorem unionOf_normal {members : List Ty} (nonempty : members ≠ [])
    (normal : ∀ member ∈ members, member.Normal) : (unionOf members).Normal := by
  rw [unionOf_eq]
  refine ofComponents_normal ?_ ?_ (alternatives_distinct members)
    (alternatives_ascending members) ?_
  · obtain ⟨first, rest, rfl⟩ := List.exists_cons_of_ne_nil nonempty
    obtain ⟨type, component⟩ :=
      List.exists_mem_of_ne_nil _ (components_ne_nil (normal first (by simp)))
    exact List.ne_nil_of_mem (mem_alternatives.mpr ⟨first, by simp, component⟩)
  · intro type listed
    obtain ⟨member, isMember, component⟩ := mem_alternatives.mp listed
    exact components_flat (normal member isMember) type component
  · intro type listed
    obtain ⟨member, isMember, component⟩ := mem_alternatives.mp listed
    exact components_normal (normal member isMember) type component

theorem ofComponents_all (unions : ∀ members, holds (.union members)) {types : List Ty}
    (all : ∀ type ∈ types, type.All holds) : (ofComponents types).All holds := by
  match types with
  | [] => exact all_union.mpr ⟨unions [], all⟩
  | [type] => exact all type (by simp)
  | first :: second :: rest => exact all_union.mpr ⟨unions (first :: second :: rest), all⟩

/-- The union of types passes on a condition that no union breaks by itself. -/
theorem unionOf_all (unions : ∀ members, holds (.union members)) {members : List Ty}
    (all : ∀ member ∈ members, member.All holds) : (unionOf members).All holds := by
  rw [unionOf_eq]
  refine ofComponents_all unions fun type listed => ?_
  obtain ⟨member, isMember, component⟩ := mem_alternatives.mp listed
  exact (components_all unions).mpr (all member isMember) type component

theorem unionOf_legal {members : List Ty} (legal : ∀ member ∈ members, member.Legal) :
    (unionOf members).Legal :=
  unionOf_all (fun _ => trivial) legal

theorem unionOf_readable {members : List Ty} (nonempty : members ≠ [])
    (readable : ∀ member ∈ members, member.Readable) : (unionOf members).Readable :=
  ⟨unionOf_normal nonempty fun member listed => (readable member listed).normal,
    unionOf_legal fun member listed => (readable member listed).legal⟩

end TypedForms.Ty

namespace TypedForms

/-! ## The types of ascriptions -/

namespace Ascription

/-- What a node must satisfy to have a type in normal form. -/
def AdmissibleAt : Ascription → Prop
  | .named _ name => Token.LegalName name
  | .union _ members => members ≠ []
  | _ => True

/-- Every type variable is a legal name and no union is without members. -/
def Admissible (ascription : Ascription) : Prop :=
  ascription.All AdmissibleAt

theorem WellFormed.admissible {ascription : Ascription} (wellFormed : ascription.WellFormed) :
    ascription.Admissible := by
  intro node member
  have formed := wellFormed node member
  cases node with
  | union range members =>
    have several : 2 ≤ members.length := formed
    rintro rfl
    simp at several
  | _ => exact formed

end Ascription

namespace Ty

/-- An admissible ascription denotes a normal type with legal names. -/
theorem ofAscription_readable {ascription : Ascription} (admissible : ascription.Admissible) :
    (ofAscription ascription).Readable := by
  induction ascription with
  | number | boolean | string | void => exact atomic_readable rfl
  | named range name => exact readable_var.mpr ((Ascription.all_leaf rfl).mp admissible)
  | proc range params result paramsReadable resultReadable =>
    obtain ⟨_, paramsAdmissible, resultAdmissible⟩ := Ascription.all_proc.mp admissible
    rw [ofAscription, ofAscriptions_eq_map]
    refine readable_proc.mpr ⟨List.forall_mem_map.mpr ?_, resultReadable resultAdmissible⟩
    exact fun param member => paramsReadable param member (paramsAdmissible param member)
  | union range members membersReadable =>
    obtain ⟨nonempty, membersAdmissible⟩ := Ascription.all_union.mp admissible
    rw [ofAscription, ofAscriptions_eq_map]
    refine unionOf_readable (mt List.map_eq_nil_iff.mp nonempty) (List.forall_mem_map.mpr ?_)
    exact fun member listed => membersReadable member listed (membersAdmissible member listed)

/-- Places have no influence on the type. -/
theorem ofAscription_unplaced (ascription : Ascription) :
    ofAscription ascription.unplaced = ofAscription ascription := by
  induction ascription with
  | number | boolean | string | void | named => rfl
  | proc range params result paramsSame resultSame =>
    simp only [Ascription.unplaced, ofAscription, Ascription.unplacedAll_eq_map,
      ofAscriptions_eq_map, List.map_map, resultSame]
    congr 1
    exact List.map_congr_left paramsSame
  | union range members membersSame =>
    simp only [Ascription.unplaced, ofAscription, Ascription.unplacedAll_eq_map,
      ofAscriptions_eq_map, List.map_map]
    congr 1
    exact List.map_congr_left membersSame

theorem ofAscription_of_unplaced (same : left.unplaced = right.unplaced) :
    ofAscription left = ofAscription right := by
  rw [← ofAscription_unplaced left, same, ofAscription_unplaced right]

end Ty

end TypedForms
