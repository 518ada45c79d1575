import TypedForms.Proofs.UnionLaws

/-! The types of ascriptions are canonical: two ascriptions denote one type
exactly when they can be turned into each other by reordering the members of
unions, dropping repeated members, splicing nested unions and unwrapping unions
of one member, anywhere inside them.
-/
namespace TypedForms

namespace Ascription

/-- The least congruence that makes unions of ascriptions unions of sets, up to places. -/
inductive Equivalent : Ascription → Ascription → Prop where
  /-- Places do not matter. -/
  | places (same : left.unplaced = right.unplaced) : Equivalent left right
  | symm (turned : Equivalent left right) : Equivalent right left
  | trans (first : Equivalent left middle) (second : Equivalent middle right) :
      Equivalent left right
  /-- Inside a parameter of a procedure type. -/
  | param (inside : Equivalent left right) :
      Equivalent (.proc place (before ++ left :: after) result)
        (.proc place (before ++ right :: after) result)
  /-- Inside the result of a procedure type. -/
  | result (inside : Equivalent left right) :
      Equivalent (.proc place params left) (.proc place params right)
  /-- Inside a member of a union. -/
  | member (inside : Equivalent left right) :
      Equivalent (.union place (before ++ left :: after))
        (.union place (before ++ right :: after))
  /-- The order of members does not matter. -/
  | reordered (perm : members.Perm others) : Equivalent (.union place members) (.union place others)
  /-- A repeated member may be dropped. -/
  | repeated (again : type ∈ before ++ after) :
      Equivalent (.union place (before ++ type :: after)) (.union place (before ++ after))
  /-- The members of a nested union may stand in its place. -/
  | spliced : Equivalent (.union place (before ++ .union nestedPlace nested :: after))
      (.union place (before ++ (nested ++ after)))
  /-- A union of one member is the member. -/
  | single : Equivalent (.union place [type]) type

end Ascription

namespace Ty

/-! ## Equivalent ascriptions denote one type -/

private theorem unionOf_turned {left right : List Ty} (leftFlat : ∀ member ∈ left, member.Flat)
    (rightFlat : ∀ member ∈ right, member.Flat)
    (same : ∀ type, type ∈ left.flatMap components ↔ type ∈ right.flatMap components)
    (settled : (unionOf left).Settled ∨ (unionOf right).Settled) :
    unionOf left = unionOf right := by
  rcases settled with settled | settled
  · exact unionOf_congr ((unionOf_settled leftFlat).mp settled) same
  · exact (unionOf_congr ((unionOf_settled rightFlat).mp settled) fun type => (same type).symm).symm

private theorem ofAscription_flat (members : List Ascription) :
    ∀ type ∈ members.map ofAscription, type.Flat :=
  List.forall_mem_map.mpr fun member _ => (ofAscription_collected member).flat

private theorem settled_proc (settled : (proc params result).Settled) :
    (∀ param ∈ params, param.Settled) ∧ result.Settled := by
  have readable := settled (proc params result) (by simp [components])
  obtain ⟨paramsReadable, resultReadable⟩ := readable_proc.mp readable
  exact ⟨fun param member => (paramsReadable param member).settled, resultReadable.settled⟩

private theorem mem_of_repeated {before after : List α} (again : item ∈ before ++ after)
    {other : α} : other ∈ before ++ item :: after ↔ other ∈ before ++ after := by
  rw [List.perm_middle.mem_iff, List.mem_cons, or_iff_right_of_imp]
  rintro rfl
  exact again

/-- Equivalent ascriptions denote the same type as soon as one of them denotes a settled one.  Both
sides are asked for, because only the ends of a chain of steps are known to be settled. -/
theorem ofAscription_equivalent (equivalent : Ascription.Equivalent left right)
    (settled : (ofAscription left).Settled ∨ (ofAscription right).Settled) :
    ofAscription left = ofAscription right := by
  induction equivalent with
  | places same => exact ofAscription_of_unplaced same
  | symm _ ih => exact (ih settled.symm).symm
  | trans _ _ first second =>
    rcases settled with settled | settled
    · have same := first (.inl settled)
      exact same.trans (second (.inl (same ▸ settled)))
    · have same := second (.inr settled)
      exact (first (.inr (same ▸ settled))).trans same
  | param _ ih =>
    simp only [ofAscription, ofAscriptions_eq_map, List.map_append, List.map_cons] at settled ⊢
    have same := ih (settled.imp (fun settled => (settled_proc settled).1 _ (by simp))
      (fun settled => (settled_proc settled).1 _ (by simp)))
    rw [same]
  | result _ ih =>
    simp only [ofAscription] at settled ⊢
    rw [ih (settled.imp (fun settled => (settled_proc settled).2)
      (fun settled => (settled_proc settled).2))]
  | member _ ih =>
    simp only [ofAscription, ofAscriptions_eq_map] at settled ⊢
    rw [unionOf_settled (ofAscription_flat _), unionOf_settled (ofAscription_flat _)] at settled
    simp only [List.map_append, List.map_cons] at settled ⊢
    rw [ih (settled.imp (fun settled => settled _ (by simp)) (fun settled => settled _ (by simp)))]
  | reordered perm =>
    simp only [ofAscription, ofAscriptions_eq_map] at settled ⊢
    refine unionOf_turned (ofAscription_flat _) (ofAscription_flat _) (fun type => ?_) settled
    exact ((perm.map ofAscription).flatMap_right components).mem_iff
  | repeated again =>
    simp only [ofAscription, ofAscriptions_eq_map] at settled ⊢
    refine unionOf_turned (ofAscription_flat _) (ofAscription_flat _) (fun component => ?_) settled
    simp only [List.mem_flatMap, List.mem_map, mem_of_repeated again]
  | spliced =>
    simp only [ofAscription, ofAscriptions_eq_map] at settled ⊢
    refine unionOf_turned (ofAscription_flat _) (ofAscription_flat _) (fun component => ?_) settled
    simp only [List.map_append, List.map_cons, List.flatMap_append, List.flatMap_cons,
      List.mem_append, ofAscription, ofAscriptions_eq_map,
      mem_components_unionOf (ofAscription_flat _), List.mem_flatMap]
  | single =>
    simp only [ofAscription, ofAscriptions_eq_map, List.map_cons, List.map_nil]
    exact unionOf_single (ofAscription_collected _)

end Ty

/-! ## What an ascription is equivalent to -/

namespace Ascription.Equivalent

theorem refl (type : Ascription) : Equivalent type type :=
  places rfl

/-- What may be replaced at one position of a list may be replaced at all of them, one after the
other. -/
private theorem all_positions {build : List Ascription → Ascription}
    (one : ∀ {before left right after}, Equivalent left right →
      Equivalent (build (before ++ left :: after)) (build (before ++ right :: after)))
    {old new : α → Ascription} {items : List α}
    (each : ∀ item ∈ items, Equivalent (old item) (new item)) (before : List Ascription) :
    Equivalent (build (before ++ items.map old)) (build (before ++ items.map new)) := by
  induction items generalizing before with
  | nil => exact refl _
  | cons item items ih =>
    obtain ⟨first, later⟩ := List.forall_mem_cons.mp each
    refine (one first).trans ?_
    simpa using ih later (before ++ [new item])

theorem params {old new : α → Ascription} {items : List α}
    (each : ∀ item ∈ items, Equivalent (old item) (new item)) :
    Equivalent (.proc place (items.map old) target) (.proc place (items.map new) target) :=
  @all_positions _ (fun types => .proc place types target) param _ _ _ each []

theorem members {old new : α → Ascription} {items : List α}
    (each : ∀ item ∈ items, Equivalent (old item) (new item)) :
    Equivalent (.union place (items.map old)) (.union place (items.map new)) :=
  @all_positions _ (.union place) member _ _ _ each []

/-- Nested unions are spliced one after the other. -/
private theorem splice_from (groups : List (List Ascription)) (before : List Ascription) :
    Equivalent (.union place (before ++ groups.map (.union nestedPlace)))
      (.union place (before ++ groups.flatten)) := by
  induction groups generalizing before with
  | nil => exact refl _
  | cons group groups ih =>
    refine spliced.trans ?_
    simpa using ih (before ++ group)

theorem splice (groups : List (List Ascription)) :
    Equivalent (.union place (groups.map (.union nestedPlace))) (.union place groups.flatten) :=
  splice_from groups []

private theorem drop_repeated {extra base : List Ascription}
    (again : ∀ type ∈ extra, type ∈ base) :
    Equivalent (.union place (extra ++ base)) (.union place base) := by
  induction extra with
  | nil => exact refl _
  | cons type extra ih =>
    obtain ⟨first, later⟩ := List.forall_mem_cons.mp again
    have dropped : Equivalent (.union place ([] ++ type :: (extra ++ base)))
        (.union place ([] ++ (extra ++ base))) :=
      repeated (List.mem_append_right _ (List.mem_append_right _ first))
    exact dropped.trans (ih later)

/-- Unions with the same members are equivalent, however often and where the members stand. -/
theorem same_members {left right : List Ascription} (same : ∀ type, type ∈ left ↔ type ∈ right) :
    Equivalent (.union place left) (.union place right) := by
  have grown : Equivalent (.union place (right ++ left)) (.union place left) :=
    drop_repeated fun type member => (same type).mpr member
  have shrunk : Equivalent (.union place (left ++ right)) (.union place right) :=
    drop_repeated fun type member => (same type).mp member
  exact grown.symm.trans ((reordered List.perm_append_comm).trans shrunk)

end Ascription.Equivalent

namespace Ty

open Ascription (Equivalent)

/-- The nested unions that a union is written as are equivalent to one union. -/
theorem writtenUnion_equivalent (members : List Ty) :
    Equivalent (writtenUnion members) (.union .origin (members.map written)) := by
  match members with
  | [] => exact .refl _
  | [type] => exact .symm .single
  | type :: next :: rest =>
    have inner := writtenUnion_equivalent (next :: rest)
    have opened : Equivalent (.union .origin ([type.written] ++ [writtenUnion (next :: rest)]))
        (.union .origin ([type.written] ++ [.union .origin ((next :: rest).map written)])) :=
      .member inner
    refine opened.trans (.trans .spliced ?_)
    simpa using Equivalent.refl _

theorem written_ofComponents (types : List Ty) :
    Equivalent (ofComponents types).written (.union .origin (types.map written)) := by
  match types with
  | [] => exact .refl _
  | [type] => exact .symm .single
  | _ :: _ :: _ => exact writtenUnion_equivalent _

theorem written_components (type : Ty) :
    Equivalent type.written (.union .origin (type.components.map written)) := by
  cases type with
  | union members => exact writtenUnion_equivalent members
  | _ => exact .symm .single

/-- The union of what types are written as is equivalent to what their union is written as: sorting
and removing repetitions keeps the members. -/
theorem written_unionOf (types : List Ty) :
    Equivalent (.union .origin (types.map written)) (unionOf types).written := by
  have opened : Equivalent (.union .origin (types.map written))
      (.union .origin (types.map fun type => .union .origin (type.components.map written))) :=
    Equivalent.members fun type _ => written_components type
  have spliced := @Equivalent.splice .origin .origin
    (types.map fun type => type.components.map written)
  rw [List.map_map] at spliced
  have collected : (types.map fun type => type.components.map written).flatten =
      (types.flatMap components).map written := by
    rw [List.map_flatMap, List.flatMap_def]
  rw [collected] at spliced
  have sorted : Equivalent (.union .origin ((types.flatMap components).map written))
      (.union .origin ((alternatives types).map written)) :=
    Equivalent.same_members fun ascription => by
      simp only [List.mem_map, List.mem_flatMap, mem_alternatives]
  exact opened.trans (spliced.trans (sorted.trans (written_ofComponents _).symm))

/-- Every ascription is equivalent to the one that its type is written as. -/
theorem equivalent_written (ascription : Ascription) :
    Equivalent ascription (ofAscription ascription).written := by
  induction ascription with
  | number | boolean | string | void | named => exact .places rfl
  | proc range params result paramsWritten resultWritten =>
    have inParams : Equivalent (.proc range (params.map id) result)
        (.proc range (params.map fun param => (ofAscription param).written) result) :=
      Equivalent.params paramsWritten
    rw [List.map_id] at inParams
    rw [ofAscription, written, writtenAll_eq_map, ofAscriptions_eq_map, List.map_map]
    exact inParams.trans (.trans (.result resultWritten) (.places (by simp [Ascription.unplaced])))
  | union range members membersWritten =>
    have inMembers : Equivalent (.union range (members.map id))
        (.union range (members.map fun member => (ofAscription member).written)) :=
      Equivalent.members membersWritten
    rw [List.map_id] at inMembers
    have unions := written_unionOf (members.map ofAscription)
    rw [List.map_map] at unions
    rw [ofAscription, ofAscriptions_eq_map]
    exact inMembers.trans (.trans (.places (by simp [Ascription.unplaced])) unions)

/-- Ascriptions denote one type exactly when they are equivalent.  So joining types is commutative,
associative and idempotent, and a union depends only on the alternatives of its members. -/
theorem ascribed_types_canonical :
    (∀ left right : Ascription, left.Admissible → right.Admissible →
      (ofAscription left = ofAscription right ↔ left.Equivalent right)) ∧
    (∀ left right : Ty, left.Readable → right.Readable → join left right = join right left) ∧
    (∀ first second third : Ty, first.Readable → second.Readable → third.Readable →
      join (join first second) third = join first (join second third)) ∧
    (∀ type : Ty, type.Normal → join type type = type) ∧
    (∀ left right : List Ty, (∀ member ∈ left, member.Readable) →
      (∀ type, type ∈ left.flatMap components ↔ type ∈ right.flatMap components) →
      unionOf left = unionOf right) := by
  refine ⟨fun left right leftAdmissible rightAdmissible => ⟨fun same => ?_, fun equivalent => ?_⟩,
    fun _ _ => join_comm, fun _ _ _ => join_assoc, fun _ => join_self, ?_⟩
  · have written := (equivalent_written right).symm
    rw [← same] at written
    exact (equivalent_written left).trans written
  · exact ofAscription_equivalent equivalent (.inl (ofAscription_readable leftAdmissible).settled)
  · intro left right readable same
    exact unionOf_congr (fun member listed => (readable member listed).settled) same

/-- A nested union with a repeated member is equivalent to the flat one, and not to a member. -/
theorem nested_union_canonical :
    let nested : Ascription :=
      .union .origin [.union .origin [.number .origin, .named .origin "a"], .number .origin]
    let flat : Ascription := .union .origin [.named .origin "a", .number .origin]
    nested.Admissible ∧ flat.Admissible ∧ nested.Equivalent flat ∧
      ¬ flat.Equivalent (.number .origin) := by
  intro nested flat
  have legal : Token.LegalName "a" := by decide
  have number : (Ascription.number .origin).Admissible := (Ascription.all_leaf rfl).mpr trivial
  have flatAdmissible : flat.Admissible := by
    simp [flat, Ascription.Admissible, Ascription.All, Ascription.nodes, Ascription.AdmissibleAt,
      legal]
  have nestedAdmissible : nested.Admissible := by
    simp [nested, Ascription.Admissible, Ascription.All, Ascription.nodes, Ascription.AdmissibleAt,
      legal]
  have canonical := ascribed_types_canonical.1
  exact ⟨nestedAdmissible, flatAdmissible,
    (canonical nested flat nestedAdmissible flatAdmissible).mp (by decide),
    fun equivalent =>
      absurd ((canonical flat (.number .origin) flatAdmissible number).mpr equivalent) (by decide)⟩

end Ty

end TypedForms
