import TypedForms.Proofs.TypeRoundTrip

/-! The laws of unions.

The components of a union are sorted by texts that are all different, so they
depend only on which alternatives there are: not on their order, on how often
one occurs, or on the unions that they came in.
-/
namespace TypedForms.Ty

/-- Types whose components are no unions themselves. -/
def Flat (type : Ty) : Prop :=
  ∀ component ∈ type.components, component.tag ≠ .union

/-- Types whose components can be told apart by their texts. -/
def Settled (type : Ty) : Prop :=
  ∀ component ∈ type.components, component.Readable

theorem Readable.flat {type : Ty} (readable : type.Readable) : type.Flat :=
  components_flat readable.normal

theorem Readable.settled {type : Ty} (readable : type.Readable) : type.Settled :=
  fun component member => ⟨components_normal readable.normal component member,
    components_legal.mpr readable.legal component member⟩

theorem components_unionOf (flat : ∀ member ∈ members, member.Flat) :
    (unionOf members).components = alternatives members := by
  rw [unionOf_eq, components_ofComponents]
  intro component listed
  obtain ⟨member, isMember, inside⟩ := mem_alternatives.mp listed
  exact flat member isMember component inside

theorem mem_components_unionOf (flat : ∀ member ∈ members, member.Flat) :
    type ∈ (unionOf members).components ↔ ∃ member ∈ members, type ∈ member.components := by
  rw [components_unionOf flat, mem_alternatives]

theorem unionOf_flat (flat : ∀ member ∈ members, member.Flat) : (unionOf members).Flat := by
  intro component listed
  obtain ⟨member, isMember, inside⟩ := (mem_components_unionOf flat).mp listed
  exact flat member isMember component inside

theorem unionOf_settled (flat : ∀ member ∈ members, member.Flat) :
    (unionOf members).Settled ↔ ∀ member ∈ members, member.Settled := by
  constructor
  · intro settled member isMember component inside
    exact settled component ((mem_components_unionOf flat).mpr ⟨member, isMember, inside⟩)
  · intro settled component listed
    obtain ⟨member, isMember, inside⟩ := (mem_components_unionOf flat).mp listed
    exact settled member isMember component inside

/-- Lists of types with the same alternatives have the same union. -/
theorem unionOf_congr {left right : List Ty} (settled : ∀ member ∈ left, member.Settled)
    (same : ∀ type, type ∈ left.flatMap components ↔ type ∈ right.flatMap components) :
    unionOf left = unionOf right := by
  have sameAlternatives : ∀ type, type ∈ alternatives left ↔ type ∈ alternatives right := by
    simpa only [mem_alternatives, List.mem_flatMap] using same
  have readable : ∀ type ∈ alternatives left, type.Readable := by
    intro type listed
    obtain ⟨member, isMember, inside⟩ := mem_alternatives.mp listed
    exact settled member isMember type inside
  rw [unionOf_eq, unionOf_eq]
  congr 1
  refine Text.ascending_unique (fun type listed other otherListed sameText => ?_)
    (alternatives_ascending left) (alternatives_ascending right) ?_
  · have otherReadable := readable other ((sameAlternatives other).mpr otherListed)
    exact eq_of_text (readable type listed) otherReadable sameText
  · exact (List.perm_ext_iff_of_nodup (alternatives_distinct left)
      (alternatives_distinct right)).mpr sameAlternatives

/-! ## The union of one type -/

/-- The type is the union of its components, which are no unions and stand in order without
repetition. -/
structure Collected (type : Ty) : Prop where
  whole : ofComponents type.components = type
  flat : type.Flat
  distinct : type.components.Nodup
  ascending : Text.Ascending text type.components

theorem collected_of_tag {type : Ty} (single : type.tag ≠ .union) : type.Collected := by
  have alone := components_of_flat single
  refine ⟨?_, ?_, ?_, ?_⟩
  · rw [alone]
    rfl
  · simpa [Flat, alone] using single
  · simp [alone]
  · rw [alone]
    exact List.pairwise_singleton _ _

theorem unionOf_collected (flat : ∀ member ∈ members, member.Flat) :
    (unionOf members).Collected := by
  have listed := components_unionOf flat
  refine ⟨?_, unionOf_flat flat, ?_, ?_⟩
  · rw [listed, unionOf_eq]
  · rw [listed]
    exact alternatives_distinct members
  · rw [listed]
    exact alternatives_ascending members

theorem Normal.collected {type : Ty} (normal : type.Normal) : type.Collected := by
  cases type with
  | union members =>
    obtain ⟨⟨several, flat, distinct, ascending⟩, _⟩ := all_union.mp normal
    exact ⟨ofComponents_several several, flat, distinct, ascending⟩
  | _ => exact collected_of_tag (by simp [tag])

/-- Every ascription denotes the union of its components. -/
theorem ofAscription_collected (ascription : Ascription) : (ofAscription ascription).Collected := by
  induction ascription with
  | union range members membersCollected =>
    rw [ofAscription, ofAscriptions_eq_map]
    exact unionOf_collected
      (List.forall_mem_map.mpr fun member listed => (membersCollected member listed).flat)
  | _ => exact collected_of_tag (by simp [ofAscription, tag])

theorem unionOf_single {type : Ty} (collected : type.Collected) : unionOf [type] = type := by
  rw [unionOf_eq, alternatives_of_components (by simp) collected.distinct collected.ascending,
    collected.whole]

/-! ## Joining two types -/

theorem join_comm {left right : Ty} (leftReadable : left.Readable)
    (rightReadable : right.Readable) : join left right = join right left := by
  refine unionOf_congr (by simp [leftReadable.settled, rightReadable.settled]) fun type => ?_
  simp [or_comm]

theorem mem_components_join {left right : Ty} (leftFlat : left.Flat) (rightFlat : right.Flat) :
    type ∈ (join left right).components ↔ type ∈ left.components ∨ type ∈ right.components := by
  rw [join, mem_components_unionOf (by simp [leftFlat, rightFlat])]
  simp

theorem join_assoc {first second third : Ty} (firstReadable : first.Readable)
    (secondReadable : second.Readable) (thirdReadable : third.Readable) :
    join (join first second) third = join first (join second third) := by
  have settled : (join first second).Settled :=
    (unionOf_settled (by simp [firstReadable.flat, secondReadable.flat])).mpr
      (by simp [firstReadable.settled, secondReadable.settled])
  refine unionOf_congr (by simp [settled, thirdReadable.settled]) fun type => ?_
  simp [mem_components_join firstReadable.flat secondReadable.flat,
    mem_components_join secondReadable.flat thirdReadable.flat, or_assoc]

/-- Joining a type with itself changes nothing, whatever its names are. -/
theorem join_self {type : Ty} (normal : type.Normal) : join type type = type := by
  have collected := normal.collected
  have noneLeft : type.components.removeAll type.components = [] :=
    List.filter_eq_nil_iff.mpr (by simp)
  have once : alternatives [type, type] = alternatives [type] := by
    simp [alternatives, List.eraseDups_append, noneLeft]
  rw [join, unionOf_eq, once, ← unionOf_eq, unionOf_single collected]

end TypedForms.Ty
