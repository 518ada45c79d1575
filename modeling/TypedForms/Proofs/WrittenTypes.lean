import TypedForms.Checker
import TypedForms.Proofs.NormalTypes
import TypedForms.Proofs.TreeRoundTrip

/-! The text of a type is the text of an ascription that denotes the type.

The ascription nests the union of several types to the right, two members to
each union, as the text does.  For a normal type with legal names it is well
formed, so it is read back, and reading it flattens and sorts the members into
the union that was written.
-/
namespace TypedForms.Ty

mutual

/-- The ascription that a type is written as. -/
def written : Ty → Ascription
  | .number => .number .origin
  | .boolean => .boolean .origin
  | .string => .string .origin
  | .void => .void .origin
  | .var name => .named .origin name
  | .proc params result => .proc .origin (writtenAll params) result.written
  | .union members => writtenUnion members

/-- The ascriptions of a list of types. -/
def writtenAll : List Ty → List Ascription
  | [] => []
  | type :: rest => type.written :: writtenAll rest

/-- The ascription of a union, as nested unions of two. -/
def writtenUnion : List Ty → Ascription
  | [] => .union .origin []
  | [type] => type.written
  | type :: next :: rest => .union .origin [type.written, writtenUnion (next :: rest)]

end

theorem writtenAll_eq_map (list : List Ty) : writtenAll list = list.map written := by
  induction list with
  | nil => rfl
  | cons first rest ih => simp [writtenAll, ih]

/-! ## The text -/

private theorem writtenUnion_text (nonempty : members ≠ [])
    (each : ∀ member ∈ members, member.written.text = member.text) :
    (writtenUnion members).text = unionText members := by
  match members with
  | [] => exact absurd rfl nonempty
  | [type] => simpa [writtenUnion, unionText] using each type (by simp)
  | type :: next :: rest =>
    have later := writtenUnion_text (by simp)
      fun member listed => each member (List.mem_cons_of_mem type listed)
    simp [writtenUnion, unionText, Ascription.text, Ascription.texts, each type (by simp), later,
      String.intercalate_cons_cons, String.append_assoc]

theorem written_text {type : Ty} (normal : type.Normal) : type.written.text = type.text := by
  induction type with
  | number | boolean | string | void | var => rfl
  | proc params result paramsText resultText =>
    obtain ⟨_, paramsNormal, resultNormal⟩ := all_proc.mp normal
    have each := fun param member => paramsText param member (paramsNormal param member)
    cases params with
    | nil => simp [written, writtenAll, text, Ascription.text, resultText resultNormal]
    | cons param params =>
      obtain ⟨first, later⟩ := List.forall_mem_cons.mp each
      have texts : (params.map written).map Ascription.text = params.map text := by
        rw [List.map_map]
        exact List.map_congr_left later
      simp only [written, writtenAll, writtenAll_eq_map, text, Ascription.text,
        Ascription.texts_eq_map, texts_eq_map, texts, first, resultText resultNormal]
  | union members membersText =>
    obtain ⟨union, membersNormal⟩ := all_union.mp normal
    exact writtenUnion_text union.ne_nil
      fun member listed => membersText member listed (membersNormal member listed)

/-! ## Well-formedness -/

private theorem writtenUnion_wellFormed (nonempty : members ≠ [])
    (each : ∀ member ∈ members, member.written.WellFormed) :
    (writtenUnion members).WellFormed := by
  match members with
  | [] => exact absurd rfl nonempty
  | [type] => exact each type (by simp)
  | type :: next :: rest =>
    have later := writtenUnion_wellFormed (by simp)
      fun member listed => each member (List.mem_cons_of_mem type listed)
    exact Ascription.all_union.mpr ⟨Nat.le_refl 2, by simpa using ⟨each type (by simp), later⟩⟩

theorem written_wellFormed {type : Ty} (normal : type.Normal) (legal : type.Legal) :
    type.written.WellFormed := by
  induction type with
  | number | boolean | string | void =>
    exact (Ascription.all_leaf rfl).mpr trivial
  | var name => exact (Ascription.all_leaf rfl).mpr ((all_leaf rfl).mp legal)
  | proc params result paramsFormed resultFormed =>
    obtain ⟨_, paramsNormal, resultNormal⟩ := all_proc.mp normal
    obtain ⟨_, paramsLegal, resultLegal⟩ := all_proc.mp legal
    rw [written, writtenAll_eq_map]
    refine Ascription.all_proc.mpr ⟨trivial, ?_, resultFormed resultNormal resultLegal⟩
    exact List.forall_mem_map.mpr fun param member =>
      paramsFormed param member (paramsNormal param member) (paramsLegal param member)
  | union members membersFormed =>
    obtain ⟨union, membersNormal⟩ := all_union.mp normal
    exact writtenUnion_wellFormed union.ne_nil fun member listed =>
      membersFormed member listed (membersNormal member listed) (legal_union.mp legal member listed)

/-! ## The type denoted -/

/-- The inner union is spliced, and its members keep their order behind the first. -/
private theorem ofAscription_writtenUnion {members : List Ty} (nonempty : members ≠ [])
    (flat : ∀ member ∈ members, member.tag ≠ .union) (distinct : members.Nodup)
    (ascending : Text.Ascending text members)
    (each : ∀ member ∈ members, ofAscription member.written = member) :
    ofAscription (writtenUnion members) = ofComponents members := by
  match members with
  | [] => exact absurd rfl nonempty
  | [type] => exact each type (by simp)
  | type :: next :: rest =>
    obtain ⟨typeFlat, laterFlat⟩ := List.forall_mem_cons.mp flat
    obtain ⟨typeSame, laterSame⟩ := List.forall_mem_cons.mp each
    have later := ofAscription_writtenUnion (by simp) laterFlat (List.nodup_cons.mp distinct).2
      (List.pairwise_cons.mp ascending).2 laterSame
    have spliced : [type, ofComponents (next :: rest)].flatMap components =
        type :: next :: rest := by
      simp [components_of_flat typeFlat, components_ofComponents laterFlat]
    simp only [writtenUnion, ofAscription, ofAscriptions, typeSame, later]
    rw [unionOf_eq, alternatives_of_components spliced distinct ascending]

/-- Reading what a normal type is written as gives the type. -/
theorem ofAscription_written {type : Ty} (normal : type.Normal) :
    ofAscription type.written = type := by
  induction type with
  | number | boolean | string | void | var => rfl
  | proc params result paramsSame resultSame =>
    obtain ⟨_, paramsNormal, resultNormal⟩ := all_proc.mp normal
    have params : (params.map written).map ofAscription = params := by
      rw [List.map_map]
      refine (List.map_congr_left fun param member => ?_).trans (List.map_id params)
      exact paramsSame param member (paramsNormal param member)
    rw [written, ofAscription, writtenAll_eq_map, ofAscriptions_eq_map, params,
      resultSame resultNormal]
  | union members membersSame =>
    obtain ⟨union, membersNormal⟩ := all_union.mp normal
    rw [written, ofAscription_writtenUnion union.ne_nil union.flat union.distinct union.ascending
      fun member listed => membersSame member listed (membersNormal member listed)]
    exact ofComponents_several union.several

end TypedForms.Ty
