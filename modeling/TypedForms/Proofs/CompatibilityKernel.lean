import TypedForms.Proofs.CompatibleRows

/-! Types that compatibility does not tell apart.

Two types are alike when they differ only inside unions, and there only in what
is not a tag of a component.  Alike types give the same answers on either side
of every comparison, and types that can stand for each other are alike.
-/
namespace TypedForms.Ty

/-- The least congruence that makes unions with the same tags alike.  Inside unions it needs no
rule of its own, because alike types have the same tag. -/
inductive Alike : Ty → Ty → Prop where
  | refl : Alike type type
  | symm (turned : Alike left right) : Alike right left
  | trans (first : Alike left middle) (second : Alike middle right) : Alike left right
  /-- Inside a parameter of a procedure type. -/
  | param (inside : Alike left right) :
      Alike (.proc (before ++ left :: after) result) (.proc (before ++ right :: after) result)
  /-- Inside the result of a procedure type. -/
  | result (inside : Alike left right) : Alike (.proc params left) (.proc params right)
  /-- Unions whose components have the same set of tags. -/
  | tags (same : ∀ tag, tag ∈ members.map Ty.tag ↔ tag ∈ others.map Ty.tag) :
      Alike (.union members) (.union others)

namespace Alike

theorem tag_eq (alike : Alike left right) : left.tag = right.tag := by
  induction alike with
  | refl | param | result | tags => rfl
  | symm _ ih => exact ih.symm
  | trans _ _ first second => exact first.trans second

theorem isProc_eq (alike : Alike left right) : left.isProc = right.isProc := by
  have procTag : ∀ type : Ty, type.isProc = (type.tag == .proc) := by
    intro type
    cases type <;> rfl
  rw [procTag, procTag, alike.tag_eq]

private theorem params_from (before : List Ty) (alike : List.Forall₂ Alike old new) :
    Alike (.proc (before ++ old) target) (.proc (before ++ new) target) := by
  induction alike generalizing before with
  | nil => exact .refl
  | @cons left right old new first _ later =>
    refine (param first).trans ?_
    simpa using later (before ++ [right])

/-- What may be replaced in one parameter may be replaced in all of them, one after the other. -/
theorem params (alike : List.Forall₂ Alike old new) : Alike (.proc old target) (.proc new target) :=
  params_from [] alike

end Alike

/-! ## Alike types give the same answers -/

/-- The two types can stand for the same types, and the same types can stand for them. -/
structure Twins (left right : Ty) : Prop where
  forward : ∀ other, compatible left other = compatible right other
  backward : ∀ other, compatible other left = compatible other right

/-- Replacing one item by another that is related alike keeps lists related. -/
private theorem forall₂_replaced {related : α → β → Prop} {old new : α}
    (same : ∀ item, related old item ↔ related new item) :
    List.Forall₂ related (before ++ old :: after) items ↔
      List.Forall₂ related (before ++ new :: after) items := by
  induction before generalizing items with
  | nil => cases items <;> simp [same]
  | cons head before ih => cases items <;> simp [ih]

private theorem forall₂_replaced_right {related : β → α → Prop} {old new : α}
    (same : ∀ item, related item old ↔ related item new) :
    List.Forall₂ related items (before ++ old :: after) ↔
      List.Forall₂ related items (before ++ new :: after) := by
  have turned := @forall₂_replaced α β before after items (flip related) old new same
  exact ⟨fun pairs => (turned.mp pairs.flip).flip, fun pairs => (turned.mpr pairs.flip).flip⟩

/-- A list with a known item is a list of one only when it is that item alone. -/
private theorem alone_iff {holds : α → Prop} {item : α} :
    (∃ only, before ++ item :: after = [only] ∧ holds only) ↔
      before = [] ∧ after = [] ∧ holds item := by
  cases before with
  | nil =>
    constructor
    · rintro ⟨only, same, held⟩
      cases same
      exact ⟨rfl, rfl, held⟩
    · rintro ⟨_, rfl, held⟩
      exact ⟨item, rfl, held⟩
  | cons head before => simp

private theorem twins_param (alike : left.Alike right) (twins : Twins left right) :
    Twins (.proc (before ++ left :: after) result) (.proc (before ++ right :: after) result) := by
  constructor
  · intro other
    apply Bool.eq_iff_iff.mpr
    simp only [compatible_proc_left]
    refine exists_congr fun others => exists_congr fun target => and_congr_right fun _ =>
      and_congr_right fun _ => forall₂_replaced_right fun item => ?_
    rw [twins.backward]
  · intro other
    apply Bool.eq_iff_iff.mpr
    cases other with
    | proc params target =>
      simp only [compatible_procs]
      refine and_congr_right fun _ => forall₂_replaced fun item => ?_
      rw [twins.forward]
    | union members =>
      simp only [compatible_union_proc, alone_iff, alike.isProc_eq, twins.backward]
    | var name => simp [compatible_var_left]
    | number | boolean | string | void =>
      rw [compatible_atomic_proc rfl, compatible_atomic_proc rfl, alone_iff, alone_iff,
        twins.backward]

private theorem twins_result (twins : Twins left right) :
    Twins (.proc params left) (.proc params right) := by
  constructor
  · intro other
    apply Bool.eq_iff_iff.mpr
    simp only [compatible_proc_left, twins.forward]
  · intro other
    apply Bool.eq_iff_iff.mpr
    cases other with
    | proc params target => simp only [compatible_procs, twins.backward]
    | union members => simp only [compatible_union_proc]
    | var name => simp [compatible_var_left]
    | number | boolean | string | void =>
      rw [compatible_atomic_proc rfl, compatible_atomic_proc rfl]

/-- A union is compared by its tags, on the left one procedure deep: a parameter is looked into only
when it is no procedure. -/
private theorem twins_tags {members others : List Ty}
    (same : ∀ tag, tag ∈ members.map Ty.tag ↔ tag ∈ others.map Ty.tag) :
    Twins (.union members) (.union others) := by
  constructor
  · have shallow : ∀ other : Ty, other.isProc = false →
        (compatible (.union members) other = true ↔ compatible (.union others) other = true) := by
      intro other noProc
      cases other with
      | number | boolean | string | void =>
        rw [compatible_union_atomic rfl, compatible_union_atomic rfl, same]
      | var name => rw [not_compatible_union_var, not_compatible_union_var]
      | union target => simp only [compatible_unions, List.subset_def, same]
      | proc => cases noProc
    intro other
    apply Bool.eq_iff_iff.mpr
    cases other with
    | proc params result =>
      simp only [compatible_union_proc]
      exact exists_congr fun param => and_congr_right fun _ => and_congr_right (shallow param)
    | number | boolean | string | void | var | union => exact shallow _ rfl
  · intro other
    apply Bool.eq_iff_iff.mpr
    simp only [compatible_union_right, List.subset_def, same]

theorem Alike.twins (alike : left.Alike right) : Twins left right := by
  induction alike with
  | refl => exact ⟨fun _ => rfl, fun _ => rfl⟩
  | symm _ ih => exact ⟨fun other => (ih.forward other).symm, fun other => (ih.backward other).symm⟩
  | trans _ _ first second =>
    exact ⟨fun other => (first.forward other).trans (second.forward other),
      fun other => (first.backward other).trans (second.backward other)⟩
  | param alike ih => exact twins_param alike ih
  | result _ ih => exact twins_result ih
  | tags same => exact twins_tags same

/-! ## Types that can stand for each other -/

theorem compatible_refl (type : Ty) : compatible type type = true := by
  induction type with
  | number | boolean | string | void => exact (compatible_atomic_left rfl).mpr (.inl rfl)
  | var name => exact compatible_var_left.mpr rfl
  | union members _ => exact compatible_unions.mpr (List.Subset.refl _)
  | proc params result paramsRefl resultRefl =>
    exact compatible_procs.mpr ⟨resultRefl, List.forall₂_same.mpr paramsRefl⟩

/-- Parameters that stand for each other pair by pair are alike pair by pair. -/
private theorem params_alike {params others : List Ty}
    (forward : List.Forall₂ (fun param other => compatible param other = true) params others)
    (backward : List.Forall₂ (fun param other => compatible param other = true) others params)
    (each : ∀ param ∈ params, ∀ other, compatible param other = true →
      compatible other param = true → param.Alike other) :
    List.Forall₂ Alike params others := by
  induction forward with
  | nil => exact .nil
  | cons first _ ih =>
    obtain ⟨firstBack, laterBack⟩ := List.forall₂_cons.mp backward
    obtain ⟨firstAlike, laterAlike⟩ := List.forall_mem_cons.mp each
    exact .cons (firstAlike _ first firstBack) (ih laterBack laterAlike)

/-- None of the rows that hold in one direction only can hold in both. -/
theorem alike_of_compatible (forward : compatible left right = true)
    (backward : compatible right left = true) : left.Alike right := by
  induction left generalizing right with
  | number | boolean | string | void =>
    rcases (compatible_atomic_left rfl).mp forward with rfl | ⟨param, result, rfl, _⟩
    · exact .refl
    · obtain ⟨_, _, impossible, _⟩ := compatible_proc_left.mp backward
      cases impossible
  | var name =>
    obtain rfl := compatible_var_left.mp forward
    exact .refl
  | union members _ =>
    obtain ⟨others, rfl, inside⟩ := compatible_union_right.mp backward
    have outside := compatible_unions.mp forward
    exact .tags fun tag => ⟨fun member => outside member, fun member => inside member⟩
  | proc params result paramsAlike resultAlike =>
    obtain ⟨others, target, rfl, results, pairs⟩ := compatible_proc_left.mp forward
    obtain ⟨resultsBack, pairsBack⟩ := compatible_procs.mp backward
    have alikeParams : List.Forall₂ Alike params others :=
      params_alike pairsBack pairs fun param member other forth back =>
        paramsAlike param member forth back
    exact (Alike.params alikeParams).trans (.result (resultAlike results resultsBack))

/-- Alike types give the same answers on both sides, two types can stand for each other exactly
when they are alike, and every type can stand for itself. -/
theorem compatibility_kernel :
    (∀ left left' right right' : Ty, left.Alike left' → right.Alike right' →
      compatible left right = compatible left' right') ∧
    (∀ left right : Ty, compatible left right = true ∧ compatible right left = true ↔
      left.Alike right) ∧
    ∀ type : Ty, compatible type type = true := by
  refine ⟨?_, ?_, compatible_refl⟩
  · intro left left' right right' leftAlike rightAlike
    rw [leftAlike.twins.forward, rightAlike.twins.backward]
  · intro left right
    constructor
    · rintro ⟨forward, backward⟩
      exact alike_of_compatible forward backward
    · intro alike
      constructor
      · rw [alike.twins.forward]
        exact compatible_refl right
      · rw [alike.twins.backward]
        exact compatible_refl right

/-- Two procedure types whose parameters are unions with the same tags.  They differ, but can stand
for each other, and a procedure that takes procedures can stand for both. -/
theorem same_tags_alike :
    let one : Ty := .proc [.union [.number, .proc [.number] .number]] .string
    let other : Ty := .proc [.union [.proc [] .void, .number, .number]] .string
    let taker : Ty := .proc [.proc [.number] .string] .string
    one ≠ other ∧ one.Alike other ∧ compatible one other = true ∧ compatible other one = true ∧
      compatible taker one = true ∧ compatible taker other = compatible taker one := by
  intro one other taker
  have sameTags : ∀ tag, tag ∈ [Tag.number, .proc] ↔ tag ∈ [Tag.proc, .number, .number] := by
    intro tag
    cases tag <;> decide
  have alike : one.Alike other := @Alike.param _ _ [] [] _ (.tags sameTags)
  obtain ⟨forward, backward⟩ := (compatibility_kernel.2.1 one other).mpr alike
  exact ⟨by decide, alike, forward, backward, by decide,
    (compatibility_kernel.1 taker taker one other .refl alike).symm⟩

end TypedForms.Ty
