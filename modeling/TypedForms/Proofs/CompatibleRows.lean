import Mathlib.Data.List.Forall2
import TypedForms.Proofs.NormalTypes
import TypedForms.Ty.Compatible

/-! The rows of the compatibility decision.

The decision goes down both types with a direction that parameters turn round.
Here it is taken apart again: for each shape of the two types there is one
condition under which the first can stand for the second, and the conditions on
parts are compatibilities themselves.
-/
namespace TypedForms.Ty

/-! ## The rows as equations -/

theorem relates_procs : relates flipped (.proc params result) (.proc others target) =
    (params.length == others.length && relates flipped result target &&
      relatesAll (!flipped) params others) :=
  rfl

theorem relatesAll_cons : relatesAll flipped (left :: lefts) (right :: rights) =
    (relates flipped left right && relatesAll flipped lefts rights) :=
  rfl

/-- Unless both types are procedures, the decision is made without a direction. -/
theorem compatible_eq_fits {left right : Ty} (unlessProcs : (left.isProc && right.isProc) = false) :
    compatible left right = fits left right := by
  cases left with
  | proc =>
    cases right with
    | proc => cases unlessProcs
    | _ => rfl
  | _ => cases right <;> rfl

theorem fits_unions : fits (.union members) (.union others) =
    members.all fun member => includesTag others member.tag :=
  rfl

theorem fits_union_atomic {right : Ty} (atomic : right.isAtomic = true) :
    fits (.union members) right = includesTag members right.tag := by
  cases right with
  | number | boolean | string | void => rfl
  | var | proc | union => cases atomic

theorem fits_union_proc : fits (.union members) (.proc params result) = true ↔
    ∃ param, params = [param] ∧ param.isProc = false ∧ fits (.union members) param = true := by
  match params with
  | [param] =>
    have row : fits (.union members) (.proc [param] result) =
        (!param.isProc && fits (.union members) param) := rfl
    simp [row]
  | [] | _ :: _ :: _ => exact ⟨nofun, nofun⟩

/-- Besides unions, what is not a procedure with one parameter has to be the same. -/
theorem fits_plain {left right : Ty} (leftPlain : left.tag ≠ .union)
    (rightPlain : ∀ param result, right ≠ .proc [param] result) :
    fits left right = (left == right) := by
  cases left with
  | union => exact absurd rfl leftPlain
  | _ =>
    cases right with
    | proc params result =>
      match params with
      | [param] => exact absurd rfl (rightPlain param result)
      | [] | _ :: _ :: _ => rfl
    | _ => rfl

theorem fits_proc {left : Ty} (plain : left.tag ≠ .union) : fits left (.proc [param] result) =
    (left.isAtomic && fits left param) := by
  cases left with
  | union => exact absurd rfl plain
  | _ => rfl

/-! ## Compatibility -/

mutual

/-- Turning the direction round exchanges the two types. -/
theorem relates_turned (flipped : Bool) (left right : Ty) :
    relates (!flipped) left right = relates flipped right left := by
  cases left with
  | proc params result =>
    cases right with
    | proc params' result' =>
      simp only [relates_procs, relates_turned flipped result result',
        relatesAll_turned (!flipped) params params', Bool.beq_comm]
    | _ => cases flipped <;> rfl
  | _ => cases right <;> cases flipped <;> rfl

theorem relatesAll_turned (flipped : Bool) (left right : List Ty) :
    relatesAll (!flipped) left right = relatesAll flipped right left := by
  cases left with
  | nil => cases right <;> rfl
  | cons type rest =>
    cases right with
    | nil => rfl
    | cons type' rest' =>
      simp only [relatesAll_cons, relates_turned flipped type type',
        relatesAll_turned flipped rest rest']

end

private theorem relatesAll_iff {left right : List Ty} (same : left.length = right.length) :
    relatesAll false left right = true ↔
      List.Forall₂ (fun type other => compatible type other = true) left right := by
  induction left generalizing right with
  | nil =>
    obtain rfl := List.length_eq_zero_iff.mp same.symm
    exact iff_of_true rfl .nil
  | cons type rest ih =>
    cases right with
    | nil => cases same
    | cons other others =>
      rw [relatesAll_cons, Bool.and_eq_true, List.forall₂_cons, ih (by simpa using same), compatible]

/-- A procedure stands for another one when its result does and the other's parameters stand for
its own. -/
theorem compatible_procs : compatible (.proc params result) (.proc others target) = true ↔
    compatible result target = true ∧
      List.Forall₂ (fun param other => compatible param other = true) others params := by
  simp only [compatible, relates_procs, Bool.and_eq_true, beq_iff_eq, relatesAll_turned]
  constructor
  · rintro ⟨⟨same, results⟩, pairs⟩
    exact ⟨results, (relatesAll_iff same.symm).mp pairs⟩
  · rintro ⟨results, pairs⟩
    exact ⟨⟨pairs.length_eq.symm, results⟩, (relatesAll_iff pairs.length_eq).mpr pairs⟩

/-- A procedure stands for procedures only. -/
theorem compatible_proc_left : compatible (.proc params result) right = true ↔
    ∃ others target, right = .proc others target ∧ compatible result target = true ∧
      List.Forall₂ (fun param other => compatible param other = true) others params := by
  constructor
  · intro holds
    cases right with
    | proc others target => exact ⟨others, target, rfl, compatible_procs.mp holds⟩
    | number | boolean | string | void | var | union =>
      change (Ty.proc params result == _) = true at holds
      simp at holds
  · rintro ⟨others, target, rfl, holds⟩
    exact compatible_procs.mpr holds

/-- An atomic type stands for itself and for a procedure with one parameter that it stands for.  One
level below, the decision is the same one without its direction. -/
theorem compatible_atomic_left {left right : Ty} (atomic : left.isAtomic = true) :
    compatible left right = true ↔ right = left ∨
      ∃ param result, right = .proc [param] result ∧ compatible left param = true := by
  have noProc : left.isProc = false := by
    cases left with
    | proc => cases atomic
    | _ => rfl
  have plain : left.tag ≠ .union := by
    cases left with
    | union => cases atomic
    | _ => exact nofun
  have inner : ∀ other, compatible left other = fits left other :=
    fun other => compatible_eq_fits (by rw [noProc, Bool.false_and])
  simp only [inner]
  by_cases single : ∃ param result, right = .proc [param] result
  · obtain ⟨param, result, rfl⟩ := single
    have other : Ty.proc [param] result ≠ left := by
      rintro rfl
      cases noProc
    rw [fits_proc plain, atomic, Bool.true_and, or_iff_right other]
    simp
  · rw [fits_plain plain fun param result same => single ⟨param, result, same⟩, beq_iff_eq]
    constructor
    · exact fun same => .inl same.symm
    · rintro (same | ⟨param, result, same, _⟩)
      · exact same.symm
      · exact absurd ⟨param, result, same⟩ single

theorem compatible_atomic_proc {left : Ty} (atomic : left.isAtomic = true) :
    compatible left (.proc params result) = true ↔
      ∃ param, params = [param] ∧ compatible left param = true := by
  have noProc : Ty.proc params result ≠ left := by
    rintro rfl
    cases atomic
  rw [compatible_atomic_left atomic, or_iff_right noProc]
  simp

/-- A variable stands for itself only. -/
theorem compatible_var_left : compatible (.var name) right = true ↔ right = .var name := by
  have plain : (var name).tag ≠ .union := nofun
  rw [compatible_eq_fits rfl]
  by_cases single : ∃ param result, right = .proc [param] result
  · obtain ⟨param, result, rfl⟩ := single
    exact ⟨nofun, nofun⟩
  · rw [fits_plain plain fun param result same => single ⟨param, result, same⟩, beq_iff_eq,
      eq_comm]

/-- Nothing else stands for a variable. -/
theorem compatible_var_right : compatible left (.var name) = true ↔ left = .var name := by
  cases left with
  | var other => rw [compatible_var_left, eq_comm]
  | number | boolean | string | void | proc =>
    exact beq_iff_eq
  | union => exact ⟨nofun, nofun⟩

theorem includesTag_iff {types : List Ty} :
    includesTag types wanted = true ↔ wanted ∈ types.map tag := by
  simp [includesTag]

/-- Unions are compared by the tags of their components. -/
theorem compatible_unions : compatible (.union members) (.union others) = true ↔
    members.map tag ⊆ others.map tag := by
  rw [compatible_eq_fits rfl, fits_unions]
  simp only [List.all_eq_true, includesTag_iff, List.subset_def, List.forall_mem_map]

/-- A union stands for a procedure with one parameter that is no procedure. -/
theorem compatible_union_proc : compatible (.union members) (.proc params result) = true ↔
    ∃ param, params = [param] ∧ param.isProc = false ∧
      compatible (.union members) param = true := by
  have inner : ∀ right, compatible (.union members) right = fits (.union members) right :=
    fun right => compatible_eq_fits rfl
  simp only [inner, fits_union_proc]

/-- A union stands for an atomic type with the tag of one of its components. -/
theorem compatible_union_atomic {right : Ty} (atomic : right.isAtomic = true) :
    compatible (.union members) right = true ↔ right.tag ∈ members.map tag := by
  rw [compatible_eq_fits rfl, fits_union_atomic atomic, includesTag_iff]

theorem not_compatible_union_var : compatible (.union members) (.var name) = false :=
  rfl

/-- Only unions stand for unions. -/
theorem compatible_union_right : compatible left (.union others) = true ↔
    ∃ members, left = .union members ∧ members.map tag ⊆ others.map tag := by
  cases left with
  | union members => simp [compatible_unions]
  | number | boolean | string | void | var | proc =>
    exact ⟨nofun, nofun⟩

end TypedForms.Ty
