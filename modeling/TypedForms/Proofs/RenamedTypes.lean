import Mathlib.Data.List.Nodup
import Mathlib.Logic.Equiv.Basic
import TypedForms.Proofs.CompatibleRows
import TypedForms.Proofs.UnionLaws

/-! Renaming the variables of types.

Names decide where the members of a union stand, so a renamed type has its unions
sorted again, at every depth.  As long as different names stay different nothing
else changes: renaming goes through the building of unions and through the types
of ascriptions, and does not change which types are compatible.
-/
namespace TypedForms

/-- A change of names that keeps legal names legal and apart. -/
structure Renaming where
  apply : String → String
  legal : ∀ name, Token.LegalName name → Token.LegalName (apply name)
  apart : ∀ name other, Token.LegalName name → Token.LegalName other →
    apply name = apply other → name = other

/-- The renaming that exchanges two names. -/
def Renaming.exchange (first second : String) (firstLegal : Token.LegalName first)
    (secondLegal : Token.LegalName second) : Renaming where
  apply := Equiv.swap first second
  legal name legal := by
    rw [Equiv.swap_apply_def]
    split_ifs <;> assumption
  apart _ _ _ _ same := (Equiv.swap first second).injective same

mutual

/-- The ascription with its variables renamed.  Places stay as they are. -/
def Ascription.rename (renamer : Renaming) : Ascription → Ascription
  | .named range name => .named range (renamer.apply name)
  | .proc range params result => .proc range (renameAll renamer params) (result.rename renamer)
  | .union range members => .union range (renameAll renamer members)
  | ascription => ascription

/-- The ascriptions of a list with their variables renamed. -/
def Ascription.renameAll (renamer : Renaming) : List Ascription → List Ascription
  | [] => []
  | first :: rest => first.rename renamer :: renameAll renamer rest

end

theorem Ascription.renameAll_eq_map (renamer : Renaming) (list : List Ascription) :
    renameAll renamer list = list.map (rename renamer) := by
  induction list with
  | nil => rfl
  | cons first rest ih => simp [renameAll, ih]

namespace Ty

mutual

/-- The type with its variables renamed and its unions sorted again, the inner ones first. -/
def rename (renamer : Renaming) : Ty → Ty
  | .var name => .var (renamer.apply name)
  | .proc params result => .proc (renameAll renamer params) (result.rename renamer)
  | .union members => .union (Text.sortBy text (renameAll renamer members))
  | type => type

/-- The types of a list with their variables renamed. -/
def renameAll (renamer : Renaming) : List Ty → List Ty
  | [] => []
  | first :: rest => first.rename renamer :: renameAll renamer rest

end

variable {renamer : Renaming}

theorem renameAll_eq_map (list : List Ty) :
    renameAll renamer list = list.map (rename renamer) := by
  induction list with
  | nil => rfl
  | cons first rest ih => simp [renameAll, ih]

theorem length_renameAll (list : List Ty) : (renameAll renamer list).length = list.length := by
  rw [renameAll_eq_map, List.length_map]

@[simp] theorem tag_rename (type : Ty) : (type.rename renamer).tag = type.tag := by
  cases type <;> rfl

@[simp] theorem isProc_rename (type : Ty) : (type.rename renamer).isProc = type.isProc := by
  cases type <;> rfl

theorem rename_atomic {type : Ty} (atomic : type.isAtomic = true) : type.rename renamer = type := by
  cases type with
  | number | boolean | string | void => rfl
  | var | proc | union => cases atomic

theorem mem_sorted_rename {members : List Ty} :
    type ∈ Text.sortBy text (renameAll renamer members) ↔
      ∃ member ∈ members, member.rename renamer = type := by
  rw [(Text.sortBy_perm _).mem_iff, renameAll_eq_map, List.mem_map]

/-- The components of a renamed type are the renamed components. -/
theorem mem_components_rename {type : Ty} :
    component ∈ (type.rename renamer).components ↔
      ∃ old ∈ type.components, old.rename renamer = component := by
  cases type with
  | union members => exact mem_sorted_rename
  | _ => simp [rename, components, eq_comm]

/-! ## Renaming keeps types apart -/

private theorem eq_of_map {apply : α → β} {left right : List α}
    (apart : ∀ item ∈ left, ∀ other ∈ right, apply item = apply other → item = other)
    (same : left.map apply = right.map apply) : left = right := by
  induction left generalizing right with
  | nil => exact (List.map_eq_nil_iff.mp same.symm).symm
  | cons item items ih =>
    cases right with
    | nil => cases same
    | cons other others =>
      obtain ⟨first, later⟩ := List.cons.inj same
      rw [apart item (by simp) other (by simp) first, ih (fun item listed other otherListed =>
        apart item (by simp [listed]) other (by simp [otherListed])) later]

/-- Normal unions whose members correspond are the same. -/
private theorem union_eq_of_mem {members others : List Ty} (left : (union members).Readable)
    (right : (union others).Readable) (same : ∀ type, type ∈ members ↔ type ∈ others) :
    members = others := by
  obtain ⟨leftUnion, _⟩ := all_union.mp left.normal
  obtain ⟨rightUnion, _⟩ := all_union.mp right.normal
  refine Text.ascending_unique (fun type listed other otherListed sameText => ?_)
    leftUnion.ascending rightUnion.ascending
    ((List.perm_ext_iff_of_nodup leftUnion.distinct rightUnion.distinct).mpr same)
  exact eq_of_text (left.settled type listed) (right.settled other otherListed) sameText

/-- Types in normal form with legal names that are the same after renaming were the same before. -/
theorem rename_apart {left right : Ty} (leftReadable : left.Readable)
    (rightReadable : right.Readable) (same : left.rename renamer = right.rename renamer) :
    left = right := by
  induction left generalizing right with
  | number | boolean | string | void => cases right <;> simp_all [rename]
  | var name =>
    cases right with
    | var other =>
      have legal := readable_var.mp leftReadable
      have otherLegal := readable_var.mp rightReadable
      simp only [rename, var.injEq] at same
      rw [renamer.apart name other legal otherLegal same]
    | _ => simp [rename] at same
  | proc params result paramsApart resultApart =>
    cases right with
    | proc others target =>
      obtain ⟨paramsReadable, resultReadable⟩ := readable_proc.mp leftReadable
      obtain ⟨othersReadable, targetReadable⟩ := readable_proc.mp rightReadable
      simp only [rename, renameAll_eq_map, proc.injEq] at same
      obtain ⟨sameParams, sameResult⟩ := same
      have params := eq_of_map (fun param listed other otherListed =>
        paramsApart param listed (paramsReadable param listed) (othersReadable other otherListed))
        sameParams
      rw [params, resultApart resultReadable targetReadable sameResult]
    | _ => simp [rename] at same
  | union members membersApart =>
    cases right with
    | union others =>
      have apart : ∀ member ∈ members, ∀ other ∈ others,
          member.rename renamer = other.rename renamer → member = other :=
        fun member listed other otherListed => membersApart member listed
          (leftReadable.settled member listed) (rightReadable.settled other otherListed)
      simp only [rename, union.injEq] at same
      congr 1
      refine union_eq_of_mem leftReadable rightReadable fun type =>
        ⟨fun listed => ?_, fun listed => ?_⟩
      · obtain ⟨other, otherListed, renamed⟩ :=
          mem_sorted_rename.mp (same ▸ mem_sorted_rename.mpr ⟨type, listed, rfl⟩)
        exact apart type listed other otherListed renamed.symm ▸ otherListed
      · obtain ⟨member, memberListed, renamed⟩ :=
          mem_sorted_rename.mp (same ▸ mem_sorted_rename.mpr ⟨type, listed, rfl⟩)
        exact apart member memberListed type listed renamed ▸ memberListed
    | _ => simp [rename] at same

/-- Renaming keeps types in normal form and their names legal. -/
theorem rename_readable {type : Ty} (readable : type.Readable) :
    (type.rename renamer).Readable := by
  induction type with
  | number | boolean | string | void => exact readable
  | var name => exact readable_var.mpr (renamer.legal name (readable_var.mp readable))
  | proc params result paramsReadable resultReadable =>
    obtain ⟨params, result⟩ := readable_proc.mp readable
    rw [rename, renameAll_eq_map]
    refine readable_proc.mpr ⟨List.forall_mem_map.mpr ?_, resultReadable result⟩
    exact fun param listed => paramsReadable param listed (params param listed)
  | union members membersReadable =>
    obtain ⟨union, _⟩ := all_union.mp readable.normal
    have each : ∀ type ∈ Text.sortBy text (renameAll renamer members), type.Readable := by
      intro type listed
      obtain ⟨member, isMember, rfl⟩ := mem_sorted_rename.mp listed
      exact membersReadable member isMember (readable.settled member isMember)
    have perm :
        (Text.sortBy text (renameAll renamer members)).Perm (members.map (rename renamer)) :=
      renameAll_eq_map members ▸ Text.sortBy_perm _
    refine ⟨all_union.mpr ⟨⟨?_, ?_, ?_, Text.sortBy_ascending _⟩, fun type listed =>
      (each type listed).normal⟩, legal_union.mpr fun type listed => (each type listed).legal⟩
    · rw [perm.length_eq, List.length_map]
      exact union.several
    · intro type listed
      obtain ⟨member, isMember, rfl⟩ := mem_sorted_rename.mp listed
      exact (tag_rename member).symm ▸ union.flat member isMember
    · refine perm.nodup_iff.mpr (union.distinct.map_on fun member listed other otherListed => ?_)
      exact rename_apart (readable.settled member listed) (readable.settled other otherListed)

/-! ## Unions and ascriptions -/

/-- Renaming a union is the same as renaming its members first. -/
theorem rename_unionOf {members : List Ty} (nonempty : members ≠ [])
    (readable : ∀ member ∈ members, member.Readable) :
    (unionOf members).rename renamer = unionOf (members.map (rename renamer)) := by
  have union : ((unionOf members).rename renamer).Readable :=
    rename_readable (unionOf_readable nonempty readable)
  rw [← unionOf_single union.normal.collected]
  refine unionOf_congr (by simp [union.settled]) fun type => ?_
  have flat : ∀ member ∈ members, member.Flat := fun member listed => (readable member listed).flat
  simp only [List.flatMap_cons, List.flatMap_nil, List.append_nil, mem_components_rename,
    mem_components_unionOf flat, List.mem_flatMap, List.mem_map]
  constructor
  · rintro ⟨old, ⟨member, listed, inside⟩, rfl⟩
    exact ⟨_, ⟨member, listed, rfl⟩, mem_components_rename.mpr ⟨old, inside, rfl⟩⟩
  · rintro ⟨_, ⟨member, listed, rfl⟩, inside⟩
    obtain ⟨old, component, rfl⟩ := mem_components_rename.mp inside
    exact ⟨old, ⟨member, listed, component⟩, rfl⟩

theorem rename_join {left right : Ty} (leftReadable : left.Readable)
    (rightReadable : right.Readable) :
    (join left right).rename renamer = join (left.rename renamer) (right.rename renamer) :=
  rename_unionOf (by simp) (by simp [leftReadable, rightReadable])

/-- A renamed ascription denotes the renamed type. -/
theorem ofAscription_rename {ascription : Ascription} (admissible : ascription.Admissible) :
    ofAscription (ascription.rename renamer) = (ofAscription ascription).rename renamer := by
  induction ascription with
  | number | boolean | string | void | named => rfl
  | proc range params result paramsSame resultSame =>
    obtain ⟨_, paramsAdmissible, resultAdmissible⟩ := Ascription.all_proc.mp admissible
    simp only [Ascription.rename, ofAscription, rename, Ascription.renameAll_eq_map,
      ofAscriptions_eq_map, renameAll_eq_map, List.map_map, resultSame resultAdmissible]
    congr 1
    exact List.map_congr_left fun param listed =>
      paramsSame param listed (paramsAdmissible param listed)
  | union range members membersSame =>
    obtain ⟨nonempty, membersAdmissible⟩ := Ascription.all_union.mp admissible
    have readable : ∀ type ∈ members.map ofAscription, type.Readable :=
      List.forall_mem_map.mpr fun member listed =>
        ofAscription_readable (membersAdmissible member listed)
    simp only [Ascription.rename, ofAscription, Ascription.renameAll_eq_map, ofAscriptions_eq_map]
    rw [rename_unionOf (mt List.map_eq_nil_iff.mp nonempty) readable, List.map_map, List.map_map]
    congr 1
    exact List.map_congr_left fun member listed =>
      membersSame member listed (membersAdmissible member listed)

/-! ## Compatibility -/

theorem mem_tags_rename {members : List Ty} :
    wanted ∈ (Text.sortBy text (renameAll renamer members)).map tag ↔ wanted ∈ members.map tag := by
  simp only [List.mem_map, mem_sorted_rename]
  constructor
  · rintro ⟨_, ⟨member, listed, rfl⟩, same⟩
    exact ⟨member, listed, by simpa using same⟩
  · rintro ⟨member, listed, same⟩
    exact ⟨_, ⟨member, listed, rfl⟩, by simpa using same⟩

theorem includesTag_rename (members : List Ty) (wanted : Tag) :
    includesTag (Text.sortBy text (renameAll renamer members)) wanted =
      includesTag members wanted := by
  rw [Bool.eq_iff_iff, includesTag_iff, includesTag_iff, mem_tags_rename]

theorem beq_rename {left right : Ty} (leftReadable : left.Readable)
    (rightReadable : right.Readable) :
    (left.rename renamer == right.rename renamer) = (left == right) := by
  apply Bool.eq_iff_iff.mpr
  simp only [beq_iff_eq]
  exact ⟨rename_apart leftReadable rightReadable, congrArg _⟩

theorem fits_rename {left right : Ty} (leftReadable : left.Readable)
    (rightReadable : right.Readable) :
    fits (left.rename renamer) (right.rename renamer) = fits left right := by
  induction right with
  | number | boolean | string | void =>
    cases left with
    | union members => exact includesTag_rename members _
    | _ => rfl
  | var name =>
    cases left with
    | var other => exact beq_rename leftReadable rightReadable
    | _ => rfl
  | proc params result paramsFit _ =>
    match params with
    | [param] =>
      have inner := paramsFit param (by simp) ((readable_proc.mp rightReadable).1 param (by simp))
      cases left with
      | union members => exact congrArg₂ (!· && ·) (isProc_rename param) inner
      | number | boolean | string | void => exact congrArg (true && ·) inner
      | var | proc => rfl
    | [] | _ :: _ :: _ =>
      cases left with
      | proc params' result' => exact beq_rename leftReadable rightReadable
      | _ => rfl
  | union others =>
    cases left with
    | union members =>
      apply Bool.eq_iff_iff.mpr
      refine compatible_unions.trans (Iff.trans ?_ compatible_unions.symm)
      simp only [List.subset_def, mem_tags_rename]
    | _ => rfl

mutual

/-- Renaming does not change how two types are related. -/
theorem relates_rename (flipped : Bool) {left right : Ty} (leftReadable : left.Readable)
    (rightReadable : right.Readable) :
    relates flipped (left.rename renamer) (right.rename renamer) = relates flipped left right := by
  have forward : fits (left.rename renamer) (right.rename renamer) = fits left right :=
    fits_rename leftReadable rightReadable
  have backward : fits (right.rename renamer) (left.rename renamer) = fits right left :=
    fits_rename rightReadable leftReadable
  cases left with
  | proc params result =>
    cases right with
    | proc others target =>
      obtain ⟨paramsReadable, resultReadable⟩ := readable_proc.mp leftReadable
      obtain ⟨othersReadable, targetReadable⟩ := readable_proc.mp rightReadable
      simp only [rename, relates, relates_rename flipped resultReadable targetReadable,
        relatesAll_rename (!flipped) paramsReadable othersReadable, length_renameAll]
    | _ =>
      cases flipped with
      | false => exact forward
      | true => exact backward
  | _ =>
    cases flipped with
    | false => exact forward
    | true => exact backward

theorem relatesAll_rename (flipped : Bool) {left right : List Ty}
    (leftReadable : ∀ type ∈ left, type.Readable) (rightReadable : ∀ type ∈ right, type.Readable) :
    relatesAll flipped (renameAll renamer left) (renameAll renamer right) =
      relatesAll flipped left right := by
  match left, right with
  | [], _ => rfl
  | _ :: _, [] => rfl
  | type :: rest, type' :: rest' =>
    obtain ⟨first, later⟩ := List.forall_mem_cons.mp leftReadable
    obtain ⟨first', later'⟩ := List.forall_mem_cons.mp rightReadable
    simp only [renameAll, relatesAll, relates_rename flipped first first',
      relatesAll_rename flipped later later']

end

/-- Renaming does not change which types are compatible. -/
theorem compatible_rename {left right : Ty} (leftReadable : left.Readable)
    (rightReadable : right.Readable) :
    compatible (left.rename renamer) (right.rename renamer) = compatible left right :=
  relates_rename false leftReadable rightReadable

end Ty

end TypedForms
