import TypedForms.Proofs.CompatibleRows

/-! The types that a type which is no procedure can stand for, told by their shape.

The rows of the decision overlap and call each other through parameters.  What
comes of it is simple when the left side is no procedure: an atomic type stands
for itself under any number of procedures with one parameter, and a union looks
under at most one.  An atomic type on the right is met by itself and by the
unions that it is a component of.
-/
namespace TypedForms.Ty

/-- The type is the core under so many procedures with a single parameter, each with any result. -/
inductive Chain (core : Ty) : Nat → Ty → Prop where
  | core : Chain core 0 core
  | param (inside : Chain core depth type) : Chain core (depth + 1) (.proc [type] result)

/-- The type that a union is compared with: the type itself when it is no procedure, or else its
only parameter.  There is none when the parameter is a procedure too. -/
def target? : Ty → Option Ty
  | .proc [param] _ => if param.isProc then none else some param
  | .proc _ _ => none
  | type => some type

/-! ## Atomic types on the left -/

private theorem chain_of_compatible {core : Ty} (atomic : core.isAtomic = true)
    (holds : compatible core right = true) : ∃ depth, Chain core depth right := by
  induction right with
  | number | boolean | string | void | var | union =>
    rcases (compatible_atomic_left atomic).mp holds with rfl | ⟨_, _, impossible, _⟩
    · exact ⟨0, .core⟩
    · cases impossible
  | proc params result paramsChain _ =>
    obtain ⟨param, rfl, below⟩ := (compatible_atomic_proc atomic).mp holds
    obtain ⟨depth, chain⟩ := paramsChain param (by simp) below
    exact ⟨depth + 1, .param chain⟩

private theorem Chain.compatible {core : Ty} (chain : Chain core depth right)
    (atomic : core.isAtomic = true) : compatible core right = true := by
  induction chain with
  | core => exact (compatible_atomic_left atomic).mpr (.inl rfl)
  | param _ ih => exact (compatible_atomic_proc atomic).mpr ⟨_, rfl, ih⟩

/-! ## Unions on the left -/

/-- The tag of an atomic type says which one it is. -/
private theorem eq_of_atomic_tag {type : Ty} (atomic : type.isAtomic = true)
    (same : member.tag = type.tag) : member = type := by
  cases type with
  | number | boolean | string | void => cases member <;> simp_all [tag]
  | var | proc | union => cases atomic

private theorem mem_tags_iff {type : Ty} {members : List Ty} (atomic : type.isAtomic = true) :
    type.tag ∈ members.map tag ↔ type ∈ members := by
  rw [List.mem_map]
  constructor
  · rintro ⟨member, listed, same⟩
    rwa [← eq_of_atomic_tag atomic same]
  · intro listed
    exact ⟨type, listed, rfl⟩

/-- A type that is no procedure is its own target. -/
private theorem target_of_not_proc {type : Ty} (noProc : type.isProc = false) :
    type.target? = some type := by
  cases type with
  | number | boolean | string | void | var | union => rfl
  | proc => cases noProc

/-- A union stands for a type exactly when the type has a target and the union stands for that. -/
private theorem compatible_union_target : compatible (.union members) right = true ↔
    ∃ target, right.target? = some target ∧ target.isProc = false ∧
      compatible (.union members) target = true := by
  cases right with
  | number | boolean | string | void | var | union =>
    rw [target_of_not_proc rfl]
    constructor
    · intro holds
      exact ⟨_, rfl, rfl, holds⟩
    · rintro ⟨target, found, _, holds⟩
      cases found
      exact holds
  | proc params result =>
    rw [compatible_union_proc]
    match params with
    | [] | _ :: _ :: _ => simp [target?]
    | [param] => by_cases inner : param.isProc = true <;> simp_all [target?]

/-- Two unions are compared by tags, and an atomic type has to be a component. -/
private theorem compatible_union_plain (noProc : target.isProc = false) :
    compatible (.union members) target = true ↔
      (∃ others, target = .union others ∧ members.map tag ⊆ others.map tag) ∨
        target.isAtomic = true ∧ target ∈ members := by
  cases target with
  | number | boolean | string | void =>
    rw [compatible_union_atomic rfl, mem_tags_iff rfl]
    simp [isAtomic]
  | var => simp [not_compatible_union_var, isAtomic]
  | union others => simp [compatible_unions, isAtomic]
  | proc => cases noProc

/-! ## Atomic types on the right -/

private theorem compatible_atomic_right {right : Ty} (atomic : right.isAtomic = true) :
    compatible left right = true ↔
      left = right ∨ ∃ members, left = .union members ∧ right ∈ members := by
  constructor
  · intro holds
    cases left with
    | number | boolean | string | void =>
      rcases (compatible_atomic_left rfl).mp holds with same | ⟨_, _, rfl, _⟩
      · exact .inl same.symm
      · cases atomic
    | var => exact .inl (compatible_var_left.mp holds).symm
    | proc =>
      obtain ⟨_, _, rfl, _⟩ := compatible_proc_left.mp holds
      cases atomic
    | union members =>
      rw [compatible_union_atomic atomic, mem_tags_iff atomic] at holds
      exact .inr ⟨members, rfl, holds⟩
  · rintro (rfl | ⟨members, rfl, listed⟩)
    · exact (compatible_atomic_left atomic).mpr (.inl rfl)
    · rw [compatible_union_atomic atomic, mem_tags_iff atomic]
      exact listed

/-- An atomic type stands for the chains that end in it and for nothing else.  A union, whatever its
components, stands for a type exactly when the target of the type is a union with all its tags or an
atomic type among its components.  An atomic type is met by itself and by the unions that have it as
a component. -/
theorem compatibility_closed_forms :
    (∀ core right : Ty, core.isAtomic = true →
      (compatible core right = true ↔ ∃ depth, Chain core depth right)) ∧
    (∀ (members : List Ty) (right : Ty), compatible (.union members) right = true ↔
      ∃ target, right.target? = some target ∧
        ((∃ others, target = .union others ∧ members.map tag ⊆ others.map tag) ∨
          target.isAtomic = true ∧ target ∈ members)) ∧
    ∀ left right : Ty, right.isAtomic = true →
      (compatible left right = true ↔
        left = right ∨ ∃ members, left = .union members ∧ right ∈ members) := by
  refine ⟨?_, ?_, fun left right atomic => compatible_atomic_right atomic⟩
  · intro core right atomic
    constructor
    · exact chain_of_compatible atomic
    · rintro ⟨depth, chain⟩
      exact chain.compatible atomic
  · intro members right
    rw [compatible_union_target]
    constructor
    · rintro ⟨target, found, noProc, holds⟩
      exact ⟨target, found, (compatible_union_plain noProc).mp holds⟩
    · rintro ⟨target, found, shape⟩
      have noProc : target.isProc = false := by
        cases target with
        | proc => simp [isAtomic] at shape
        | number | boolean | string | void | var | union => rfl
      exact ⟨target, found, noProc, (compatible_union_plain noProc).mpr shape⟩

/-- A number stands for a taker of takers of numbers, and a union stands for a taker of a wider
union, but neither of them goes on through a taker of takers of unions. -/
theorem chains_end_at_unions :
    let pair : Ty := .union [.boolean, .number]
    let wider : Ty := .union [.number, .proc [] .void, .boolean]
    let taker : Ty := .proc [wider] .string
    let deep : Ty := .proc [.proc [.number] .string] (.var "T")
    Chain .number 2 deep ∧ compatible .number deep = true ∧ compatible pair taker = true ∧
      compatible pair (.proc [taker] .string) = false ∧ compatible .number taker = false ∧
      compatible pair .number = true ∧ compatible taker .number = false := by
  intro pair wider taker deep
  obtain ⟨fromAtomic, fromUnion, toAtomic⟩ := compatibility_closed_forms
  have chain : Chain .number 2 deep := .param (.param .core)
  have atomic : isAtomic .number = true := rfl
  refine ⟨chain, (fromAtomic _ _ atomic).mpr ⟨2, chain⟩, ?_, ?_, ?_, ?_, ?_⟩
  · apply (fromUnion _ _).mpr
    exact ⟨wider, rfl, .inl ⟨_, rfl, by simp [tag]⟩⟩
  · apply Bool.eq_false_iff.mpr
    intro holds
    obtain ⟨_, found, _⟩ := (fromUnion _ _).mp holds
    cases found
  · apply Bool.eq_false_iff.mpr
    intro holds
    obtain ⟨depth, chain⟩ := (fromAtomic _ _ atomic).mp holds
    simp only [taker, wider] at chain
    cases chain with
    | param inside => cases inside
  · apply (toAtomic _ _ atomic).mpr
    exact .inr ⟨_, rfl, by simp⟩
  · apply Bool.eq_false_iff.mpr
    intro holds
    rcases (toAtomic _ _ atomic).mp holds with same | ⟨members, same, _⟩
    · simp [taker] at same
    · simp [taker] at same

end TypedForms.Ty
