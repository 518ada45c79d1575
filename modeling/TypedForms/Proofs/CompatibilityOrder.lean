import TypedForms.Proofs.CompatibilityKernel

/-! Compatibility of types without unions is a partial order.

Transitivity has to pass through the row by which an atomic type stands for a
procedure with one parameter.  Parameters are compared the other way round, so
there the two comparisons point at the same type, and transitivity is proved
together with the lemma that settles this case.
-/
namespace TypedForms.Ty

/-- There is no union in the type, at any depth. -/
def UnionFree (type : Ty) : Prop :=
  type.All fun node => node.tag ≠ .union

instance (type : Ty) : Decidable type.UnionFree :=
  inferInstanceAs (Decidable (type.All _))

theorem unionFree_proc : (proc params result).UnionFree ↔
    (∀ param ∈ params, param.UnionFree) ∧ result.UnionFree := by
  simp only [UnionFree, all_proc]
  exact and_iff_right (by decide : Tag.proc ≠ .union)

theorem unionFree_atomic {type : Ty} (atomic : type.isAtomic = true) : type.UnionFree := by
  cases type with
  | number | boolean | string | void => exact (all_leaf rfl).mpr (by decide)
  | var | proc | union => cases atomic

theorem not_unionFree_union : ¬ (union members).UnionFree :=
  fun free => (all_union.mp free).1 rfl

/-- Alike types without unions are the same.  Either of them may be the one that is known to have
no unions, because only the ends of a chain of steps are. -/
theorem Alike.eq_of_unionFree (alike : Alike left right)
    (free : left.UnionFree ∨ right.UnionFree) : left = right := by
  induction alike with
  | refl => rfl
  | symm _ ih => exact (ih free.symm).symm
  | trans _ _ first second =>
    rcases free with free | free
    · have same := first (.inl free)
      exact same.trans (second (.inl (same ▸ free)))
    · have same := second (.inr free)
      exact (first (.inr (same ▸ free))).trans same
  | param _ ih =>
    rw [ih (free.imp (fun free => (unionFree_proc.mp free).1 _ (by simp))
      (fun free => (unionFree_proc.mp free).1 _ (by simp)))]
  | result _ ih =>
    rw [ih (free.imp (fun free => (unionFree_proc.mp free).2)
      (fun free => (unionFree_proc.mp free).2))]
  | tags => exact free.elim (absurd · not_unionFree_union) (absurd · not_unionFree_union)

/-- What the types above and below a type have to do with each other. -/
structure Between (middle : Ty) : Prop where
  /-- What stands for the type stands for all that the type stands for. -/
  passes : ∀ left right : Ty, left.UnionFree → right.UnionFree →
    compatible left middle = true → compatible middle right = true → compatible left right = true
  /-- An atomic type that stands for the type stands for all that stand for it too. -/
  meets : ∀ left right : Ty, left.isAtomic = true → right.UnionFree →
    compatible left middle = true → compatible right middle = true → compatible left right = true

/-- Of the types without unions only the type itself stands for one that is no procedure. -/
private theorem eq_of_compatible {left right : Ty} (leftFree : left.UnionFree)
    (noProc : right.isProc = false) (holds : compatible left right = true) : left = right := by
  cases left with
  | number | boolean | string | void =>
    rcases (compatible_atomic_left rfl).mp holds with same | ⟨_, _, rfl, _⟩
    · exact same.symm
    · cases noProc
  | var name => exact (compatible_var_left.mp holds).symm
  | proc params result =>
    obtain ⟨_, _, rfl, _⟩ := compatible_proc_left.mp holds
    cases noProc
  | union members => exact absurd leftFree not_unionFree_union

private theorem between_leaf {middle : Ty} (noProc : middle.isProc = false) : Between middle := by
  constructor
  · intro left right leftFree _ first second
    obtain rfl := eq_of_compatible leftFree noProc first
    exact second
  · intro left right atomic rightFree first second
    obtain rfl := eq_of_compatible rightFree noProc second
    exact first

/-- Comparing lists of parameters pair by pair passes through the parameters in the middle. -/
private theorem params_pass {params : List Ty} (between : ∀ param ∈ params, Between param)
    (leftsFree : ∀ left ∈ lefts, left.UnionFree) (rightsFree : ∀ right ∈ rights, right.UnionFree)
    (first : List.Forall₂ (fun left param => compatible left param = true) lefts params)
    (second : List.Forall₂ (fun param right => compatible param right = true) params rights) :
    List.Forall₂ (fun left right => compatible left right = true) lefts rights := by
  induction first generalizing rights with
  | nil =>
    cases second
    exact .nil
  | cons head _ ih =>
    cases second with
    | cons head' later' =>
      obtain ⟨headBetween, laterBetween⟩ := List.forall_mem_cons.mp between
      obtain ⟨leftFree, leftsFree⟩ := List.forall_mem_cons.mp leftsFree
      obtain ⟨rightFree, rightsFree⟩ := List.forall_mem_cons.mp rightsFree
      exact .cons (headBetween.passes _ _ leftFree rightFree head head')
        (ih laterBetween leftsFree rightsFree later')

/-- Parameters turn round, so both comparisons point at the parameter in the middle. -/
private theorem between_proc {params : List Ty} (paramsBetween : ∀ param ∈ params, Between param)
    (resultBetween : Between result) : Between (.proc params result) := by
  constructor
  · intro left right leftFree rightFree first second
    obtain ⟨others, target, rfl, results, pairs⟩ := compatible_proc_left.mp second
    obtain ⟨othersFree, targetFree⟩ := unionFree_proc.mp rightFree
    cases left with
    | number | boolean | string | void =>
      obtain ⟨param, rfl, below⟩ := (compatible_atomic_proc rfl).mp first
      cases pairs with
      | cons beside later =>
        cases later
        have met := (paramsBetween param (by simp)).meets _ _ rfl (othersFree _ (by simp)) below
          beside
        exact (compatible_atomic_proc rfl).mpr ⟨_, rfl, met⟩
    | var name => cases compatible_var_left.mp first
    | union members => exact absurd leftFree not_unionFree_union
    | proc sources source =>
      obtain ⟨sourcesFree, sourceFree⟩ := unionFree_proc.mp leftFree
      obtain ⟨firstResults, firstPairs⟩ := compatible_procs.mp first
      exact compatible_procs.mpr
        ⟨resultBetween.passes _ _ sourceFree targetFree firstResults results,
          params_pass paramsBetween othersFree sourcesFree pairs firstPairs⟩
  · intro left right atomic rightFree first second
    obtain ⟨param, rfl, below⟩ := (compatible_atomic_proc atomic).mp first
    have between := paramsBetween param (by simp)
    cases right with
    | number | boolean | string | void =>
      obtain ⟨other, same, beside⟩ := (compatible_atomic_proc rfl).mp second
      cases same
      exact between.meets _ _ atomic rightFree below beside
    | var name => cases compatible_var_left.mp second
    | union members => exact absurd rightFree not_unionFree_union
    | proc sources source =>
      obtain ⟨sourcesFree, _⟩ := unionFree_proc.mp rightFree
      obtain ⟨_, pairs⟩ := compatible_procs.mp second
      cases pairs with
      | cons beyond later =>
        cases later
        have passed := between.passes _ _ (unionFree_atomic atomic) (sourcesFree _ (by simp)) below
          beyond
        exact (compatible_atomic_proc atomic).mpr ⟨_, rfl, passed⟩

theorem between (middle : Ty) : Between middle := by
  induction middle with
  | number | boolean | string | void | var | union => exact between_leaf rfl
  | proc params result paramsBetween resultBetween =>
    exact between_proc paramsBetween resultBetween

/-- On types without unions compatibility is reflexive, transitive and antisymmetric. -/
theorem union_free_compatibility_order :
    (∀ type : Ty, type.UnionFree → compatible type type = true) ∧
    (∀ left middle right : Ty, left.UnionFree → middle.UnionFree → right.UnionFree →
      compatible left middle = true → compatible middle right = true →
      compatible left right = true) ∧
    (∀ left right : Ty, left.UnionFree → right.UnionFree →
      compatible left right = true → compatible right left = true → left = right) := by
  refine ⟨fun type _ => compatible_refl type, ?_, ?_⟩
  · intro left middle right leftFree _ rightFree first second
    exact (between middle).passes left right leftFree rightFree first second
  · intro left right leftFree _ forward backward
    exact (alike_of_compatible forward backward).eq_of_unionFree (.inl leftFree)

/-- A chain through the row of atomic types, and its second step does not turn round. -/
theorem atomic_chain_ordered :
    let taker : Ty := .proc [.proc [.number] .void] .string
    let plain : Ty := .proc [.number] .string
    taker.UnionFree ∧ plain.UnionFree ∧ compatible .number taker = true ∧
      compatible taker plain = true ∧ compatible .number plain = true ∧
      compatible plain taker = false := by
  intro taker plain
  have takerFree : taker.UnionFree := by decide
  have plainFree : plain.UnionFree := by decide
  have below : compatible .number taker = true := by decide
  have above : compatible taker plain = true := by decide
  have passed := union_free_compatibility_order.2.1 .number taker plain (by decide) takerFree
    plainFree below above
  have strict : compatible plain taker = false := by
    apply Bool.eq_false_iff.mpr
    intro back
    have same := union_free_compatibility_order.2.2 taker plain takerFree plainFree above back
    exact absurd same (by decide)
  exact ⟨takerFree, plainFree, below, above, passed, strict⟩

/-- With unions the order is lost: a union stands for its member, but not for all that its member
stands for. -/
example : let pair : Ty := .union [.number, .boolean]
    let taker : Ty := .proc [.proc [.number] .void] .string
    compatible pair .number = true ∧ compatible .number taker = true ∧
      compatible pair taker = false := by decide

end TypedForms.Ty
