import TypedForms.Proofs.TypeRoundTrip
import TypedForms.Proofs.WatchedChecks

/-! The checker works with normal types only.

From a context of normal types with legal names, and ascriptions that denote such
types, every context that is extended, every type that is returned and every type
that an error shows is normal and has legal names.  The type variables that a
check creates have legal names, because no other kind of token begins with a prime.
-/
namespace TypedForms

/-! ## Names that are created -/

namespace Token

/-- A prime begins nothing but a name. -/
theorem primed_name_legal {letters : List Char} (inside : ∀ c ∈ letters, isNameRest c = true) :
    LegalName (String.ofList ('\'' :: letters)) := by
  have noDigit : '\''.isDigit = false := by decide
  have start : isNameStart '\'' = true := by decide
  have noKeyword : keywords ('\'' :: letters) = [] := by
    simp [keywords, Keyword.all, Keyword.text, List.isPrefixOf]
  apply legal_name_iff.mpr
  simp [ReadsAlone, text, first?, proposals, numeral?, unsignedNumeral?, noDigit, noKeyword, name?,
    start, takeWhile_full inside, quoted?, longest?]

end Token

theorem baseLetters_inside_names (n : Nat) : ∀ c ∈ baseLetters n, Token.isNameRest c = true := by
  have letter : ∀ k < 26, Token.isNameRest (Char.ofNat (97 + k)) = true := by decide
  fun_induction baseLetters n with
  | case1 n small => simpa using letter n small
  | case2 n _ ih =>
    intro c member
    rcases List.mem_append.mp member with member | member
    · exact ih c member
    · rw [List.mem_singleton.mp member]
      exact letter (n % 26) (Nat.mod_lt n (by decide))

theorem generatedName_legal (n : Nat) : Token.LegalName (generatedName n) :=
  Token.primed_name_legal (baseLetters_inside_names n)

/-! ## Conditions on contexts, errors and expressions -/

/-- The types that an error shows. -/
def TypeError.Cause.types : TypeError.Cause → List Ty
  | .testNotBoolean found _ => [found]
  | .incompatible left right _ => [left, right]
  | .nonProcedure found _ => [found]
  | _ => []

/-- All names in scope are bound to normal types with legal names. -/
def Context.Readable (context : Context) : Prop :=
  ∀ binding ∈ context.bindings, binding.2.Readable

namespace Context.Readable

variable {context : Context}

theorem extendPairs (readable : context.Readable) (pairs : ∀ pair ∈ list, Ty.Readable pair.2) :
    (context.extendPairs list).Readable :=
  Context.Binds.extendPairs readable pairs

theorem lookup (readable : context.Readable) (found : context.lookup? name = some type) :
    type.Readable :=
  Context.Binds.lookup readable found

end Context.Readable

/-- Every ascription in the expression is admissible. -/
def Expr.Admissible (expr : Expr) : Prop :=
  expr.All fun node => ∀ ascription ∈ node.ownAscriptions, ascription.Admissible

theorem Ty.join_readable {left right : Ty} (leftReadable : left.Readable)
    (rightReadable : right.Readable) : (left.join right).Readable :=
  unionOf_readable (by simp) (by simp [leftReadable, rightReadable])

/-! ## What checks keep -/

/-- The value satisfies the condition, and all types of the error and of the extended contexts are
normal with legal names. -/
structure Watched.Keeps (holds : α → Prop) (watched : Watched α) : Prop where
  value : ∀ value, watched.outcome.result = .ok value → holds value
  error : ∀ error, watched.outcome.result = .error error →
    ∀ type ∈ error.cause.types, type.Readable
  extended : ∀ context ∈ watched.extended, context.Readable

/-- A watched check keeps the condition however many names have been created before it. -/
def Watch.Keeps (holds : α → Prop) (watch : Watch α) : Prop :=
  ∀ count, (watch count).Keeps holds

namespace Watch

variable {holds held : α → Prop} {context : Context}

theorem Keeps.imp {watch : Watch α} (kept : watch.Keeps held)
    (weaken : ∀ value, held value → holds value) : watch.Keeps holds :=
  fun count => ⟨fun value same => weaken value ((kept count).value value same), (kept count).error,
    (kept count).extended⟩

theorem keeps_pure (value : holds result) : (pure result : Watch α).Keeps holds :=
  fun _ => ⟨fun _ same => by cases same; exact value, nofun, nofun⟩

/-- What the first check keeps is there for what follows it. -/
theorem keeps_bind {first : Watch α} {next : α → Watch β} {later : β → Prop}
    (firstKeeps : first.Keeps held) (nextKeeps : ∀ value, held value → (next value).Keeps later) :
    (first >>= next).Keeps later := by
  intro count
  have kept := firstKeeps count
  change (andThen first next count).Keeps later
  unfold andThen
  split
  · rename_i error created events extended ended
    rw [ended] at kept
    exact ⟨nofun, fun _ same => kept.error _ (by cases same; rfl), kept.extended⟩
  · rename_i value created events extended ended
    rw [ended] at kept
    have later := nextKeeps value (kept.value value rfl) (count + created.length)
    refine ⟨later.value, later.error, ?_⟩
    exact List.forall_mem_append.mpr ⟨kept.extended, later.extended⟩

theorem lift_bind (first : Check α) (next : α → Check β) :
    lift (first >>= next) = lift first >>= fun value => lift (next value) := by
  funext count
  change (⟨Check.andThen first next count, []⟩ : Watched β) = andThen (lift first) _ count
  match ended : first count with
  | ⟨.error error, created, events⟩ => simp [Check.andThen, andThen, lift, ended]
  | ⟨.ok value, created, events⟩ => simp [Check.andThen, andThen, lift, ended]

theorem keeps_log (events : List Event) : (lift (Check.log events)).Keeps fun _ => True :=
  fun _ => ⟨fun _ _ => trivial, nofun, nofun⟩

theorem keeps_fail (shown : ∀ type ∈ cause.types, type.Readable) :
    (lift (context.fail cause) : Watch α).Keeps holds :=
  fun _ => ⟨nofun, fun _ same => by cases same; exact shown, nofun⟩

theorem keeps_declare (expr : Expr) :
    (lift (context.declare expr)).Keeps (· = context.extendPairs expr.definition) := by
  rw [Context.declare_eq, lift_bind]
  exact keeps_bind (keeps_log _) fun _ _ => keeps_pure rfl

theorem keeps_demand {check : Check Unit} {met : Bool} {error : TypeError} {entries : List Event}
    {holds : Unit → Prop}
    (ended : ∀ count, check count = ⟨if met then .ok () else .error error, [], entries⟩)
    (shown : ∀ type ∈ error.cause.types, type.Readable) (value : holds ()) :
    (lift check).Keeps holds := by
  intro count
  rw [lift, ended]
  cases met with
  | true => exact ⟨fun _ _ => value, nofun, nofun⟩
  | false => exact ⟨nofun, fun _ same => by cases same; exact shown, nofun⟩

theorem keeps_lookup (readable : context.Readable) (name : String) :
    (lift (context.lookup name)).Keeps Ty.Readable := by
  rcases context.lookup_cases name with ⟨type, found, isPure⟩ | ⟨_, isFail⟩
  · rw [isPure]
    exact keeps_pure (readable.lookup found)
  · rw [isFail]
    exact keeps_fail (by simp [TypeError.Cause.types])

theorem keeps_newVar : (lift Check.newVar).Keeps Ty.Readable := by
  have named : (lift Check.newName).Keeps Token.LegalName :=
    fun count => ⟨fun _ same => by cases same; exact generatedName_legal count, nofun, nofun⟩
  rw [Check.newVar, lift_bind]
  exact keeps_bind named fun _ legal => keeps_pure (Ty.readable_var.mpr legal)

theorem keeps_signature (primitive : Primitive) :
    (lift primitive.signature).Keeps Ty.Readable := by
  have number : Ty.number.Readable := Ty.atomic_readable rfl
  have boolean : Ty.boolean.Readable := Ty.atomic_readable rfl
  have void : Ty.void.Readable := Ty.atomic_readable rfl
  cases primitive with
  | arithmetic | comparison | connective | negation | newline =>
    exact keeps_pure (Ty.readable_proc.mpr (by simp [number, boolean, void]))
  | predicate | display =>
    rw [Primitive.signature, lift_bind]
    refine keeps_bind keeps_newVar fun param readable => keeps_pure ?_
    exact Ty.readable_proc.mpr (by simp [readable, boolean, void])
  | equality =>
    rw [Primitive.signature, lift_bind]
    refine keeps_bind keeps_newVar fun first firstReadable => ?_
    rw [lift_bind]
    refine keeps_bind keeps_newVar fun second secondReadable => keeps_pure ?_
    exact Ty.readable_proc.mpr (by simp [firstReadable, secondReadable, boolean])

theorem keeps_primitive (name : String) : (lift (context.primitive name)).Keeps Ty.Readable := by
  rcases context.primitive_cases name with ⟨primitive, _, isSignature⟩ | ⟨_, isFail⟩
  · rw [isSignature]
    exact keeps_signature primitive
  · rw [isFail]
    exact keeps_fail (by simp [TypeError.Cause.types])

theorem keeps_procedure {type : Ty} (readable : type.Readable) {operands : Nat}
    {text : Unit → String} :
    (lift (context.demandProcedure type operands text)).Keeps fun found =>
      found.1.length = operands ∧ (∀ param ∈ found.1, param.Readable) ∧ found.2.Readable := by
  rcases context.demandProcedure_cases type operands text with
    ⟨params, result, rfl, fits, isPure⟩ | ⟨_, _, _, _, isFail⟩ | ⟨_, isFail⟩
  · rw [isPure]
    exact keeps_pure ⟨fits, Ty.readable_proc.mp readable⟩
  · rw [isFail]
    exact keeps_fail (by simp [TypeError.Cause.types])
  · rw [isFail]
    exact keeps_fail (by simpa [TypeError.Cause.types] using readable)

end Watch

/-! ## The typing rules -/

/-- Readable types, related to their images. -/
def TypePairing.readable (image : Ty → Ty)
    (atomic : ∀ {type}, type.isAtomic = true → image type = type)
    (join : ∀ {left right}, left.Readable → right.Readable →
      image (left.join right) = (image left).join (image right))
    (procedure : ∀ {params result}, image (.proc params result) =
      .proc (params.map image) (image result)) : TypePairing :=
  .image Ty.Readable image (fun isAtomic => ⟨Ty.atomic_readable isAtomic, atomic isAtomic⟩)
    (fun left right => ⟨Ty.join_readable left right, join left right⟩)
    fun params result => ⟨Ty.readable_proc.mpr ⟨params, result⟩, procedure⟩

/-- The node has admissible ascriptions only. -/
def Expr.AdmissibleAt (node : Expr) : Prop :=
  ∀ ascription ∈ node.ownAscriptions, ascription.Admissible

/-- Readable types, each related to itself. -/
def TypePairing.normal : TypePairing :=
  .readable id (fun _ => rfl) (fun _ _ => rfl) (by simp)

open Watch

/-- A context that is extended with readable types is noted, and what is checked in it keeps the
condition. -/
theorem Watch.keeps_within {context : Context} {check : Check Context}
    {next : Context → Watch α} {holds : α → Prop} (bound : TypePairing.normal.Bound pairs pairs')
    (inner : (lift check).Keeps (· = context.extendPairs pairs)) (readable : context.Readable)
    (nextKeeps : (context.extendPairs pairs).Readable →
      (next (context.extendPairs pairs)).Keeps holds) :
    (extending check >>= next).Keeps holds := by
  have extended := readable.extendPairs (TypePairing.bound_image bound).1
  have noted : (extending check).Keeps (· = context.extendPairs pairs) := by
    refine keeps_bind inner ?_
    rintro _ rfl _
    exact ⟨fun _ same => by cases same; rfl, nofun, List.forall_mem_singleton.mpr extended⟩
  refine keeps_bind noted ?_
  rintro _ rfl
  exact nextKeeps extended

/-- The steps keep to normal types with legal names. -/
def Watch.normalSteps : StepRelation Watch Check Unit where
  trees := .same Expr.AdmissibleAt
  types := .normal
  tally := .unit
  lawful := Tally.unit_lawful
  Rel now _ context _ values watch _ :=
    context.Readable → watch.Keeps fun value => ∃ other, values now value other
  ascribed good listed := ⟨Ty.ofAscription_readable (good _ listed), rfl⟩
  pure value _ := keeps_pure ⟨_, value⟩
  bind first next readable :=
    keeps_bind (first readable) fun _ ⟨_, value⟩ => next _ _ _ (Nat.le_refl _) value readable
  enter _ next readable := keeps_bind (keeps_log _) fun _ _ => next readable
  within bound next readable := keeps_within bound (keeps_pure rfl) readable next
  primitive _ _ _ _ := (keeps_primitive _).imp fun _ found => ⟨_, found, rfl⟩
  lookup _ _ _ readable := (keeps_lookup readable _).imp fun _ found => ⟨_, found, rfl⟩
  boolean _ _ computed _ := keeps_demand (Context.demandBoolean_outcome _ _ _)
    (List.forall_mem_singleton.mpr computed.1) ⟨(), trivial⟩
  applied _ _ computed _ := (keeps_procedure computed.1).imp fun found ⟨fits, params, result⟩ =>
    ⟨found, fits, TypePairing.forall₂_image.mpr ⟨params, (List.map_id _).symm⟩, result, rfl⟩
  compared _ _ _ comparable _ := by
    obtain ⟨⟨_, _, left, _⟩, _, _, right, _⟩ := comparable.both
    exact keeps_demand (Context.demandCompatible_outcome _ _ _ _)
      (List.forall_mem_cons.mpr ⟨left, List.forall_mem_singleton.mpr right⟩) ⟨(), trivial⟩
  empty _ _ _ _ _ _ := keeps_fail nofun
  refused _ _ _ _ _ := keeps_fail nofun

/-- The rules keep to normal types with legal names. -/
def Watch.normal : RuleRelation Watch Check Unit :=
  normalSteps.rules Tally.unit_inSequence fun bound next readable =>
    keeps_within bound (keeps_declare _) readable next

theorem Expr.watch_keeps (expr : Expr) (context : Context) (admissible : expr.Admissible)
    (readable : context.Readable) : (expr.watch context).Keeps Ty.Readable :=
  (Watch.normal.relates_expr admissible 0 context context readable).imp
    fun _ ⟨_, kept⟩ => kept.1

theorem watchSequence_keeps (exprs : List Expr) (context : Context)
    (admissible : ∀ expr ∈ exprs, expr.Admissible) (readable : context.Readable) :
    (watchSequence exprs context).Keeps Ty.Readable :=
  (Watch.normal.relates_exprs admissible 0 context context
    (fun _ _ => keeps_fail nofun) readable).imp fun _ ⟨_, kept⟩ => kept.1

theorem Program.watch_keeps (program : Program) (context : Context)
    (admissible : ∀ expr ∈ program, expr.Admissible) (readable : context.Readable) :
    (Program.watch program context).Keeps Ty.Readable :=
  keeps_bind (keeps_log _) fun _ _ => watchSequence_keeps program context admissible readable

/-! ## Sources -/

theorem Expr.WellFormed.admissible {suits : Number → Prop} {expr : Expr}
    (wellFormed : expr.WellFormed suits) : expr.Admissible := by
  intro node member
  have formed := wellFormed node member
  suffices ∀ ascription ∈ node.ownAscriptions, ascription.WellFormed from
    fun ascription own => (this ascription own).admissible
  cases node with
  | lambda place params result body =>
    obtain ⟨params, result, _⟩ := formed
    have ofParams := List.forall_mem_map.mpr fun var listed => (params var listed).2
    exact List.forall_mem_append.mpr ⟨ofParams, by simpa using result⟩
  | letForm place bindings body =>
    exact List.forall_mem_map.mpr fun binding listed => (formed.1 binding listed).2
  | letrecForm place bindings body =>
    exact List.forall_mem_map.mpr fun binding listed => (formed.1 binding listed).2
  | define place var value => simpa [ownAscriptions] using formed.2
  | _ => simp [ownAscriptions]

/-- All types that a check returns, binds in an extended context or shows in an error are in strict
normal form. -/
structure Watched.StaysNormal (watched : Watched Ty) : Prop where
  returned : ∀ type, watched.outcome.result = .ok type → type.Strict
  bound : ∀ context ∈ watched.extended, ∀ binding ∈ context.bindings, binding.2.Strict
  shown : ∀ error, watched.outcome.result = .error error → ∀ type ∈ error.cause.types, type.Strict

theorem Watched.Keeps.staysNormal {watched : Watched Ty} (kept : watched.Keeps Ty.Readable) :
    watched.StaysNormal :=
  ⟨fun type same => (kept.value type same).strict,
    fun context listed binding member => (kept.extended context listed binding member).strict,
    fun error same type listed => (kept.error error same type listed).strict⟩

/-- The type of a parsed program is read back from its text. -/
theorem checked_program_readable (parsed : Program.parse source = .ok program)
    (checked : (Program.check program).result = .ok type) : type.Readable := by
  obtain ⟨_, wellFormed⟩ := program_parse_well_formed parsed
  have kept := Program.watch_keeps program .empty
    (fun expr member => (wellFormed expr member).admissible) nofun 0
  have same : (Program.watch program .empty 0).outcome = Program.check program :=
    congrFun (Program.check_watch program .empty) 0
  exact kept.value type (by rw [same, checked])

/-- From a context of normal types with legal names, checking an expression, a sequence or a program
with admissible ascriptions meets only types in strict normal form.  So the type that is printed for
a source is read back as the type that has been computed. -/
theorem checker_stays_normal :
    (∀ (expr : Expr) (context : Context) (count : Nat), context.Readable → expr.Admissible →
      (expr.watch context count).outcome = expr.infer context count ∧
        (expr.watch context count).StaysNormal) ∧
    (∀ (exprs : List Expr) (context : Context) (count : Nat), context.Readable →
      (∀ expr ∈ exprs, expr.Admissible) →
      (watchSequence exprs context count).outcome = inferSequence exprs context count ∧
        (watchSequence exprs context count).StaysNormal) ∧
    (∀ (program : Program) (context : Context) (count : Nat), context.Readable →
      (∀ expr ∈ program, expr.Admissible) →
      (Program.watch program context count).outcome = Program.infer program context count ∧
        (Program.watch program context count).StaysNormal) ∧
    (∀ source text, typeOfSource source = .ok text →
      ∃ program type, Program.parse source = .ok program ∧
        (Program.check program).result = .ok type ∧ text = type.text ∧
        Ty.parse text = .ok type) := by
  refine ⟨fun expr context count readable admissible => ?_,
    fun exprs context count readable admissible => ?_,
    fun program context count readable admissible => ?_, fun source text typed => ?_⟩
  · exact ⟨congrFun (expr.check_watch context) count,
      (expr.watch_keeps context admissible readable count).staysNormal⟩
  · exact ⟨congrFun (check_watchSequence exprs context) count,
      (watchSequence_keeps exprs context admissible readable count).staysNormal⟩
  · exact ⟨congrFun (Program.check_watch program context) count,
      (Program.watch_keeps program context admissible readable count).staysNormal⟩
  · cases parsed : Program.parse source with
    | error error => simp [typeOfSource, parsed] at typed
    | ok program =>
      cases checked : (Program.check program).result with
      | error error => simp [typeOfSource, parsed, checked] at typed
      | ok type =>
        simp only [typeOfSource, parsed, checked, Except.ok.injEq] at typed
        refine ⟨program, type, rfl, checked, typed.symm, ?_⟩
        rw [← typed]
        exact Ty.parse_text (checked_program_readable parsed checked)

/-- A definition whose value has another type, and a source whose type is a union. -/
theorem refused_definition_stays_normal :
    let context := Context.empty.extend "x" (.union [.boolean, .number])
    let expr : Expr := .define .origin
      ⟨"y", .union .origin [.number .origin, .named .origin "a", .number .origin]⟩
      (.identifier .origin "x")
    context.Readable ∧ expr.Admissible ∧ (expr.watch context 0).StaysNormal ∧
      (expr.watch context 0).extended = [context.extend "y" (.union [.var "a", .number])] ∧
      (∃ error, (expr.infer context 0).result = .error error ∧
        error.cause.types = [.union [.var "a", .number], .union [.boolean, .number]]) ∧
      typeOfSource "(if #t #f \"s\")" = .ok "(union boolean string)" ∧
      ∃ program type, Program.parse "(if #t #f \"s\")" = .ok program ∧
        (Program.check program).result = .ok type ∧
        Ty.parse "(union boolean string)" = .ok type := by
  intro context expr
  have readable : context.Readable :=
    List.forall_mem_cons.mpr ⟨⟨by decide, by decide⟩, nofun⟩
  have legal : Token.LegalName "a" := by decide
  have admissible : expr.Admissible := by
    simp [expr, Expr.Admissible, Expr.All, Expr.nodes, Expr.ownAscriptions, Ascription.Admissible,
      Ascription.All, Ascription.nodes, Ascription.AdmissibleAt, legal]
  have typed : typeOfSource "(if #t #f \"s\")" = .ok "(union boolean string)" := by
    have decided : (typeOfSource "(if #t #f \"s\")").toOption = some "(union boolean string)" := by
      decide +kernel
    revert decided
    cases typeOfSource "(if #t #f \"s\")" <;> simp [Except.toOption]
  obtain ⟨program, type, parsed, checked, _, read⟩ := checker_stays_normal.2.2.2 _ _ typed
  exact ⟨readable, admissible, (checker_stays_normal.1 expr context 0 readable admissible).2,
    rfl, ⟨_, rfl, rfl⟩, typed, program, type, parsed, checked, read⟩

end TypedForms
