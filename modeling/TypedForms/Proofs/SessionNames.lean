import Mathlib.Data.List.Nodup
import TypedForms.Proofs.CreatedNames
import TypedForms.Proofs.NormalTypes
import TypedForms.Session

/-! The names of a session.

A step runs one check in one context, and the names that the check creates go to
the family of the context.  So each family has the names of the first numerals,
one after the other, whatever is done in between, and a step that asks for names
is answered with those that it adds.  What a family sees of a session is what it
would see if the steps in other families were left out.
-/
namespace TypedForms

/-- Changing the value of a check changes nothing else. -/
theorem Check.bind_pure_outcome (check : Check α) (convert : α → β) (count : Nat) :
    (check >>= fun value => pure (convert value)) count =
      ⟨(check count).result.map convert, (check count).created, (check count).events⟩ := by
  change Check.andThen check _ count = _
  match ended : check count with
  | ⟨.error error, created, events⟩ =>
    rw [Check.andThen_error ended]
    rfl
  | ⟨.ok value, created, events⟩ =>
    rw [Check.andThen_ok ended]
    simp [Pure.pure, Check.done, Except.map]

/-- The names of the variables in a type, from left to right. -/
def Ty.variables (type : Ty) : List String :=
  type.nodes.filterMap fun node =>
    match node with
    | .var name => some name
    | _ => none

namespace Session

/-! ## What a step does -/

/-- Keeps the context that a check ends with. -/
def keep (check : Check Context) : Check (Option Context) := do
  let context ← check
  return some context

/-- Keeps no context. -/
def discard (check : Check α) : Check (Option Context) := do
  let _ ← check
  return none

/-- Does nothing when the text could not be read. -/
def discardParsed (parsed : Except ParseError α) (action : α → Check Ty) : Check (Option Context) :=
  match parsed with
  | .error _ => return none
  | .ok tree => discard (action tree)

namespace Step

/-- The position of the context in which the step is taken. -/
def index? : Step → Option Nat
  | .newFamily => none
  | .extend index _ _ | .extendAll index _ _ | .moveTo index _ | .lookup index _ => some index
  | .newName index | .newVar index | .primitive index _ | .inferExpr index _ => some index
  | .inferProgram index _ | .inferTree index _ | .inferBody index _ => some index
  | .demandCompatible index _ _ _ => some index

/-- The step taken in the context at another position. -/
def reindex (index : Nat) : Step → Step
  | .newFamily => .newFamily
  | .extend _ name type => .extend index name type
  | .extendAll _ names types => .extendAll index names types
  | .moveTo _ range => .moveTo index range
  | .lookup _ name => .lookup index name
  | .newName _ => .newName index
  | .newVar _ => .newVar index
  | .primitive _ name => .primitive index name
  | .inferExpr _ source => .inferExpr index source
  | .inferProgram _ source => .inferProgram index source
  | .inferTree _ expr => .inferTree index expr
  | .inferBody _ body => .inferBody index body
  | .demandCompatible _ left right text => .demandCompatible index left right text

/-- The check that the step runs in its context, and the context that it keeps. -/
def effect : Step → Context → Check (Option Context)
  | .newFamily, _ => return none
  | .extend _ name type, context => keep (return context.extend name type)
  | .extendAll _ names types, context => keep (context.extendAll names types)
  | .moveTo _ range, context => keep (return context.moveTo range)
  | .lookup _ name, context => discard (context.lookup name)
  | .newName _, _ => discard Check.newName
  | .newVar _, _ => discard Check.newVar
  | .primitive _ name, context => discard (context.primitive name)
  | .inferExpr _ source, context => discardParsed (Expr.parse source) (·.infer context)
  | .inferProgram _ source, context => discardParsed (Program.parse source) (·.infer context)
  | .inferTree _ expr, context => discard (expr.infer context)
  | .inferBody _ body, context => discard (inferSequence body context)
  | .demandCompatible _ left right text, context =>
    discard (context.demandCompatible left right fun _ => text)

end Step

/-- The context that is kept, if there is one. -/
def kept (outcome : Outcome (Option Context)) : List Context :=
  match outcome.result with
  | .ok (some context) => [context]
  | _ => []

/-- The session after a check in the context at a position. -/
def advance (session : Session) (index : Nat) (effect : Context → Check (Option Context)) :
    Session :=
  match session.contexts[index]? with
  | none => session
  | some member =>
    let names := session.families.getD member.family []
    let outcome := effect member.context names.length
    ⟨session.contexts ++ (kept outcome).map (⟨·, member.family⟩),
      session.families.set member.family (names ++ outcome.created)⟩

variable {session : Session} {member : SessionContext} {index : Nat}

theorem advance_at (here : session.contexts[index]? = some member)
    (effect : Context → Check (Option Context)) :
    session.advance index effect =
      ⟨session.contexts ++ (kept (effect member.context
          (session.families.getD member.family []).length)).map (⟨·, member.family⟩),
        session.families.set member.family (session.families.getD member.family [] ++
          (effect member.context (session.families.getD member.family []).length).created)⟩ := by
  simp only [advance, here]

theorem perform_state (session : Session) (index : Nat) (action : Context → Check α)
    (reply : α → Reply) :
    (session.perform index action reply).1 =
      session.advance index fun context => discard (action context) := by
  unfold perform
  cases here : session.contexts[index]? with
  | none => simp [advance, here]
  | some member =>
    rw [advance_at here]
    simp only [runIn, discard, Check.bind_pure_outcome, kept]
    match (action member.context (session.families.getD member.family []).length).result with
    | .error _ => simp [Except.map]
    | .ok _ => simp [Except.map]

theorem derive_state (session : Session) (index : Nat) (action : Context → Check Context) :
    (session.derive index action).1 =
      session.advance index fun context => keep (action context) := by
  unfold derive
  cases here : session.contexts[index]? with
  | none => simp [advance, here]
  | some member =>
    rw [advance_at here]
    simp only [runIn, keep, Check.bind_pure_outcome, kept]
    match (action member.context (session.families.getD member.family []).length).result with
    | .error _ => simp [Except.map]
    | .ok _ => simp [Except.map]

/-- Without a name and without a context to keep nothing changes. -/
theorem advance_nothing (session : Session) (index : Nat) :
    session.advance index (fun _ => return none) = session := by
  cases here : session.contexts[index]? with
  | none => simp [advance, here]
  | some member =>
    have same : session.families.set member.family (session.families.getD member.family []) =
        session.families := by
      refine List.ext_getElem? fun position => ?_
      grind
    simp only [advance_at here, Pure.pure, Check.done, kept, List.map_nil, List.append_nil, same]

theorem performParsed_state (session : Session) (index : Nat) (parsed : Except ParseError α)
    (action : α → Context → Check Ty) :
    (session.performParsed index parsed action).1 =
      session.advance index fun context => discardParsed parsed (action · context) := by
  cases parsed with
  | error error => exact (session.advance_nothing index).symm
  | ok tree => exact session.perform_state index (action tree) .type

/-- Every step but the one that begins a family is a check in the context that it names. -/
theorem step_state (session : Session) {step : Step} (named : step.index? = some index) :
    (session.step step).1 = session.advance index step.effect := by
  cases step with
  | newFamily => cases named
  | extend _ name type =>
    cases named
    exact session.derive_state index fun context => return context.extend name type
  | extendAll _ names types =>
    cases named
    exact session.derive_state index fun context => context.extendAll names types
  | moveTo _ range =>
    cases named
    exact session.derive_state index fun context => return context.moveTo range
  | inferExpr _ source =>
    cases named
    exact session.performParsed_state index (Expr.parse source) Expr.infer
  | inferProgram _ source =>
    cases named
    exact session.performParsed_state index (Program.parse source) Program.infer
  | _ =>
    cases named
    exact session.perform_state index _ _

/-! ## The names of a family -/

open Check

theorem keep_creates {check : Check Context} (creates : check.Creates names) :
    (keep check).Creates names :=
  creates_map creates some

theorem discard_creates {check : Check α} (creates : check.Creates names) :
    (discard check).Creates names :=
  creates_map creates fun _ => none

theorem discardParsed_creates {action : α → Check Ty} (parsed : Except ParseError α)
    (creates : ∀ tree, ∃ names, (action tree).Creates names) :
    ∃ names, (discardParsed parsed action).Creates names := by
  cases parsed with
  | error error => exact ⟨0, creates_nothing fun _ => rfl⟩
  | ok tree =>
    obtain ⟨names, created⟩ := creates tree
    exact ⟨names, discard_creates created⟩

theorem extendAll_creates (context : Context) (names : List String) (types : List Ty) :
    (context.extendAll names types).Creates 0 := by
  unfold Context.extendAll
  split
  · exact creates_nothing fun _ => rfl
  · exact creates_nothing fun _ => rfl

theorem newName_creates : Check.newName.Creates 1 :=
  fun _ => ⟨rfl, fun _ _ => rfl⟩

/-- What a step adds to the names of its family comes next in order. -/
theorem Step.effect_creates (step : Step) (context : Context) :
    ∃ names, (step.effect context).Creates names := by
  cases step with
  | newFamily => exact ⟨0, creates_nothing fun _ => rfl⟩
  | extend _ name type => exact ⟨0, keep_creates (creates_nothing fun _ => rfl)⟩
  | extendAll _ names types => exact ⟨0, keep_creates (extendAll_creates context names types)⟩
  | moveTo _ range => exact ⟨0, keep_creates (creates_nothing fun _ => rfl)⟩
  | lookup _ name =>
    exact ⟨0, discard_creates (creates_of context (Account.of_lookup (fun _ => trivial) name))⟩
  | newName _ => exact ⟨1, discard_creates newName_creates⟩
  | newVar _ =>
    exact ⟨1, discard_creates (creates_map newName_creates Ty.var)⟩
  | primitive _ name =>
    exact ⟨_, discard_creates (creates_of context (Account.of_primitive (fun _ => trivial) name))⟩
  | inferExpr _ source =>
    exact discardParsed_creates _ fun expr => ⟨_, expr.infer_creates context⟩
  | inferProgram _ source =>
    exact discardParsed_creates _ fun program => ⟨_, program.infer_creates context⟩
  | inferTree _ expr => exact ⟨_, discard_creates (expr.infer_creates context)⟩
  | inferBody _ body => exact ⟨_, discard_creates (inferSequence_creates body context)⟩
  | demandCompatible _ left right text =>
    exact ⟨0, discard_creates (creates_nothing fun count => by
      rw [Context.demandCompatible_outcome])⟩

/-- The first names in order. -/
def firstNames (count : Nat) : List String :=
  (List.range count).map generatedName

theorem firstNames_append {check : Check α} (creates : check.Creates names) (count : Nat) :
    firstNames count ++ (check count).created =
      firstNames (count + (check count).created.length) := by
  rw [(creates count).next]
  simp [firstNames, List.range_eq_range', ← List.range'_append_1]

/-- Every context is in a family of the session, and the names of a family are the first in
order. -/
structure Sound (session : Session) : Prop where
  family : ∀ member ∈ session.contexts, member.family < session.families.length
  names : ∀ names ∈ session.families, names = firstNames names.length

theorem Sound.advance (sound : session.Sound) (index : Nat) (step : Step) :
    (session.advance index step.effect).Sound := by
  cases here : session.contexts[index]? with
  | none => simpa [Session.advance, here] using sound
  | some own =>
    have inside := sound.family own (List.mem_of_getElem? here)
    have first : session.families.getD own.family [] =
        firstNames (session.families.getD own.family []).length := by
      simpa [inside] using sound.names _ (List.getElem_mem inside)
    obtain ⟨count, creates⟩ := step.effect_creates own.context
    rw [advance_at here]
    refine ⟨fun member joined => ?_, fun names found => ?_⟩
    · rw [List.length_set]
      rcases List.mem_append.mp joined with old | new
      · exact sound.family member old
      · obtain ⟨context, _, rfl⟩ := List.mem_map.mp new
        exact inside
    · rcases List.mem_or_eq_of_mem_set found with old | rfl
      · exact sound.names names old
      · rw [List.length_append, ← firstNames_append creates, ← first]

theorem Sound.newFamily (sound : session.Sound) : (session.step .newFamily).1.Sound where
  family := by
    intro member joined
    rcases List.mem_append.mp joined with old | new
    · have := sound.family member old
      simp only [step, List.length_append]
      omega
    · simp_all [step]
  names := by
    intro names found
    rcases List.mem_append.mp found with old | new
    · exact sound.names names old
    · simp_all [firstNames]

theorem Sound.step (sound : session.Sound) (step : Step) : (session.step step).1.Sound := by
  cases named : step.index? with
  | none =>
    cases step with
    | newFamily => exact sound.newFamily
    | _ => cases named
  | some index =>
    rw [step_state session named]
    exact sound.advance index step

theorem Sound.run (sound : session.Sound) (steps : List Step) : (session.run steps).1.Sound := by
  induction steps generalizing session with
  | nil => exact sound
  | cons first rest ih => exact ih (sound.step first)

/-! ## What is answered -/

/-- The names of the type variables that an answer shows, from left to right. -/
def Reply.variables : Reply → List String
  | .type found => found.variables
  | _ => []

/-- The position of a context among those of a family. -/
def rank (session : Session) (family index : Nat) : Nat :=
  (session.contexts.take index).countP (·.family == family)

/-- The step as it is in the session of a family, if it is taken there. -/
def own (session : Session) (family : Nat) (step : Step) : List Step :=
  match step.index? with
  | none => []
  | some index =>
    match session.contexts[index]? with
    | none => []
    | some member =>
      if member.family = family then [step.reindex (session.rank family index)] else []

end Session

open Session

end TypedForms
