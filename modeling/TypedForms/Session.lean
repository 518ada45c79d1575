import TypedForms.Checker

/-! Sessions: contexts that are built and used one after the other.

Contexts that were derived from one another form a family.  Names are counted
by family, in whichever of its contexts they are created, so no name is created
twice in it, and families know nothing of each other.
-/
namespace TypedForms

/-- A context of a session and the family that it belongs to. -/
structure SessionContext where
  context : Context
  family : Nat

/-- The contexts in the order in which they were built, and the names created in each family. -/
structure Session where
  contexts : List SessionContext
  families : List (List String)

namespace Session

/-- What can be done in a session.  Contexts are named by their position. -/
inductive Step where
  /-- An empty context that begins a family of its own. -/
  | newFamily
  | extend (index : Nat) (name : String) (type : Ty)
  | extendAll (index : Nat) (names : List String) (types : List Ty)
  | moveTo (index : Nat) (range : Range)
  | lookup (index : Nat) (name : String)
  | newName (index : Nat)
  | newVar (index : Nat)
  | primitive (index : Nat) (name : String)
  | inferExpr (index : Nat) (source : String)
  | inferProgram (index : Nat) (source : String)
  | inferTree (index : Nat) (expr : Expr)
  | inferBody (index : Nat) (body : List Expr)
  | demandCompatible (index : Nat) (left right : Ty) (text : String)

/-- What a step answers. -/
inductive Reply where
  | context (index : Nat)
  | type (type : Ty)
  | name (name : String)
  | compatible
  | parseError (error : ParseError)
  | typeError (error : TypeError)
  | noSuchContext

/-- A session begins with one empty context. -/
def start : Session := ⟨[⟨.empty, 0⟩], [[]]⟩

/-- Runs a check in a context.  The names it creates belong to the context's family, also when it
fails. -/
def runIn (session : Session) (member : SessionContext) (action : Context → Check α) :
    Session × Except TypeError α :=
  let names := session.families.getD member.family []
  let outcome := action member.context names.length
  ({ session with families := session.families.set member.family (names ++ outcome.created) },
    outcome.result)

/-- Runs a check in the context at a position and answers with its result. -/
def perform (session : Session) (index : Nat) (action : Context → Check α) (reply : α → Reply) :
    Session × Reply :=
  match session.contexts[index]? with
  | none => (session, .noSuchContext)
  | some member =>
    match session.runIn member action with
    | (session, .error error) => (session, .typeError error)
    | (session, .ok value) => (session, reply value)

/-- Builds a context from the one at a position; it joins the family. -/
def derive (session : Session) (index : Nat) (action : Context → Check Context) :
    Session × Reply :=
  match session.contexts[index]? with
  | none => (session, .noSuchContext)
  | some member =>
    match session.runIn member action with
    | (session, .error error) => (session, .typeError error)
    | (session, .ok context) =>
      ({ session with contexts := session.contexts ++ [⟨context, member.family⟩] },
        .context session.contexts.length)

/-- Reads a source text and then runs the check that it asks for. -/
def performParsed (session : Session) (index : Nat) (parsed : Except ParseError α)
    (action : α → Context → Check Ty) : Session × Reply :=
  match parsed with
  | .error error => (session, .parseError error)
  | .ok tree => session.perform index (action tree) .type

/-- Takes one step. -/
def step (session : Session) : Step → Session × Reply
  | .newFamily =>
    (⟨session.contexts ++ [⟨.empty, session.families.length⟩], session.families ++ [[]]⟩,
      .context session.contexts.length)
  | .extend index name type => session.derive index fun context => return context.extend name type
  | .extendAll index names types =>
    session.derive index fun context => context.extendAll names types
  | .moveTo index range => session.derive index fun context => return context.moveTo range
  | .lookup index name => session.perform index (fun context => context.lookup name) .type
  | .newName index => session.perform index (fun _ => Check.newName) .name
  | .newVar index => session.perform index (fun _ => Check.newVar) .type
  | .primitive index name => session.perform index (fun context => context.primitive name) .type
  | .inferExpr index source => session.performParsed index (Expr.parse source) Expr.infer
  | .inferProgram index source => session.performParsed index (Program.parse source) Program.infer
  | .inferTree index expr => session.perform index expr.infer .type
  | .inferBody index body => session.perform index (inferSequence body) .type
  | .demandCompatible index left right text =>
    session.perform index (fun context => context.demandCompatible left right fun _ => text)
      fun _ => .compatible

/-- Takes steps one after the other; a step that fails does not end the session. -/
def run (session : Session) : List Step → Session × List Reply
  | [] => (session, [])
  | first :: rest =>
    let (next, reply) := session.step first
    let (last, replies) := next.run rest
    (last, reply :: replies)

end Session

end TypedForms
