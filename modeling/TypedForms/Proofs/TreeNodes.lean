import TypedForms.Tree.Printer

/-! The nodes of ascriptions and expressions.  Trees hold lists of trees, so
each kind gets an induction whose hypotheses speak about the members of its
lists, a list of all nodes at any depth, and a copy without places.  Two trees
are the same up to places when their copies are equal.
-/
namespace TypedForms

/-! ## Ascriptions -/

namespace Ascription

/-- Induction over an ascription: a procedure type or union may assume the statement of all that
it is built from. -/
@[induction_eliminator]
theorem induct {motive : Ascription → Prop}
    (number : ∀ range, motive (.number range)) (boolean : ∀ range, motive (.boolean range))
    (string : ∀ range, motive (.string range)) (void : ∀ range, motive (.void range))
    (named : ∀ range name, motive (.named range name))
    (proc : ∀ range params result, (∀ param ∈ params, motive param) → motive result →
      motive (.proc range params result))
    (union : ∀ range members, (∀ member ∈ members, motive member) → motive (.union range members))
    (ascription : Ascription) : motive ascription :=
  @Ascription.rec motive (fun list => ∀ ascription ∈ list, motive ascription)
    number boolean string void named proc union (fun _ member => nomatch member)
    (fun _ _ first later => List.forall_mem_cons.mpr ⟨first, later⟩) ascription

theorem texts_eq_map (list : List Ascription) : texts list = list.map text := by
  induction list with
  | nil => rfl
  | cons first rest ih => simp [texts, ih]

mutual

/-- The ascription without its places. -/
def unplaced : Ascription → Ascription
  | .number _ => .number .origin
  | .boolean _ => .boolean .origin
  | .string _ => .string .origin
  | .void _ => .void .origin
  | .named _ name => .named .origin name
  | .proc _ params result => .proc .origin (unplacedAll params) result.unplaced
  | .union _ members => .union .origin (unplacedAll members)

/-- The ascriptions of a list without their places. -/
def unplacedAll : List Ascription → List Ascription
  | [] => []
  | first :: rest => first.unplaced :: unplacedAll rest

end

@[simp] theorem unplacedAll_eq_map (list : List Ascription) :
    unplacedAll list = list.map unplaced := by
  induction list with
  | nil => rfl
  | cons first rest ih => simp [unplacedAll, ih]

mutual

/-- The ascription and every ascription inside it. -/
def nodes : Ascription → List Ascription
  | .proc range params result => .proc range params result :: (nodesAll params ++ result.nodes)
  | .union range members => .union range members :: nodesAll members
  | ascription => [ascription]

/-- The nodes of the ascriptions of a list. -/
def nodesAll : List Ascription → List Ascription
  | [] => []
  | first :: rest => first.nodes ++ nodesAll rest

end

@[simp] theorem nodesAll_eq_flatMap (list : List Ascription) :
    nodesAll list = list.flatMap nodes := by
  induction list with
  | nil => rfl
  | cons first rest ih => simp [nodesAll, ih]

/-- Every node satisfies the condition. -/
def All (holds : Ascription → Prop) (ascription : Ascription) : Prop :=
  ∀ node ∈ ascription.nodes, holds node

variable {holds : Ascription → Prop} {place : Range}

theorem all_leaf (leaf : ascription.nodes = [ascription]) :
    ascription.All holds ↔ holds ascription := by
  simp [All, leaf]

theorem all_proc : (proc place params result).All holds ↔
    holds (.proc place params result) ∧ (∀ param ∈ params, param.All holds) ∧
      result.All holds := by
  simp only [All, nodes, nodesAll_eq_flatMap, List.forall_mem_cons, List.forall_mem_append,
    List.forall_mem_flatMap]

theorem all_union : (union place members).All holds ↔
    holds (.union place members) ∧ ∀ member ∈ members, member.All holds := by
  simp only [All, nodes, nodesAll_eq_flatMap, List.forall_mem_cons, List.forall_mem_flatMap]

end Ascription

/-! ## Expressions -/

namespace TypedVar

/-- The variable without the places of its type. -/
def unplaced (var : TypedVar) : TypedVar := ⟨var.name, var.type.unplaced⟩

end TypedVar

namespace Expr

/-- Induction over an expression: every form may assume the statement of the expressions that it
holds, the values of its bindings included. -/
@[induction_eliminator]
theorem induct {motive : Expr → Prop}
    (number : ∀ range value, motive (.number range value))
    (boolean : ∀ range value, motive (.boolean range value))
    (string : ∀ range content, motive (.string range content))
    (identifier : ∀ range name, motive (.identifier range name))
    (primitive : ∀ range name, motive (.primitive range name))
    (conditional : ∀ range test thenBranch elseBranch, motive test → motive thenBranch →
      motive elseBranch → motive (.conditional range test thenBranch elseBranch))
    (lambda : ∀ range params result body, (∀ expr ∈ body, motive expr) →
      motive (.lambda range params result body))
    (application : ∀ range operator operands, motive operator →
      (∀ operand ∈ operands, motive operand) → motive (.application range operator operands))
    (letForm : ∀ range bindings body, (∀ binding ∈ bindings, motive binding.value) →
      (∀ expr ∈ body, motive expr) → motive (.letForm range bindings body))
    (letrecForm : ∀ range bindings body, (∀ binding ∈ bindings, motive binding.value) →
      (∀ expr ∈ body, motive expr) → motive (.letrecForm range bindings body))
    (define : ∀ range var value, motive value → motive (.define range var value))
    (expr : Expr) : motive expr :=
  @Expr.rec motive (fun binding => motive binding.value) (fun list => ∀ expr ∈ list, motive expr)
    (fun list => ∀ binding ∈ list, motive binding.value)
    number boolean string identifier primitive conditional lambda application letForm letrecForm
    define (fun _ _ value => value) (fun _ member => nomatch member)
    (fun _ _ first later => List.forall_mem_cons.mpr ⟨first, later⟩)
    (fun _ member => nomatch member)
    (fun _ _ first later => List.forall_mem_cons.mpr ⟨first, later⟩) expr

theorem texts_eq_map (list : List Expr) : texts list = list.map text := by
  induction list with
  | nil => rfl
  | cons first rest ih => simp [texts, ih]

theorem bindingTexts_eq_map (list : List Binding) :
    bindingTexts list = list.map fun binding =>
      "(" ++ binding.var.text ++ " " ++ binding.value.text ++ ")" := by
  induction list with
  | nil => rfl
  | cons first rest ih =>
    cases first with
    | mk var value => simp [bindingTexts, ih, Binding.var, Binding.value]

mutual

/-- The expression without its places. -/
def unplaced : Expr → Expr
  | .number _ value => .number .origin value
  | .boolean _ value => .boolean .origin value
  | .string _ content => .string .origin content
  | .identifier _ name => .identifier .origin name
  | .primitive _ name => .primitive .origin name
  | .conditional _ test thenBranch elseBranch =>
    .conditional .origin test.unplaced thenBranch.unplaced elseBranch.unplaced
  | .lambda _ params result body =>
    .lambda .origin (params.map TypedVar.unplaced) result.unplaced (unplacedAll body)
  | .application _ operator operands =>
    .application .origin operator.unplaced (unplacedAll operands)
  | .letForm _ bindings body => .letForm .origin (unplacedBindings bindings) (unplacedAll body)
  | .letrecForm _ bindings body =>
    .letrecForm .origin (unplacedBindings bindings) (unplacedAll body)
  | .define _ var value => .define .origin var.unplaced value.unplaced

/-- The expressions of a list without their places. -/
def unplacedAll : List Expr → List Expr
  | [] => []
  | first :: rest => first.unplaced :: unplacedAll rest

/-- The bindings of a list without their places. -/
def unplacedBindings : List Binding → List Binding
  | [] => []
  | .mk var value :: rest => .mk var.unplaced value.unplaced :: unplacedBindings rest

end

mutual

/-- The expression and every expression inside it, in the order in which they are written. -/
def nodes : Expr → List Expr
  | .conditional range test thenBranch elseBranch =>
    .conditional range test thenBranch elseBranch ::
      (test.nodes ++ thenBranch.nodes ++ elseBranch.nodes)
  | .lambda range params result body => .lambda range params result body :: nodesAll body
  | .application range operator operands =>
    .application range operator operands :: (operator.nodes ++ nodesAll operands)
  | .letForm range bindings body =>
    .letForm range bindings body :: (bindingNodes bindings ++ nodesAll body)
  | .letrecForm range bindings body =>
    .letrecForm range bindings body :: (bindingNodes bindings ++ nodesAll body)
  | .define range var value => .define range var value :: value.nodes
  | expr => [expr]

/-- The nodes of the expressions of a list. -/
def nodesAll : List Expr → List Expr
  | [] => []
  | first :: rest => first.nodes ++ nodesAll rest

/-- The nodes of the values of a list of bindings. -/
def bindingNodes : List Binding → List Expr
  | [] => []
  | .mk _ value :: rest => value.nodes ++ bindingNodes rest

end

end Expr

/-- The binding without its places. -/
def Binding.unplaced (binding : Binding) : Binding :=
  .mk binding.var.unplaced binding.value.unplaced

namespace Expr

@[simp] theorem unplacedAll_eq_map (list : List Expr) : unplacedAll list = list.map unplaced := by
  induction list with
  | nil => rfl
  | cons first rest ih => simp [unplacedAll, ih]

theorem ne_nil_of_unplaced {others exprs : List Expr}
    (same : others.map unplaced = exprs.map unplaced) (nonempty : exprs ≠ []) : others ≠ [] := by
  rintro rfl
  exact nonempty (List.map_eq_nil_iff.mp same.symm)

@[simp] theorem unplacedBindings_eq_map (list : List Binding) :
    unplacedBindings list = list.map Binding.unplaced := by
  induction list with
  | nil => rfl
  | cons first rest ih =>
    cases first with
    | mk var value => simp [unplacedBindings, ih, Binding.unplaced, Binding.var, Binding.value]

@[simp] theorem nodesAll_eq_flatMap (list : List Expr) : nodesAll list = list.flatMap nodes := by
  induction list with
  | nil => rfl
  | cons first rest ih => simp [nodesAll, ih]

@[simp] theorem bindingNodes_eq_flatMap (list : List Binding) :
    bindingNodes list = list.flatMap fun binding => binding.value.nodes := by
  induction list with
  | nil => rfl
  | cons first rest ih =>
    cases first with
    | mk var value => simp [bindingNodes, ih, Binding.value]

/-- Every node satisfies the condition. -/
def All (holds : Expr → Prop) (expr : Expr) : Prop :=
  ∀ node ∈ expr.nodes, holds node

variable {holds : Expr → Prop} {place : Range}

theorem all_leaf {expr : Expr} (leaf : expr.nodes = [expr]) : expr.All holds ↔ holds expr := by
  simp [All, leaf]

/-- What holds of every node holds of the first, the expression itself. -/
theorem All.here {expr : Expr} (all : expr.All holds) : holds expr := by
  refine all expr ?_
  cases expr <;> exact List.mem_cons_self

theorem all_conditional : (conditional place test thenBranch elseBranch).All holds ↔
    holds (.conditional place test thenBranch elseBranch) ∧ test.All holds ∧
      thenBranch.All holds ∧ elseBranch.All holds := by
  simp only [All, nodes, List.forall_mem_cons, List.forall_mem_append, and_assoc]

theorem all_lambda : (lambda place params result body).All holds ↔
    holds (.lambda place params result body) ∧ ∀ expr ∈ body, expr.All holds := by
  simp only [All, nodes, nodesAll_eq_flatMap, List.forall_mem_cons, List.forall_mem_flatMap]

theorem all_application : (application place operator operands).All holds ↔
    holds (.application place operator operands) ∧ operator.All holds ∧
      ∀ operand ∈ operands, operand.All holds := by
  simp only [All, nodes, nodesAll_eq_flatMap, List.forall_mem_cons, List.forall_mem_append,
    List.forall_mem_flatMap]

theorem all_letForm : (letForm place bindings body).All holds ↔
    holds (.letForm place bindings body) ∧ (∀ binding ∈ bindings, binding.value.All holds) ∧
      ∀ expr ∈ body, expr.All holds := by
  simp only [All, nodes, nodesAll_eq_flatMap, bindingNodes_eq_flatMap, List.forall_mem_cons,
    List.forall_mem_append, List.forall_mem_flatMap]

theorem all_letrecForm : (letrecForm place bindings body).All holds ↔
    holds (.letrecForm place bindings body) ∧ (∀ binding ∈ bindings, binding.value.All holds) ∧
      ∀ expr ∈ body, expr.All holds := by
  simp only [All, nodes, nodesAll_eq_flatMap, bindingNodes_eq_flatMap, List.forall_mem_cons,
    List.forall_mem_append, List.forall_mem_flatMap]

theorem all_define : (define place var value).All holds ↔
    holds (.define place var value) ∧ value.All holds := by
  simp only [All, nodes, List.forall_mem_cons]

/-- The ascriptions that are written at the node itself. -/
def ownAscriptions : Expr → List Ascription
  | .lambda _ params result _ => params.map TypedVar.type ++ [result]
  | .letForm _ bindings _ => bindings.map fun binding => binding.var.type
  | .letrecForm _ bindings _ => bindings.map fun binding => binding.var.type
  | .define _ var _ => [var.type]
  | _ => []

/-- The body of a form that has one. -/
def body? : Expr → Option (List Expr)
  | .lambda _ _ _ body | .letForm _ _ body | .letrecForm _ _ body => some body
  | _ => none

end Expr

end TypedForms
