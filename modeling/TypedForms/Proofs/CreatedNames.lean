import Mathlib.Data.Nat.Digits.Defs
import TypedForms.Proofs.CheckAccounts

/-! The names that a check creates.

The name created after `n` others is a prime and the numeral of `n` in base 26,
so different counts give different names.  Whether it succeeds or fails, a check
creates the names that come next, without a gap.  When it succeeds it has created
one for each use of a predicate or of `display`, and two for each use of an
equality.
-/
namespace TypedForms

/-! ## Numerals -/

/-- The digits of a number in base 26, the most significant first.  Zero has one digit. -/
def numeralDigits (n : Nat) : List Nat :=
  if n = 0 then [0] else (Nat.digits 26 n).reverse

/-- The letter that stands for a digit, from `a` for zero to `z`. -/
def digitLetter (digit : Nat) : Char :=
  Char.ofNat ('a'.toNat + digit)

theorem baseLetters_eq_numeral (n : Nat) : baseLetters n = (numeralDigits n).map digitLetter := by
  fun_induction baseLetters n with
  | case1 n small =>
    by_cases zero : n = 0
    · simp [numeralDigits, zero, digitLetter]
    · simp [numeralDigits, zero, Nat.digits_of_lt 26 n zero small, digitLetter]
  | case2 n large ih =>
    have positive : n ≠ 0 := by omega
    have rest : n / 26 ≠ 0 := by omega
    simp only [numeralDigits, rest, ↓reduceIte] at ih
    simp [numeralDigits, positive, Nat.digits_def' (by decide : 1 < 26) (by omega : 0 < n), ih,
      digitLetter]

theorem numeralDigits_small (n : Nat) : ∀ digit ∈ numeralDigits n, digit < 26 := by
  intro digit member
  unfold numeralDigits at member
  split at member
  · simp_all
  · exact Nat.digits_lt_base (by decide) (List.mem_reverse.mp member)

theorem ofDigits_numeralDigits (n : Nat) : Nat.ofDigits 26 (numeralDigits n).reverse = n := by
  unfold numeralDigits
  split
  · simp_all
  · rw [List.reverse_reverse, Nat.ofDigits_digits]

/-- A letter tells its digit, so a numeral tells its number. -/
theorem digit_of_letter : ∀ digit < 26, (digitLetter digit).toNat - 'a'.toNat = digit := by
  decide

theorem generatedName_injective : Function.Injective generatedName := by
  intro m n same
  have letters : baseLetters m = baseLetters n := by
    simpa [generatedName] using congrArg String.toList same
  have digits : ∀ k, (baseLetters k).map (fun c => c.toNat - 'a'.toNat) = numeralDigits k := by
    intro k
    rw [baseLetters_eq_numeral, List.map_map]
    refine (List.map_congr_left fun digit member => ?_).trans (List.map_id _)
    exact digit_of_letter digit (numeralDigits_small k digit member)
  rw [← ofDigits_numeralDigits m, ← digits m, letters, digits n, ofDigits_numeralDigits n]

/-! ## Occurrences of operators -/

namespace Expr

/-- The operators that get one type variable at every use. -/
def singleVariable : List String :=
  ["number?", "boolean?", "string?", "list?", "pair?", "symbol?", "display"]

/-- The operators that get two type variables at every use. -/
def twoVariables : List String :=
  ["eq?", "string=?"]

/-- The node is one of the operators. -/
def isOperatorOf (names : List String) : Expr → Bool
  | .primitive _ name => names.contains name
  | _ => false

/-- The names that a list of nodes asks for. -/
def namesFor (nodes : List Expr) : Nat :=
  nodes.countP (isOperatorOf singleVariable) + 2 * nodes.countP (isOperatorOf twoVariables)

theorem namesFor_append (first second : List Expr) :
    namesFor (first ++ second) = namesFor first + namesFor second := by
  simp only [namesFor, List.countP_append]
  omega

theorem namesFor_cons (node : Expr) (rest : List Expr) :
    namesFor (node :: rest) = namesFor [node] + namesFor rest :=
  namesFor_append [node] rest

/-- An operator that has a type asks for as many names as it has variables. -/
theorem namesFor_primitive {primitive : Primitive} (place : Range)
    (found : Primitive.ofName? name = some primitive) :
    namesFor [.primitive place name] = primitive.variables := by
  obtain ⟨before, after, split, _⟩ := List.lookup_eq_some_iff.mp found
  have listed : (name, primitive) ∈ Primitive.table := by simp [split]
  have agree : Primitive.table.all (fun pair =>
      namesFor [.primitive place pair.1] == pair.2.variables) = true := rfl
  simpa using List.all_eq_true.mp agree _ listed

end Expr

/-- The names that the operators of a tree ask for, added up.  A lambda that a `letrec` binds is not
entered, but asks for no name of its own. -/
def Tally.names : Tally Nat where
  none := 0
  add := (· + ·)
  enter _ inside := inside
  within _ inside := inside
  identifier _ := 0
  primitive name := Expr.namesFor [.primitive .origin name]
  expr tree := Expr.namesFor tree.nodes
  sequence exprs := Expr.namesFor (Expr.nodesAll exprs)
  operands operands := Expr.namesFor (Expr.nodesAll operands)
  values bindings := Expr.namesFor (Expr.bindingNodes bindings)
  bodies bindings := Expr.namesFor (Expr.bindingNodes bindings)

theorem Expr.namesFor_nodes (tree : Expr) :
    Tally.names.expr tree = Tally.names.enter tree (Tally.names.inside tree) := by
  have uncounted : ∀ node rest, namesFor [node] = 0 → namesFor (node :: rest) = namesFor rest := by
    intro node rest unasked
    rw [namesFor_cons, unasked, Nat.zero_add]
  cases tree with
  | number | boolean | string | identifier | primitive => rfl
  | conditional =>
    refine (uncounted _ _ rfl).trans ?_
    rw [List.append_assoc, namesFor_append, namesFor_append]
    rfl
  | lambda | define => exact uncounted _ _ rfl
  | application | letForm | letrecForm => exact (uncounted _ _ rfl).trans (namesFor_append _ _)

theorem Tally.names_lawful : names.Lawful where
  none_add := Nat.zero_add
  add_none := Nat.add_zero
  expr := Expr.namesFor_nodes
  sequence last := by simp [names]
  operands_nil := rfl
  operands_cons _ _ := Expr.namesFor_append _ _
  values_nil := rfl
  values_cons _ _ _ := Expr.namesFor_append _ _
  bodies_nil := rfl
  bodies_cons _ range params result body rest := by
    refine (Expr.namesFor_append _ _).trans ?_
    exact congrArg (· + _) (Expr.namesFor_nodes (.lambda range params result body))

/-! ## The names of a check -/

/-- The names created are those that come next.  When the check has succeeded there are as many as
were asked for. -/
structure Outcome.Creates (count names : Nat) (outcome : Outcome α) : Prop where
  next : outcome.created = (List.range' count outcome.created.length).map generatedName
  all : ∀ value, outcome.result = .ok value → outcome.created.length = names

theorem Outcome.creates_nothing {outcome : Outcome α} (nothing : outcome.created = []) :
    outcome.Creates count 0 :=
  ⟨by simp [nothing], fun _ _ => by simp [nothing]⟩

theorem Outcome.creates_error {error : TypeError} {log : List Event} :
    (⟨.error error, [], log⟩ : Outcome α).Creates count names :=
  ⟨rfl, nofun⟩

/-- Every check creates the names that come next, as many as its tree asks for when it succeeds. -/
def Account.names : Account Nat where
  tally := .names
  lawful := Tally.names_lawful
  Holds names _ count outcome := outcome.Creates count names
  done _ := Outcome.creates_nothing rfl
  refused _ _ := Outcome.creates_error
  failed creates := ⟨creates.next, nofun⟩
  went first second := by
    refine ⟨?_, fun value succeeded => ?_⟩
    · rw [List.length_append, ← List.range'_append_1, List.map_append]
      exact congrArg₂ _ first.next second.next
    · rw [List.length_append, second.all value succeeded]
      exact congrArg (· + _) (first.all _ rfl)
  enter creates := ⟨creates.next, creates.all⟩
  within creates := creates
  primitive found := by
    refine ⟨by simp, fun _ _ => ?_⟩
    rw [List.length_map, List.length_range']
    exact (Expr.namesFor_primitive .origin found).symm
  found _ := Outcome.creates_nothing rfl
  missed _ := Outcome.creates_error

theorem Account.names_sequential : names.Sequential where
  adds _ _ _ := Expr.namesFor_append _ _
  announced _ creates := Outcome.Creates.mk creates.next creates.all

namespace Check

/-- A check that creates the names that come next, as many as asked for when it succeeds. -/
def Creates (names : Nat) (check : Check α) : Prop :=
  ∀ count, (check count).Creates count names

variable {names : Nat}

theorem creates_of {check : Check α} (context : Context)
    (ofCheck : Account.names.Of names context (fun _ => True) check) : check.Creates names :=
  fun count => (ofCheck count).1

theorem creates_nothing {check : Check α} (nothing : ∀ count, (check count).created = []) :
    check.Creates 0 :=
  fun count => Outcome.creates_nothing (nothing count)

theorem creates_map {check : Check α} (creates : check.Creates names) (f : α → β) :
    (check >>= fun value => pure (f value)).Creates names := by
  intro count
  have ended := creates count
  refine bind_elim (fun error created events failed => ?_) fun value created events went => ?_
  · rw [failed] at ended
    exact ⟨ended.next, nofun⟩
  · rw [went] at ended
    have same : created ++ [] = created := List.append_nil created
    exact ⟨same.symm ▸ ended.next, fun _ _ => same.symm ▸ ended.all value rfl⟩

end Check

theorem Expr.infer_creates (expr : Expr) (outer : Context) :
    (expr.infer outer).Creates (namesFor expr.nodes) :=
  Account.of_expr Account.names_sequential expr outer

theorem inferSequence_creates (exprs : List Expr) (context : Context) :
    (inferSequence exprs context).Creates (Expr.namesFor (Expr.nodesAll exprs)) :=
  Account.of_sequence Account.names_sequential exprs context

theorem Program.infer_creates (program : Program) (context : Context) :
    (Program.infer program context).Creates (Expr.namesFor (Expr.nodesAll program)) := by
  intro count
  have creates := inferSequence_creates program context count
  exact ⟨creates.next, creates.all⟩

end TypedForms
