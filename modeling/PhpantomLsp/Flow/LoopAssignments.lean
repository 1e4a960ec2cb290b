import PhpantomLsp.Lib.Table
import PhpantomLsp.Lib.Worklist

/-!
# What the assignments of a loop depend on

`loop_assignments` walks the statements of a loop once, files under each
variable assigned the variables read for it, and answers which variables are
computed from their own previous value.  `mem_selfDependent_iff` says that
these are the variables on a cycle of what was filed.
-/

namespace PhpantomLsp.Flow.LoopAssignments

open Lib (Table filed)
open Lib.Worklist (Lists successors onCycle onCycle_iff)

/-! ## Syntax -/

/-- A variable, with its dollar sign. -/
abbrev Name := String

inductive PrefixOperator where
  | increment
  | decrement
  | reference
  /-- A sign, a negation, a cast, silence. -/
  | other
  deriving DecidableEq

mutual

/-- An expression.  A `selectors` field holds the expressions a dynamic member
name is computed by. -/
inductive Expression where
  /-- `$a` -/
  | direct (name : Name)
  | binary (lhs rhs : Expression)
  | unaryPrefix (operator : PrefixOperator) (operand : Expression)
  /-- `$i++` and `$i--` -/
  | unaryPostfix (operand : Expression)
  | parenthesized (inner : Expression)
  | functionCall (function : Expression) (arguments : List Expression)
  /-- With `->` or `?->`. -/
  | methodCall (object : Expression) (selectors arguments : List Expression)
  | staticCall (class' : Expression) (selectors arguments : List Expression)
  /-- With `->` or `?->`. -/
  | property (object : Expression) (selectors : List Expression)
  | staticProperty (class' : Expression) (selectors : List Expression)
  | classConstant (class' : Expression) (selectors : List Expression)
  | arrayAccess (array index : Expression)
  | arrayAppend (array : Expression)
  | conditional (condition : Expression) (then' : Option Expression) (else' : Expression)
  | instantiation (class' : Expression) (arguments : List Expression)
  /-- With `=`, or with an operator before it. -/
  | assignment (compound : Bool) (lhs rhs : Expression)
  /-- `[…]` and `list(…)`. -/
  | array (elements : List ArrayElement)
  /-- A closure or an arrow function, by the variables it takes from outside. -/
  | closure (captured : List Name)
  /-- Any other form, by its parts: a `match`, an interpolated string, a
  `clone`, a `yield`, an `isset`. -/
  | other (parts : List Expression)

inductive ArrayElement where
  | keyValue (key value : Expression)
  | value (value : Expression)
  | variadic (value : Expression)
  | missing

end

inductive ForeachTarget where
  | value (value : Expression)
  | keyValue (key value : Expression)

inductive Statement where
  | expression (e : Expression)
  | foreach (e : Expression) (target : ForeachTarget) (body : List Statement)
  /-- Any other statement, by the expressions it evaluates itself and the
  statement lists nested directly in it: the branches of an `if`, the body of a
  loop, the cases of a `switch`, the blocks of a `try`. -/
  | other (expressions : List Expression) (nested : List (List Statement))

/-! ## Reading expressions -/

mutual

/-- `collect_rhs_variables` -/
def collectRhsVariables : Expression → List Name
  | .direct name => [name]
  | .binary lhs rhs => collectRhsVariables lhs ++ collectRhsVariables rhs
  | .unaryPrefix _ operand => collectRhsVariables operand
  | .unaryPostfix operand => collectRhsVariables operand
  | .parenthesized inner => collectRhsVariables inner
  | .functionCall function arguments =>
      collectRhsVariables function ++ collectArglistVariables arguments
  | .methodCall object _ arguments => collectRhsVariables object ++ collectArglistVariables arguments
  | .staticCall class' _ arguments => collectRhsVariables class' ++ collectArglistVariables arguments
  | .property object _ => collectRhsVariables object
  | .staticProperty class' _ => collectRhsVariables class'
  | .classConstant class' _ => collectRhsVariables class'
  | .arrayAccess array _ => collectRhsVariables array
  | .conditional condition then' else' =>
      collectRhsVariables condition ++ collectThenVariables then' ++ collectRhsVariables else'
  | .instantiation class' arguments =>
      collectRhsVariables class' ++ collectArglistVariables arguments
  | .assignment _ _ rhs => collectRhsVariables rhs
  | _ => []

/-- `collect_arglist_variables` -/
def collectArglistVariables : List Expression → List Name
  | [] => []
  | argument :: rest => collectRhsVariables argument ++ collectArglistVariables rest

def collectThenVariables : Option Expression → List Name
  | none => []
  | some then' => collectRhsVariables then'

end

/-- `increment_decrement_operand` -/
def incrementDecrementOperand : Expression → Option Expression
  | .unaryPostfix operand => some operand
  | .unaryPrefix .increment operand => some operand
  | .unaryPrefix .decrement operand => some operand
  | _ => none

mutual

/-- `collect_assignment_target_vars` -/
def collectAssignmentTargetVars : Expression → List Name
  | .direct name => [name]
  | .array elements => collectDestructured elements
  | .arrayAccess array _ => collectAssignmentTargetVars array
  | .arrayAppend array => collectAssignmentTargetVars array
  | .property object _ => collectAssignmentTargetVars object
  | .parenthesized inner => collectAssignmentTargetVars inner
  | _ => []

/-- The targets of `destructuring_element_exprs`. -/
def collectDestructured : List ArrayElement → List Name
  | [] => []
  | .keyValue _ value :: rest => collectAssignmentTargetVars value ++ collectDestructured rest
  | .value value :: rest => collectAssignmentTargetVars value ++ collectDestructured rest
  | _ :: rest => collectDestructured rest

end

/-- `collect_lhs_index_variables` -/
def collectLhsIndexVariables : Expression → List Name
  | .arrayAccess array index => collectRhsVariables index ++ collectLhsIndexVariables array
  | .arrayAppend array => collectLhsIndexVariables array
  | .property object _ => collectLhsIndexVariables object
  | .parenthesized inner => collectLhsIndexVariables inner
  | _ => []

/-- The target is neither a variable nor a pattern. -/
def isIndexedWrite : Expression → Bool
  | .direct _ => false
  | .array _ => false
  | _ => true

/-! ## Collecting -/

/-- The variables read, under the variable assigned. -/
abbrev Deps := Table Name (List Name)

/-- `deps.entry(target).or_default().extend(vars)` -/
def extend (vars : List Name) (deps : Deps) (target : Name) : Deps :=
  deps.insert target (filed deps target ++ vars)

/-- `collect_expr_assignment_deps` -/
def collectExprAssignmentDeps (deps : Deps) (expr : Expression) : Deps :=
  match incrementDecrementOperand expr with
  | some operand =>
      (collectAssignmentTargetVars operand).foldl (fun deps target => extend [target] deps target) deps
  | none =>
      match expr with
      | .assignment compound lhs rhs =>
          let rhsVars := collectRhsVariables rhs ++ (if compound then collectRhsVariables lhs else [])
          let indexedWrite := isIndexedWrite lhs
          let rhsVars := rhsVars ++ (if indexedWrite then collectLhsIndexVariables lhs else [])
          (collectAssignmentTargetVars lhs).foldl
            (fun deps target => extend (rhsVars ++ if indexedWrite then [target] else []) deps target)
            deps
      | _ => deps

/-- `collect_foreach_bound_vars` -/
def collectForeachBoundVars : Expression → List Name
  | .unaryPrefix .reference operand => collectAssignmentTargetVars operand
  | target => collectAssignmentTargetVars target

def ForeachTarget.boundVars : ForeachTarget → List Name
  | .value bound => collectForeachBoundVars bound
  | .keyValue key bound => collectForeachBoundVars key ++ collectForeachBoundVars bound

/-- `collect_foreach_header_deps` -/
def collectForeachHeaderDeps (deps : Deps) (e : Expression) (target : ForeachTarget) : Deps :=
  let iterVars := collectRhsVariables e
  if iterVars.isEmpty then deps
  else target.boundVars.foldl (extend iterVars) deps

mutual

/-- `collect_assignment_deps` -/
def collectAssignmentDeps (deps : Deps) : Statement → Deps
  | .expression e => collectExprAssignmentDeps deps e
  | .foreach e target body => collectListDeps (collectForeachHeaderDeps deps e target) body
  | .other _ nested => collectNestedDeps deps nested

def collectListDeps (deps : Deps) : List Statement → Deps
  | [] => deps
  | s :: rest => collectListDeps (collectAssignmentDeps deps s) rest

def collectNestedDeps (deps : Deps) : List (List Statement) → Deps
  | [] => deps
  | list :: rest => collectNestedDeps (collectListDeps deps list) rest

end

/-- The dependencies of a loop: its body, and the update clause of a `for`. -/
def collectLoopDeps (statements : List Statement) (updates : List Expression) : Deps :=
  updates.foldl collectExprAssignmentDeps (collectListDeps ∅ statements)

def graph (deps : Deps) : Lib.DepthFirst.Graph Name where
  keys := deps.keys
  deps name := deps[name]?
  known name h := by
    rw [Std.ExtTreeMap.mem_keys, Std.ExtTreeMap.mem_iff_isSome_getElem?]
    exact h

/-- `reaches_itself` -/
def reachesItself (deps : Deps) (var : Name) : Bool := onCycle (graph deps) var

/-- `loop_assignments(…).self_dependent` -/
def selfDependent (statements : List Statement) (updates : List Expression) : List Name :=
  let deps := collectLoopDeps statements updates
  deps.keys.filter (reachesItself deps)

/-! ## The answer -/

/-- The self-dependent variables are those on a cycle of what was filed. -/
theorem mem_selfDependent_iff {statements : List Statement} {updates : List Expression} {x : Name} :
    x ∈ selfDependent statements updates ↔
      Relation.TransGen (fun a b => b ∈ filed (collectLoopDeps statements updates) a) x x := by
  rw [selfDependent, List.mem_filter, reachesItself, onCycle_iff]
  refine ⟨fun h => h.2, fun h => ⟨?_, h⟩⟩
  obtain ⟨y, hxy, -⟩ := Relation.TransGen.head'_iff.mp h
  exact Lib.Worklist.mem_keys_of_lists (g := graph _) hxy

end PhpantomLsp.Flow.LoopAssignments
