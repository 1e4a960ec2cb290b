import PhpantomLsp.Flow.LoopAssignments

/-!
# Self-dependence and the reads it is found by

The walk of `loop_assignments` enters some forms of expression and not others,
and takes note of the assignments that are statements of their own.  A variable
computed from its own previous value is found exactly where it still is when
only the reads that are seen count (`selfDependent_complete_iff`).
-/

namespace PhpantomLsp.Flow.LoopAssignments

open Lib (filed)

/-! ## What assignments read -/

mutual

/-- The variables an expression reads, at any depth; those of an expression that
is `written` are the ones it takes to find what is written. -/
def readsIn (written : Bool) : Expression → List Name
  | .direct name => if written then [] else [name]
  | .binary lhs rhs => readsIn false lhs ++ readsIn false rhs
  | .unaryPrefix operator operand => readsIn (written && operator == .reference) operand
  | .unaryPostfix operand => readsIn false operand
  | .parenthesized inner => readsIn written inner
  | .functionCall function arguments => readsIn false function ++ listReads arguments
  | .methodCall object selectors arguments =>
      readsIn false object ++ listReads selectors ++ listReads arguments
  | .staticCall class' selectors arguments =>
      readsIn false class' ++ listReads selectors ++ listReads arguments
  | .property object selectors => readsIn written object ++ listReads selectors
  | .staticProperty class' selectors => readsIn false class' ++ listReads selectors
  | .classConstant class' selectors => readsIn false class' ++ listReads selectors
  | .arrayAccess array index => readsIn written array ++ readsIn false index
  | .arrayAppend array => readsIn written array
  | .conditional condition then' else' =>
      readsIn false condition ++ optionReads then' ++ readsIn false else'
  | .instantiation class' arguments => readsIn false class' ++ listReads arguments
  | .assignment compound lhs rhs => readsIn (!compound) lhs ++ readsIn false rhs
  | .array elements => elementReads written elements
  | .closure captured => captured
  | .other parts => listReads parts

def listReads : List Expression → List Name
  | [] => []
  | e :: rest => readsIn false e ++ listReads rest

def optionReads : Option Expression → List Name
  | none => []
  | some e => readsIn false e

def elementReads (written : Bool) : List ArrayElement → List Name
  | [] => []
  | .keyValue key value :: rest =>
      readsIn false key ++ readsIn written value ++ elementReads written rest
  | .value value :: rest => readsIn written value ++ elementReads written rest
  | .variadic value :: rest => readsIn written value ++ elementReads written rest
  | .missing :: rest => elementReads written rest

end

abbrev reads (e : Expression) : List Name := readsIn false e

mutual

/-- The variables an assignment to the expression writes. -/
def writes : Expression → List Name
  | .direct name => [name]
  | .unaryPrefix .reference operand => writes operand
  | .array elements => elementWrites elements
  | .arrayAccess array _ => writes array
  | .arrayAppend array => writes array
  | .property object _ => writes object
  | .parenthesized inner => writes inner
  | _ => []

def elementWrites : List ArrayElement → List Name
  | [] => []
  | .keyValue _ value :: rest => writes value ++ elementWrites rest
  | .value value :: rest => writes value ++ elementWrites rest
  | _ :: rest => elementWrites rest

end

mutual

/-- The expression and what it evaluates. -/
def subexpressions : Expression → List Expression
  | .binary lhs rhs => .binary lhs rhs :: (subexpressions lhs ++ subexpressions rhs)
  | .unaryPrefix operator operand => .unaryPrefix operator operand :: subexpressions operand
  | .unaryPostfix operand => .unaryPostfix operand :: subexpressions operand
  | .parenthesized inner => .parenthesized inner :: subexpressions inner
  | .functionCall function arguments =>
      .functionCall function arguments :: (subexpressions function ++ listParts arguments)
  | .methodCall object selectors arguments =>
      .methodCall object selectors arguments ::
        (subexpressions object ++ listParts selectors ++ listParts arguments)
  | .staticCall class' selectors arguments =>
      .staticCall class' selectors arguments ::
        (subexpressions class' ++ listParts selectors ++ listParts arguments)
  | .property object selectors =>
      .property object selectors :: (subexpressions object ++ listParts selectors)
  | .staticProperty class' selectors =>
      .staticProperty class' selectors :: (subexpressions class' ++ listParts selectors)
  | .classConstant class' selectors =>
      .classConstant class' selectors :: (subexpressions class' ++ listParts selectors)
  | .arrayAccess array index =>
      .arrayAccess array index :: (subexpressions array ++ subexpressions index)
  | .arrayAppend array => .arrayAppend array :: subexpressions array
  | .conditional condition then' else' =>
      .conditional condition then' else' ::
        (subexpressions condition ++ optionParts then' ++ subexpressions else')
  | .instantiation class' arguments =>
      .instantiation class' arguments :: (subexpressions class' ++ listParts arguments)
  | .assignment compound lhs rhs =>
      .assignment compound lhs rhs :: (subexpressions lhs ++ subexpressions rhs)
  | .array elements => .array elements :: elementParts elements
  | .other parts => .other parts :: listParts parts
  | e => [e]

def listParts : List Expression → List Expression
  | [] => []
  | e :: rest => subexpressions e ++ listParts rest

def optionParts : Option Expression → List Expression
  | none => []
  | some e => subexpressions e

def elementParts : List ArrayElement → List Expression
  | [] => []
  | .keyValue key value :: rest => subexpressions key ++ subexpressions value ++ elementParts rest
  | .value value :: rest => subexpressions value ++ elementParts rest
  | .variadic value :: rest => subexpressions value ++ elementParts rest
  | .missing :: rest => elementParts rest

end

/-! ## The statements of a loop -/

def ForeachTarget.expressions : ForeachTarget → List Expression
  | .value bound => [bound]
  | .keyValue key bound => [key, bound]

mutual

/-- The expressions a statement evaluates, at any depth of statements. -/
def evaluated : Statement → List Expression
  | .expression e => [e]
  | .foreach e target body => e :: target.expressions ++ listEvaluated body
  | .other expressions nested => expressions ++ nestedEvaluated nested

def listEvaluated : List Statement → List Expression
  | [] => []
  | s :: rest => evaluated s ++ listEvaluated rest

def nestedEvaluated : List (List Statement) → List Expression
  | [] => []
  | list :: rest => listEvaluated list ++ nestedEvaluated rest

end

mutual

/-- The expressions that are statements of their own, at any depth. -/
def expressionStatements : Statement → List Expression
  | .expression e => [e]
  | .foreach _ _ body => listExpressionStatements body
  | .other _ nested => nestedExpressionStatements nested

def listExpressionStatements : List Statement → List Expression
  | [] => []
  | s :: rest => expressionStatements s ++ listExpressionStatements rest

def nestedExpressionStatements : List (List Statement) → List Expression
  | [] => []
  | list :: rest => listExpressionStatements list ++ nestedExpressionStatements rest

end

mutual

/-- The headers of the `foreach` loops. -/
def headers : Statement → List (Expression × ForeachTarget)
  | .expression _ => []
  | .foreach e target body => (e, target) :: listHeaders body
  | .other _ nested => nestedHeaders nested

def listHeaders : List Statement → List (Expression × ForeachTarget)
  | [] => []
  | s :: rest => headers s ++ listHeaders rest

def nestedHeaders : List (List Statement) → List (Expression × ForeachTarget)
  | [] => []
  | list :: rest => listHeaders list ++ nestedHeaders rest

end

/-- The new value of `x` is computed from an expression that reads `y`. -/
inductive Depends (statements : List Statement) (updates : List Expression) (x y : Name) : Prop
  | assignment {e lhs rhs : Expression} {compound : Bool}
      (he : e ∈ listEvaluated statements ++ updates)
      (hsub : .assignment compound lhs rhs ∈ subexpressions e) (hx : x ∈ writes lhs)
      (hy : y ∈ reads rhs ++ readsIn (!compound) lhs)
  | count {e e' operand : Expression} (he : e ∈ listEvaluated statements ++ updates)
      (hsub : e' ∈ subexpressions e) (hcount : incrementDecrementOperand e' = some operand)
      (hx : x ∈ writes operand) (hy : y ∈ reads operand)
  | header {e bound : Expression} {target : ForeachTarget}
      (h : (e, target) ∈ listHeaders statements) (hbound : bound ∈ target.expressions)
      (hx : x ∈ writes bound) (hy : y ∈ reads e)

/-! ## What the walk sees -/

/-- The parts of an expression the walk enters: none of an array literal, a
`match`, an interpolated string or a closure, and no index. -/
def enteredParts : Expression → List Expression
  | .binary lhs rhs => [lhs, rhs]
  | .unaryPrefix _ operand => [operand]
  | .unaryPostfix operand => [operand]
  | .parenthesized inner => [inner]
  | .functionCall function arguments => function :: arguments
  | .methodCall object _ arguments => object :: arguments
  | .staticCall class' _ arguments => class' :: arguments
  | .property object _ => [object]
  | .staticProperty class' _ => [class']
  | .classConstant class' _ => [class']
  | .arrayAccess array _ => [array]
  | .conditional condition then' else' => condition :: then'.toList ++ [else']
  | .instantiation class' arguments => class' :: arguments
  | .assignment _ _ rhs => [rhs]
  | _ => []

inductive SeenRead : Expression → Name → Prop
  | direct {name : Name} : SeenRead (.direct name) name
  | part {e part : Expression} {name : Name} (hpart : part ∈ enteredParts e)
      (h : SeenRead part name) : SeenRead e name

/-- The walk files `y` under `x`: for an assignment, a count or an indexed write
that is a statement of its own, or for the header of a `foreach`. -/
inductive Seen (statements : List Statement) (updates : List Expression) (x : Name) : Name → Prop
  | assignment {lhs rhs : Expression} {compound : Bool} {y : Name}
      (he : .assignment compound lhs rhs ∈ listExpressionStatements statements ++ updates)
      (hx : x ∈ collectAssignmentTargetVars lhs)
      (hy : SeenRead rhs y ∨ compound = true ∧ SeenRead lhs y ∨
        isIndexedWrite lhs = true ∧ y ∈ collectLhsIndexVariables lhs) : Seen statements updates x y
  | indexedWrite {lhs rhs : Expression} {compound : Bool}
      (he : .assignment compound lhs rhs ∈ listExpressionStatements statements ++ updates)
      (hx : x ∈ collectAssignmentTargetVars lhs) (hindexed : isIndexedWrite lhs = true) :
      Seen statements updates x x
  | count {e operand : Expression} (he : e ∈ listExpressionStatements statements ++ updates)
      (hcount : incrementDecrementOperand e = some operand)
      (hx : x ∈ collectAssignmentTargetVars operand) : Seen statements updates x x
  | header {e : Expression} {target : ForeachTarget} {y : Name}
      (h : (e, target) ∈ listHeaders statements) (hx : x ∈ target.boundVars) (hy : SeenRead e y) :
      Seen statements updates x y

/-! ## Reads -/

theorem collectArglistVariables_eq (arguments : List Expression) :
    collectArglistVariables arguments = arguments.flatMap collectRhsVariables := by
  induction arguments with
  | nil => rfl
  | cons e rest ih => rw [collectArglistVariables, ih, List.flatMap_cons]

theorem collectThenVariables_eq (then' : Option Expression) :
    collectThenVariables then' = then'.toList.flatMap collectRhsVariables := by
  cases then' with
  | none => rfl
  | some e => simp [collectThenVariables]

/-- The walk reads a variable, or what its parts read. -/
theorem collectRhsVariables_eq (e : Expression) :
    (∃ name, e = .direct name) ∨
      collectRhsVariables e = (enteredParts e).flatMap collectRhsVariables := by
  cases e with
  | direct name => exact .inl ⟨name, rfl⟩
  | _ =>
      refine .inr ?_
      simp [collectRhsVariables, enteredParts, collectArglistVariables_eq, collectThenVariables_eq]

theorem sizeOf_part {e part : Expression} (h : part ∈ enteredParts e) : sizeOf part < sizeOf e := by
  have hlist : ∀ args : List Expression, part ∈ args → sizeOf part < sizeOf args :=
    fun args hmem => List.sizeOf_lt_of_mem hmem
  cases e <;> simp [enteredParts] at h ⊢ <;> grind

theorem seenRead_of_mem {e : Expression} {y : Name} (h : y ∈ collectRhsVariables e) :
    SeenRead e y := by
  rcases collectRhsVariables_eq e with ⟨name, rfl⟩ | heq
  · obtain rfl : y = name := by simpa [collectRhsVariables] using h
    exact .direct
  · rw [heq, List.mem_flatMap] at h
    obtain ⟨part, hpart, hy⟩ := h
    have := sizeOf_part hpart
    exact .part hpart (seenRead_of_mem hy)
termination_by sizeOf e

/-- What the walk collects is what it sees. -/
theorem mem_collectRhsVariables_iff {e : Expression} {y : Name} :
    y ∈ collectRhsVariables e ↔ SeenRead e y := by
  refine ⟨seenRead_of_mem, fun h => ?_⟩
  induction h with
  | direct => simp [collectRhsVariables]
  | @part e part name hpart _ ih =>
      rcases collectRhsVariables_eq e with ⟨name, rfl⟩ | heq
      · cases hpart
      · rw [heq, List.mem_flatMap]
        exact ⟨part, hpart, ih⟩

/-! ## What is filed -/

theorem mem_filed_extend {vars : List Name} {deps : Deps} {target x y : Name} :
    y ∈ filed (extend vars deps target) x ↔ y ∈ filed deps x ∨ x = target ∧ y ∈ vars := by
  rw [extend, Lib.filed_insert]
  by_cases hx : target = x
  · subst hx
    simp
  · have hx' : x ≠ target := fun h => hx h.symm
    simp [hx, hx']

/-- The loop over the targets of an assignment. -/
theorem mem_filed_targets {vars : Name → List Name} {targets : List Name} {deps : Deps}
    {x y : Name} :
    y ∈ filed (targets.foldl (fun deps target => extend (vars target) deps target) deps) x ↔
      y ∈ filed deps x ∨ x ∈ targets ∧ y ∈ vars x := by
  induction targets generalizing deps with
  | nil => simp
  | cons target rest ih =>
      rw [List.foldl_cons, ih, mem_filed_extend, List.mem_cons]
      constructor
      · rintro ((h | ⟨rfl, h⟩) | ⟨h, h'⟩)
        · exact .inl h
        · exact .inr ⟨.inl rfl, h⟩
        · exact .inr ⟨.inr h, h'⟩
      · rintro (h | ⟨rfl | h, h'⟩)
        · exact .inl (.inl h)
        · exact .inl (.inr ⟨rfl, h'⟩)
        · exact .inr ⟨h, h'⟩

/-- What one expression adds. -/
def Files (e : Expression) (x y : Name) : Prop :=
  (∃ operand, incrementDecrementOperand e = some operand ∧
      x ∈ collectAssignmentTargetVars operand ∧ y = x) ∨
    ∃ compound lhs rhs, e = .assignment compound lhs rhs ∧ x ∈ collectAssignmentTargetVars lhs ∧
      (SeenRead rhs y ∨ compound = true ∧ SeenRead lhs y ∨
        isIndexedWrite lhs = true ∧ (y ∈ collectLhsIndexVariables lhs ∨ y = x))

theorem mem_filed_expr {deps : Deps} {e : Expression} {x y : Name} :
    y ∈ filed (collectExprAssignmentDeps deps e) x ↔ y ∈ filed deps x ∨ Files e x y := by
  unfold collectExprAssignmentDeps Files
  cases hcount : incrementDecrementOperand e with
  | some operand =>
      have hnot : ∀ compound lhs rhs, e ≠ .assignment compound lhs rhs := by
        rintro compound lhs rhs rfl
        cases hcount
      simp only
      rw [mem_filed_targets]
      simp [hnot]
  | none =>
      simp only
      split
      · rename_i compound lhs rhs
        have hvars : ∀ indexed : Bool,
            y ∈ collectRhsVariables rhs ++ (if compound then collectRhsVariables lhs else []) ++
                (if indexed then collectLhsIndexVariables lhs else []) ++
                (if indexed then [x] else []) ↔
              SeenRead rhs y ∨ compound = true ∧ SeenRead lhs y ∨
                indexed = true ∧ (y ∈ collectLhsIndexVariables lhs ∨ y = x) := by
          intro indexed
          cases compound <;> cases indexed <;> simp [mem_collectRhsVariables_iff]
        rw [mem_filed_targets, hvars]
        simp only [reduceCtorEq, false_and, exists_false, false_or, Expression.assignment.injEq]
        constructor
        · exact Or.imp_right fun h => ⟨compound, lhs, rhs, ⟨rfl, rfl, rfl⟩, h⟩
        · rintro (h | ⟨_, _, _, ⟨rfl, rfl, rfl⟩, h⟩)
          · exact .inl h
          · exact .inr h
      · rename_i hnot
        simp only [reduceCtorEq, false_and, exists_false, false_or]
        refine ⟨.inl, ?_⟩
        rintro (h | ⟨compound, lhs, rhs, rfl, -⟩)
        · exact h
        · exact (hnot compound lhs rhs rfl).elim

/-- What one header adds. -/
def HeaderFiles (header : Expression × ForeachTarget) (x y : Name) : Prop :=
  x ∈ header.2.boundVars ∧ SeenRead header.1 y

theorem mem_filed_header {deps : Deps} {e : Expression} {target : ForeachTarget} {x y : Name} :
    y ∈ filed (collectForeachHeaderDeps deps e target) x ↔
      y ∈ filed deps x ∨ HeaderFiles (e, target) x y := by
  unfold collectForeachHeaderDeps HeaderFiles
  simp only [← mem_collectRhsVariables_iff]
  split
  · rename_i hempty
    rw [List.isEmpty_iff] at hempty
    simp [hempty]
  · exact @mem_filed_targets (fun _ => collectRhsVariables e) _ _ _ _

mutual

/-- What a statement adds, by its expression statements and its headers. -/
theorem mem_filed_statement {x y : Name} : ∀ (deps : Deps) (s : Statement),
    y ∈ filed (collectAssignmentDeps deps s) x ↔ y ∈ filed deps x ∨
      (∃ e ∈ expressionStatements s, Files e x y) ∨ ∃ h ∈ headers s, HeaderFiles h x y
  | deps, .expression e => by
      rw [collectAssignmentDeps, mem_filed_expr]
      simp [expressionStatements, headers]
  | deps, .foreach e target body => by
      rw [collectAssignmentDeps, mem_filed_list, mem_filed_header, expressionStatements, headers]
      simp only [List.mem_cons, exists_eq_or_imp]
      rw [or_assoc, or_left_comm (a := HeaderFiles (e, target) x y)]
  | deps, .other expressions nested => by
      rw [collectAssignmentDeps, mem_filed_nested, expressionStatements, headers]

theorem mem_filed_list {x y : Name} : ∀ (deps : Deps) (list : List Statement),
    y ∈ filed (collectListDeps deps list) x ↔ y ∈ filed deps x ∨
      (∃ e ∈ listExpressionStatements list, Files e x y) ∨
        ∃ h ∈ listHeaders list, HeaderFiles h x y
  | deps, [] => by simp [collectListDeps, listExpressionStatements, listHeaders]
  | deps, s :: rest => by
      rw [collectListDeps, mem_filed_list, mem_filed_statement, listExpressionStatements,
        listHeaders]
      simp only [List.mem_append, or_and_right, exists_or]
      rw [or_assoc, or_or_or_comm]

theorem mem_filed_nested {x y : Name} : ∀ (deps : Deps) (lists : List (List Statement)),
    y ∈ filed (collectNestedDeps deps lists) x ↔ y ∈ filed deps x ∨
      (∃ e ∈ nestedExpressionStatements lists, Files e x y) ∨
        ∃ h ∈ nestedHeaders lists, HeaderFiles h x y
  | deps, [] => by simp [collectNestedDeps, nestedExpressionStatements, nestedHeaders]
  | deps, list :: rest => by
      rw [collectNestedDeps, mem_filed_nested, mem_filed_list, nestedExpressionStatements,
        nestedHeaders]
      simp only [List.mem_append, or_and_right, exists_or]
      rw [or_assoc, or_or_or_comm]

end

theorem mem_filed_updates {deps : Deps} {updates : List Expression} {x y : Name} :
    y ∈ filed (updates.foldl collectExprAssignmentDeps deps) x ↔
      y ∈ filed deps x ∨ ∃ e ∈ updates, Files e x y := by
  induction updates generalizing deps with
  | nil => simp
  | cons e rest ih =>
      rw [List.foldl_cons, ih, mem_filed_expr]
      simp only [List.mem_cons, exists_eq_or_imp]
      tauto

theorem seen_iff {statements : List Statement} {updates : List Expression} {x y : Name} :
    Seen statements updates x y ↔
      (∃ e ∈ listExpressionStatements statements ++ updates, Files e x y) ∨
        ∃ h ∈ listHeaders statements, HeaderFiles h x y := by
  constructor
  · intro h
    cases h with
    | assignment he hx hy =>
        refine .inl ⟨_, he, .inr ⟨_, _, _, rfl, hx, ?_⟩⟩
        exact hy.imp_right (Or.imp_right fun h => ⟨h.1, .inl h.2⟩)
    | indexedWrite he hx hindexed =>
        exact .inl ⟨_, he, .inr ⟨_, _, _, rfl, hx, .inr (.inr ⟨hindexed, .inr rfl⟩)⟩⟩
    | count he hcount hx => exact .inl ⟨_, he, .inl ⟨_, hcount, hx, rfl⟩⟩
    | header h hx hy => exact .inr ⟨_, h, hx, hy⟩
  · rintro (⟨e, he, ⟨operand, hcount, hx, rfl⟩ | ⟨compound, lhs, rhs, rfl, hx, hy⟩⟩ | ⟨h, hh, hx, hy⟩)
    · exact .count he hcount hx
    · rcases hy with hy | hy | ⟨hindexed, hy | rfl⟩
      · exact .assignment he hx (.inl hy)
      · exact .assignment he hx (.inr (.inl hy))
      · exact .assignment he hx (.inr (.inr ⟨hindexed, hy⟩))
      · exact .indexedWrite he hx hindexed
    · exact .header hh hx hy

/-- What the loop files is what the walk sees. -/
theorem mem_filed_loop {statements : List Statement} {updates : List Expression} {x y : Name} :
    y ∈ filed (collectLoopDeps statements updates) x ↔ Seen statements updates x y := by
  rw [collectLoopDeps, mem_filed_updates, mem_filed_list, seen_iff, Lib.filed_empty]
  simp only [List.mem_append, or_and_right, exists_or, List.not_mem_nil, false_or]
  exact or_right_comm

/-! ## What is seen is a dependency -/

theorem mem_listReads {arguments : List Expression} {y : Name} :
    y ∈ listReads arguments ↔ ∃ e ∈ arguments, y ∈ reads e := by
  induction arguments with
  | nil => simp [listReads]
  | cons e rest ih => simp [listReads, ih]

theorem mem_optionReads {then' : Option Expression} {y : Name} :
    y ∈ optionReads then' ↔ ∃ e, then' = some e ∧ y ∈ reads e := by
  cases then' <;> simp [optionReads]

theorem reads_of_part {e part : Expression} {y : Name} (hpart : part ∈ enteredParts e)
    (hy : y ∈ reads part) : y ∈ reads e := by
  cases e <;> simp [enteredParts] at hpart <;>
    simp only [reads, readsIn, List.mem_append, mem_listReads, mem_optionReads,
      Bool.false_and] <;> grind

theorem SeenRead.mem_reads {e : Expression} {y : Name} (h : SeenRead e y) : y ∈ reads e := by
  induction h with
  | direct => simp [reads, readsIn]
  | part hpart _ ih => exact reads_of_part hpart ih

theorem mem_subexpressions_self (e : Expression) : e ∈ subexpressions e := by
  cases e <;> simp [subexpressions]

mutual

theorem mem_writes {x : Name} : ∀ {e : Expression}, x ∈ collectAssignmentTargetVars e → x ∈ writes e
  | .direct _, h => h
  | .array _, h => mem_elementWrites h
  | .arrayAccess array _, h => mem_writes (e := array) h
  | .arrayAppend array, h => mem_writes (e := array) h
  | .property object _, h => mem_writes (e := object) h
  | .parenthesized inner, h => mem_writes (e := inner) h

theorem mem_elementWrites {x : Name} : ∀ {l : List ArrayElement},
    x ∈ collectDestructured l → x ∈ elementWrites l
  | .keyValue _ _ :: _, h =>
      List.mem_append.mpr ((List.mem_append.mp h).imp mem_writes mem_elementWrites)
  | .value _ :: _, h =>
      List.mem_append.mpr ((List.mem_append.mp h).imp mem_writes mem_elementWrites)
  | .variadic _ :: rest, h => mem_elementWrites (l := rest) h
  | .missing :: rest, h => mem_elementWrites (l := rest) h

end

mutual

/-- A count reads what it writes. -/
theorem mem_reads_of_target {x : Name} :
    ∀ {e : Expression}, x ∈ collectAssignmentTargetVars e → x ∈ reads e
  | .direct _, h => h
  | .array _, h => mem_elementReads_of_target h
  | .arrayAccess array _, h => List.mem_append_left _ (mem_reads_of_target (e := array) h)
  | .arrayAppend array, h => mem_reads_of_target (e := array) h
  | .property object _, h => List.mem_append_left _ (mem_reads_of_target (e := object) h)
  | .parenthesized inner, h => mem_reads_of_target (e := inner) h

theorem mem_elementReads_of_target {x : Name} : ∀ {l : List ArrayElement},
    x ∈ collectDestructured l → x ∈ elementReads false l
  | .keyValue _ _ :: _, h => by
      rw [elementReads, List.append_assoc]
      exact List.mem_append_right _ (List.mem_append.mpr
        ((List.mem_append.mp h).imp mem_reads_of_target mem_elementReads_of_target))
  | .value _ :: _, h =>
      List.mem_append.mpr
        ((List.mem_append.mp h).imp mem_reads_of_target mem_elementReads_of_target)
  | .variadic _ :: rest, h =>
      List.mem_append_right _ (mem_elementReads_of_target (l := rest) h)
  | .missing :: rest, h => mem_elementReads_of_target (l := rest) h

end

theorem mem_readsIn_of_index {written : Bool} {y : Name} : ∀ {e : Expression},
    y ∈ collectLhsIndexVariables e → y ∈ readsIn written e
  | .arrayAccess _ _, h => by
      rw [readsIn, List.mem_append]
      rcases List.mem_append.mp h with h | h
      · exact .inr (mem_collectRhsVariables_iff.mp h).mem_reads
      · exact .inl (mem_readsIn_of_index h)
  | .arrayAppend array, h => mem_readsIn_of_index (e := array) h
  | .property object _, h => List.mem_append_left _ (mem_readsIn_of_index (e := object) h)
  | .parenthesized inner, h => mem_readsIn_of_index (e := inner) h

mutual

theorem mem_evaluated {e : Expression} : ∀ {s : Statement},
    e ∈ expressionStatements s → e ∈ evaluated s
  | .expression _, h => h
  | .foreach _ target body, h =>
      List.mem_append_right (_ :: target.expressions) (mem_listEvaluated (l := body) h)
  | .other expressions nested, h =>
      List.mem_append_right expressions (mem_nestedEvaluated (l := nested) h)

theorem mem_listEvaluated {e : Expression} : ∀ {l : List Statement},
    e ∈ listExpressionStatements l → e ∈ listEvaluated l
  | _ :: _, h =>
      List.mem_append.mpr ((List.mem_append.mp h).imp mem_evaluated mem_listEvaluated)

theorem mem_nestedEvaluated {e : Expression} : ∀ {l : List (List Statement)},
    e ∈ nestedExpressionStatements l → e ∈ nestedEvaluated l
  | _ :: _, h =>
      List.mem_append.mpr ((List.mem_append.mp h).imp mem_listEvaluated mem_nestedEvaluated)

end

/-- The walk sees dependencies only, and that an indexed write keeps what its
base held. -/
theorem Seen.depends {statements : List Statement} {updates : List Expression} {x y : Name}
    (h : Seen statements updates x y) : Depends statements updates x y ∨ x = y := by
  have hmem : ∀ {e}, e ∈ listExpressionStatements statements ++ updates →
      e ∈ listEvaluated statements ++ updates := fun he =>
    List.mem_append.mpr ((List.mem_append.mp he).imp_left mem_listEvaluated)
  cases h with
  | @assignment lhs rhs compound y he hx hy =>
      refine .inl (.assignment (hmem he) (mem_subexpressions_self _) (mem_writes hx) ?_)
      rw [List.mem_append]
      rcases hy with hy | ⟨rfl, hy⟩ | ⟨-, hy⟩
      · exact .inl hy.mem_reads
      · exact .inr hy.mem_reads
      · exact .inr (mem_readsIn_of_index hy)
  | indexedWrite => exact .inr rfl
  | count he hcount hx =>
      exact .inl (.count (hmem he) (mem_subexpressions_self _) hcount (mem_writes hx)
        (mem_reads_of_target hx))
  | @header e target y h hx hy =>
      have hbound : ∃ bound ∈ target.expressions, x ∈ writes bound := by
        have hone : ∀ {bound : Expression}, x ∈ collectForeachBoundVars bound → x ∈ writes bound := by
          intro bound hb
          unfold collectForeachBoundVars at hb
          split at hb
          · have hw := mem_writes hb
            rwa [writes]
          · exact mem_writes hb
        cases target with
        | value bound => exact ⟨bound, List.mem_cons_self .., hone hx⟩
        | keyValue key bound =>
            rcases List.mem_append.mp hx with hx | hx
            · exact ⟨key, List.mem_cons_self .., hone hx⟩
            · exact ⟨bound, List.mem_cons_of_mem _ (List.mem_cons_self ..), hone hx⟩
      obtain ⟨bound, hmem, hw⟩ := hbound
      exact .inl (.header h hmem hw hy.mem_reads)

/-! ## The exact condition -/

theorem mem_selfDependent_iff_seen {statements : List Statement} {updates : List Expression}
    {x : Name} : x ∈ selfDependent statements updates ↔
      Relation.TransGen (Seen statements updates) x x := by
  have hrel : (fun a b => b ∈ filed (collectLoopDeps statements updates) a) =
      Seen statements updates := by
    funext a b
    exact propext mem_filed_loop
  rw [mem_selfDependent_iff, hrel]

/-- No self-dependent variable is missed exactly when each is on a cycle of what
the walk sees. -/
theorem selfDependent_complete_iff (statements : List Statement) (updates : List Expression) :
    (∀ x, Relation.TransGen (Depends statements updates) x x →
        x ∈ selfDependent statements updates) ↔
      ∀ x, Relation.TransGen (Depends statements updates) x x →
        Relation.TransGen (Seen statements updates) x x := by
  simp only [mem_selfDependent_iff_seen]

/-- `$a = [$a];` -/
def arrayOfItself : List Statement :=
  [.expression (.assignment false (.direct "$a") (.array [.value (.direct "$a")]))]

theorem array_literal_missed :
    Relation.TransGen (Depends arrayOfItself []) "$a" "$a" ∧
      "$a" ∉ selfDependent arrayOfItself [] := by
  constructor
  · exact .single (.assignment (List.mem_cons_self ..) (List.mem_cons_self ..)
      (List.mem_cons_self ..) (List.mem_cons_self ..))
  · intro hmem
    rw [mem_selfDependent_iff_seen, Relation.TransGen.head'_iff] at hmem
    obtain ⟨y, hseen, -⟩ := hmem
    rw [seen_iff] at hseen
    simp [arrayOfItself, listExpressionStatements, expressionStatements, listHeaders, headers,
      Files, incrementDecrementOperand, ← mem_collectRhsVariables_iff, collectRhsVariables,
      isIndexedWrite] at hseen

end PhpantomLsp.Flow.LoopAssignments
