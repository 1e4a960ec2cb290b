import Mathlib.Data.List.Basic

/-!
# Statement lists that leave their block

`statements_leave_block` answers whether control is gone by the end of a
statement list.  The meaning of a list is given by what an execution of it may
end in, from the start of the list or from a `goto` label inside it; conditions
are left out, so any branch may be taken.  When the answer is yes, no execution
ends at the end of the list (`not_reaches_end`).
-/

namespace PhpantomLsp.Flow.Exits

/-! ## Statements -/

/-- An expression, as far as an expression statement is looked into. -/
inductive Expression (ε : Type) where
  | throw
  | exit
  | die
  | parenthesized (inner : Expression ε)
  /-- A `match`, by the expressions of its arms. -/
  | matchArms (arms : List (Expression ε))
  | other (e : ε)

abbrev Label := String

inductive Statement (ε : Type) where
  | expression (e : Expression ε)
  | returns
  /-- `continue` and `break`, out of so many loops or switches. -/
  | continues (levels : Nat)
  | breaks (levels : Nat)
  | label (name : Label)
  | goto (name : Label)
  | block (statements : List (Statement ε))
  /-- An `if` whose branches are statements. -/
  | ifStatement (body : Statement ε) (elseIfs : List (Statement ε)) (orElse : Option (Statement ε))
  /-- An `if` whose branches are lists behind a colon. -/
  | ifColon (body : List (Statement ε)) (elseIfs : List (List (Statement ε)))
      (orElse : Option (List (Statement ε)))
  | tryCatch (block : List (Statement ε)) (catches : List (List (Statement ε)))
      (final : Option (List (Statement ε)))
  | declareStatement (body : Statement ε)
  | declareColon (body : List (Statement ε))
  /-- `while`, `do`, `for` and `foreach`. -/
  | loop (body : List (Statement ε))
  | switch (cases : List (List (Statement ε)))
  /-- Any other statement, which is not looked into. -/
  | other

variable {ε : Type}

/-! ## The analysis -/

section Analysis

variable (neverCall : Expression ε → Bool)

mutual

def expressionLeaves : Expression ε → Bool
  | .throw => true
  | .exit => true
  | .die => true
  | .parenthesized inner => expressionLeaves inner
  | .matchArms arms => expressionsLeave arms
  | .other e => neverCall (.other e)

def expressionsLeave : List (Expression ε) → Bool
  | [] => true
  | arm :: rest => expressionLeaves arm && expressionsLeave rest

end

mutual

/-- Whether a `goto` can land inside the statement. -/
def containsEntryLabel : Statement ε → Bool
  | .label _ => true
  | .block statements => anyEntryLabel statements
  | .ifStatement body elseIfs orElse =>
      containsEntryLabel body || anyEntryLabel elseIfs || optionEntryLabel orElse
  | .ifColon body elseIfs orElse =>
      anyEntryLabel body || anyListEntryLabel elseIfs || optionListEntryLabel orElse
  | .tryCatch block catches _ => anyEntryLabel block || anyListEntryLabel catches
  | .declareStatement body => containsEntryLabel body
  | .declareColon body => anyEntryLabel body
  | _ => false

def anyEntryLabel : List (Statement ε) → Bool
  | [] => false
  | s :: rest => containsEntryLabel s || anyEntryLabel rest

def anyListEntryLabel : List (List (Statement ε)) → Bool
  | [] => false
  | statements :: rest => anyEntryLabel statements || anyListEntryLabel rest

def optionEntryLabel : Option (Statement ε) → Bool
  | none => false
  | some s => containsEntryLabel s

def optionListEntryLabel : Option (List (Statement ε)) → Bool
  | none => false
  | some statements => anyEntryLabel statements

end

/-- `matches!(stmt, Statement::Label(_))` -/
def isLabel : Statement ε → Bool
  | .label _ => true
  | _ => false

mutual

def statementLeavesBlock : Statement ε → Bool
  | .returns => true
  | .continues _ => true
  | .breaks _ => true
  | .expression e => expressionLeaves neverCall e
  | .block statements => !endReachable true statements
  | .ifStatement body elseIfs orElse =>
      statementLeavesBlock body && allLeave elseIfs && optionLeaves orElse
  | .ifColon body elseIfs orElse =>
      !endReachable true body && allListsLeave elseIfs && optionListLeaves orElse
  | _ => false

/-- The flag of the loop at the end of the list. -/
def endReachable (reachable : Bool) : List (Statement ε) → Bool
  | [] => reachable
  | s :: rest =>
      if isLabel s then endReachable true rest
      else if reachable || containsEntryLabel s then endReachable (!statementLeavesBlock s) rest
      else endReachable reachable rest

def allLeave : List (Statement ε) → Bool
  | [] => true
  | s :: rest => statementLeavesBlock s && allLeave rest

def allListsLeave : List (List (Statement ε)) → Bool
  | [] => true
  | statements :: rest => !endReachable true statements && allListsLeave rest

def optionLeaves : Option (Statement ε) → Bool
  | none => false
  | some s => statementLeavesBlock s

def optionListLeaves : Option (List (Statement ε)) → Bool
  | none => false
  | some statements => !endReachable true statements

end

/-- Whether control is gone by the end of a statement list. -/
def statementsLeaveBlock (statements : List (Statement ε)) : Bool :=
  !endReachable neverCall true statements

end Analysis

/-! ## What an execution may end in -/

/-- The expression may be evaluated to its end, given which of the others may
be. -/
inductive Completes (others : ε → Prop) : Expression ε → Prop
  | parenthesized {inner : Expression ε} (h : Completes others inner) :
      Completes others (.parenthesized inner)
  | matchArms {arms : List (Expression ε)} {arm : Expression ε} (harm : arm ∈ arms)
      (h : Completes others arm) : Completes others (.matchArms arms)
  | other {e : ε} (h : others e) : Completes others (.other e)

/-- Where an execution enters. -/
inductive Entry where
  | start
  | atLabel (name : Label)

inductive Outcome where
  /-- The end is reached. -/
  | normal
  | breaks (levels : Nat)
  | continues (levels : Nat)
  | goto (name : Label)
  | returns
  | raises
  /-- The program ends. -/
  | exits

/-- PHP lets a `goto` to the label land inside the statement: in a block, a
branch, the body of a `try` or a `catch`, and the body of a `declare`, but not in
a loop, a `switch` or a `finally`. -/
inductive Lands (name : Label) : Statement ε → Prop
  | label : Lands name (.label name)
  | block {statements : List (Statement ε)} {s : Statement ε} (hs : s ∈ statements)
      (h : Lands name s) : Lands name (.block statements)
  | ifBody {body : Statement ε} {elseIfs : List (Statement ε)} {orElse : Option (Statement ε)}
      {s : Statement ε} (hs : s ∈ body :: elseIfs ++ orElse.toList) (h : Lands name s) :
      Lands name (.ifStatement body elseIfs orElse)
  | ifColon {body : List (Statement ε)} {elseIfs : List (List (Statement ε))}
      {orElse : Option (List (Statement ε))} {branch : List (Statement ε)} {s : Statement ε}
      (hbranch : branch ∈ body :: elseIfs ++ orElse.toList) (hs : s ∈ branch) (h : Lands name s) :
      Lands name (.ifColon body elseIfs orElse)
  | tryBlock {block : List (Statement ε)} {catches : List (List (Statement ε))}
      {final : Option (List (Statement ε))} {s : Statement ε} (hs : s ∈ block) (h : Lands name s) :
      Lands name (.tryCatch block catches final)
  | catchBlock {block : List (Statement ε)} {catches : List (List (Statement ε))}
      {final : Option (List (Statement ε))} {clause : List (Statement ε)} {s : Statement ε}
      (hclause : clause ∈ catches) (hs : s ∈ clause) (h : Lands name s) :
      Lands name (.tryCatch block catches final)
  | declareStatement {body : Statement ε} (h : Lands name body) :
      Lands name (.declareStatement body)
  | declareColon {body : List (Statement ε)} {s : Statement ε} (hs : s ∈ body) (h : Lands name s) :
      Lands name (.declareColon body)

/-- A list is entered at its first statement, or at a statement a jump lands
in. -/
inductive Enters (statements : List (Statement ε)) : Nat → Entry → Prop
  | start : Enters statements 0 .start
  | atLabel {i : Nat} {s : Statement ε} {name : Label} (hs : statements[i]? = some s)
      (h : Lands name s) : Enters statements i (.atLabel name)

/-- What runs: a statement, a list from a statement of it on, the rounds of a
loop, or a `finally` behind what came before it. -/
inductive Code (ε : Type) where
  | statement (s : Statement ε) (entry : Entry)
  | list (statements : List (Statement ε)) (i : Nat) (entry : Entry)
  | rounds (body : List (Statement ε))
  | finally (final : Option (List (Statement ε))) (before : Outcome)

/-- What is left of a `break` or `continue` once it is out of a loop or a
`switch`; the last level ends it. -/
def Outcome.outOfLoop : Outcome → Outcome
  | .breaks levels => if levels ≤ 1 then .normal else .breaks (levels - 1)
  | .continues levels => if levels ≤ 1 then .normal else .continues (levels - 1)
  | outcome => outcome

/-- The next round of a loop may follow. -/
def Outcome.goesOn : Outcome → Prop
  | .normal => True
  | .continues levels => levels ≤ 1
  | _ => False

/-- Executions, from where they enter to what they end in. -/
inductive Exec (others : ε → Prop) : Code ε → Outcome → Prop
  | completes {e : Expression ε} (h : Completes others e) :
      Exec others (.statement (.expression e) .start) .normal
  -- an expression may raise an exception or end the program wherever one is evaluated
  | raises {s : Statement ε} : Exec others (.statement s .start) .raises
  | exits {s : Statement ε} : Exec others (.statement s .start) .exits
  | returns : Exec others (.statement .returns .start) .returns
  | breaks {levels : Nat} : Exec others (.statement (.breaks levels) .start) (.breaks levels)
  | continues {levels : Nat} :
      Exec others (.statement (.continues levels) .start) (.continues levels)
  | label {name : Label} {entry : Entry} : Exec others (.statement (.label name) entry) .normal
  | goto {name : Label} : Exec others (.statement (.goto name) .start) (.goto name)
  | other {o : Outcome} : Exec others (.statement .other .start) o
  | block {statements : List (Statement ε)} {i : Nat} {entry : Entry} {o : Outcome}
      (henters : Enters statements i entry) (h : Exec others (.list statements i entry) o) :
      Exec others (.statement (.block statements) entry) o
  | ifStatement {body s : Statement ε} {elseIfs : List (Statement ε)}
      {orElse : Option (Statement ε)} {entry : Entry} {o : Outcome}
      (hs : s ∈ body :: elseIfs ++ orElse.toList) (h : Exec others (.statement s entry) o) :
      Exec others (.statement (.ifStatement body elseIfs orElse) entry) o
  | ifStatementNone {body : Statement ε} {elseIfs : List (Statement ε)} :
      Exec others (.statement (.ifStatement body elseIfs none) .start) .normal
  | ifColon {body branch : List (Statement ε)} {elseIfs : List (List (Statement ε))}
      {orElse : Option (List (Statement ε))} {i : Nat} {entry : Entry} {o : Outcome}
      (hbranch : branch ∈ body :: elseIfs ++ orElse.toList) (henters : Enters branch i entry)
      (h : Exec others (.list branch i entry) o) :
      Exec others (.statement (.ifColon body elseIfs orElse) entry) o
  | ifColonNone {body : List (Statement ε)} {elseIfs : List (List (Statement ε))} :
      Exec others (.statement (.ifColon body elseIfs none) .start) .normal
  | tryBlock {block : List (Statement ε)} {catches : List (List (Statement ε))}
      {final : Option (List (Statement ε))} {i : Nat} {entry : Entry} {o o' : Outcome}
      (henters : Enters block i entry) (h : Exec others (.list block i entry) o)
      (hfinal : Exec others (.finally final o) o') :
      Exec others (.statement (.tryCatch block catches final) entry) o'
  | tryCaught {block clause : List (Statement ε)} {catches : List (List (Statement ε))}
      {final : Option (List (Statement ε))} {i : Nat} {entry : Entry} {o o' : Outcome}
      (henters : Enters block i entry) (h : Exec others (.list block i entry) .raises)
      (hclause : clause ∈ catches) (hcatch : Exec others (.list clause 0 .start) o)
      (hfinal : Exec others (.finally final o) o') :
      Exec others (.statement (.tryCatch block catches final) entry) o'
  | catchBlock {block clause : List (Statement ε)} {catches : List (List (Statement ε))}
      {final : Option (List (Statement ε))} {i : Nat} {entry : Entry} {o o' : Outcome}
      (hclause : clause ∈ catches) (henters : Enters clause i entry) (hentry : entry ≠ .start)
      (h : Exec others (.list clause i entry) o) (hfinal : Exec others (.finally final o) o') :
      Exec others (.statement (.tryCatch block catches final) entry) o'
  | finallyNone {o : Outcome} : Exec others (.finally none o) o
  | finallyAfter {final : List (Statement ε)} {o : Outcome}
      (h : Exec others (.list final 0 .start) .normal) : Exec others (.finally (some final) o) o
  | finallyInstead {final : List (Statement ε)} {before o : Outcome} (ho : o ≠ .normal)
      (h : Exec others (.list final 0 .start) o) : Exec others (.finally (some final) before) o
  | declareStatement {body : Statement ε} {entry : Entry} {o : Outcome}
      (h : Exec others (.statement body entry) o) :
      Exec others (.statement (.declareStatement body) entry) o
  | declareColon {body : List (Statement ε)} {i : Nat} {entry : Entry} {o : Outcome}
      (henters : Enters body i entry) (h : Exec others (.list body i entry) o) :
      Exec others (.statement (.declareColon body) entry) o
  | loop {body : List (Statement ε)} {o : Outcome} (h : Exec others (.rounds body) o) :
      Exec others (.statement (.loop body) .start) o
  | roundsDone {body : List (Statement ε)} : Exec others (.rounds body) .normal
  | roundsMore {body : List (Statement ε)} {o o' : Outcome}
      (h : Exec others (.list body 0 .start) o) (hon : o.goesOn)
      (hmore : Exec others (.rounds body) o') : Exec others (.rounds body) o'
  | roundsLast {body : List (Statement ε)} {o : Outcome} (h : Exec others (.list body 0 .start) o) :
      Exec others (.rounds body) o.outOfLoop
  | switch {cases : List (List (Statement ε))} {i : Nat} {o : Outcome}
      (h : Exec others (.list cases.flatten i .start) o) :
      Exec others (.statement (.switch cases) .start) o.outOfLoop
  | switchNone {cases : List (List (Statement ε))} :
      Exec others (.statement (.switch cases) .start) .normal
  | done {statements : List (Statement ε)} :
      Exec others (.list statements statements.length .start) .normal
  | next {statements : List (Statement ε)} {i : Nat} {s : Statement ε} {entry : Entry} {o : Outcome}
      (hs : statements[i]? = some s) (h : Exec others (.statement s entry) .normal)
      (hrest : Exec others (.list statements (i + 1) .start) o) :
      Exec others (.list statements i entry) o
  -- a jump to a label of the list goes on there
  | jump {statements : List (Statement ε)} {i j : Nat} {s : Statement ε} {entry : Entry}
      {name : Label} {o : Outcome} (hs : statements[i]? = some s)
      (h : Exec others (.statement s entry) (.goto name)) (henters : Enters statements j (.atLabel name))
      (hrest : Exec others (.list statements j (.atLabel name)) o) :
      Exec others (.list statements i entry) o
  -- any other leaves it; a jump may go to a label of a list around this one
  | leave {statements : List (Statement ε)} {i : Nat} {s : Statement ε} {entry : Entry} {o : Outcome}
      (hs : statements[i]? = some s) (h : Exec others (.statement s entry) o) (ho : o ≠ .normal) :
      Exec others (.list statements i entry) o

/-! ## The analysis over lists -/

section Analysis

variable {neverCall : Expression ε → Bool}

@[simp] theorem expressionsLeave_eq_all (arms : List (Expression ε)) :
    expressionsLeave neverCall arms = arms.all (expressionLeaves neverCall) := by
  induction arms with
  | nil => rfl
  | cons arm rest ih => rw [expressionsLeave, ih, List.all_cons]

@[simp] theorem anyEntryLabel_eq_any (statements : List (Statement ε)) :
    anyEntryLabel statements = statements.any containsEntryLabel := by
  induction statements with
  | nil => rfl
  | cons s rest ih => rw [anyEntryLabel, ih, List.any_cons]

@[simp] theorem anyListEntryLabel_eq_any (branches : List (List (Statement ε))) :
    anyListEntryLabel branches = branches.any anyEntryLabel := by
  induction branches with
  | nil => rfl
  | cons branch rest ih => rw [anyListEntryLabel, ih, List.any_cons]

@[simp] theorem optionEntryLabel_eq_any (orElse : Option (Statement ε)) :
    optionEntryLabel orElse = orElse.toList.any containsEntryLabel := by
  cases orElse with
  | none => rfl
  | some s => simp [optionEntryLabel]

@[simp] theorem optionListEntryLabel_eq_any (orElse : Option (List (Statement ε))) :
    optionListEntryLabel orElse = orElse.toList.any anyEntryLabel := by
  cases orElse with
  | none => rfl
  | some branch => simp [optionListEntryLabel]

@[simp] theorem allLeave_eq_all (statements : List (Statement ε)) :
    allLeave neverCall statements = statements.all (statementLeavesBlock neverCall) := by
  induction statements with
  | nil => rfl
  | cons s rest ih => rw [allLeave, ih, List.all_cons]

@[simp] theorem allListsLeave_eq_all (branches : List (List (Statement ε))) :
    allListsLeave neverCall branches = branches.all (statementsLeaveBlock neverCall) := by
  induction branches with
  | nil => rfl
  | cons branch rest ih => rw [allListsLeave, ih, List.all_cons, statementsLeaveBlock]

theorem endReachable_append (r : Bool) (before after : List (Statement ε)) :
    endReachable neverCall r (before ++ after) =
      endReachable neverCall (endReachable neverCall r before) after := by
  induction before generalizing r with
  | nil => rfl
  | cons s rest ih => grind [endReachable]

/-- A statement that does not leave keeps the end reachable, if the flag is up
before it or a jump can land in it. -/
theorem endReachable_single {r : Bool} {s : Statement ε}
    (hin : r = true ∨ containsEntryLabel s = true) (hs : statementLeavesBlock neverCall s = false) :
    endReachable neverCall r [s] = true := by
  have hkeep : (r || containsEntryLabel s) = true := by simpa using hin
  simp [endReachable, hkeep, hs]

/-- One branch that does not leave is enough. -/
theorem ifStatement_not_leaves {body s : Statement ε} {elseIfs : List (Statement ε)}
    {orElse : Option (Statement ε)} (hmem : s ∈ body :: elseIfs ++ orElse.toList)
    (hs : statementLeavesBlock neverCall s = false) :
    statementLeavesBlock neverCall (.ifStatement body elseIfs orElse) = false := by
  by_contra hleaves
  have hall : statementLeavesBlock neverCall body = true ∧
      (∀ t ∈ elseIfs, statementLeavesBlock neverCall t = true) ∧
      optionLeaves neverCall orElse = true := by
    simpa [statementLeavesBlock, and_assoc] using hleaves
  obtain ⟨hbody, helse, hlast⟩ := hall
  simp only [List.cons_append, List.mem_cons, List.mem_append, Option.mem_toList] at hmem
  obtain rfl | hmem | rfl := hmem
  · simp [hs] at hbody
  · simp [helse s hmem] at hs
  · simp [optionLeaves, hs] at hlast

theorem ifColon_not_leaves {body branch : List (Statement ε)} {elseIfs : List (List (Statement ε))}
    {orElse : Option (List (Statement ε))} (hmem : branch ∈ body :: elseIfs ++ orElse.toList)
    (hbranch : endReachable neverCall true branch = true) :
    statementLeavesBlock neverCall (.ifColon body elseIfs orElse) = false := by
  by_contra hleaves
  have hall : endReachable neverCall true body = false ∧
      (∀ t ∈ elseIfs, endReachable neverCall true t = false) ∧
      optionListLeaves neverCall orElse = true := by
    simpa [statementLeavesBlock, statementsLeaveBlock, and_assoc] using hleaves
  obtain ⟨hbody, helse, hlast⟩ := hall
  simp only [List.cons_append, List.mem_cons, List.mem_append, Option.mem_toList] at hmem
  obtain rfl | hmem | rfl := hmem
  · simp [hbranch] at hbody
  · simp [helse branch hmem] at hbranch
  · simp [optionListLeaves, hbranch] at hlast

end Analysis

/-! ## Soundness -/

section Soundness

variable {neverCall : Expression ε → Bool} {others : ε → Prop}

theorem Completes.not_leaves (hsound : ∀ e, neverCall e = true → ¬ Completes others e)
    {e : Expression ε} (h : Completes others e) : expressionLeaves neverCall e = false := by
  induction h with
  | parenthesized h ih => rw [expressionLeaves, ih]
  | matchArms harm h ih =>
      rw [expressionLeaves, expressionsLeave_eq_all, List.all_eq_false]
      exact ⟨_, harm, by simp [ih]⟩
  | @other e h =>
      rw [expressionLeaves, Bool.eq_false_iff]
      intro hnever
      exact hsound _ hnever (.other h)

/-- Every label a jump can go to is seen. -/
theorem Lands.containsEntryLabel {name : Label} {s : Statement ε} (h : Lands name s) :
    containsEntryLabel s = true := by
  induction h with
  | label => rfl
  | block hs h ih =>
      simp only [Exits.containsEntryLabel, anyEntryLabel_eq_any, List.any_eq_true]
      exact ⟨_, hs, ih⟩
  | @ifBody body elseIfs orElse s hs h ih =>
      have hany : (body :: elseIfs ++ orElse.toList).any Exits.containsEntryLabel = true :=
        List.any_eq_true.mpr ⟨s, hs, ih⟩
      simpa [Exits.containsEntryLabel, or_assoc] using hany
  | @ifColon body elseIfs orElse branch s hbranch hs h ih =>
      have hany : (body :: elseIfs ++ orElse.toList).any anyEntryLabel = true := by
        refine List.any_eq_true.mpr ⟨branch, hbranch, ?_⟩
        rw [anyEntryLabel_eq_any]
        exact List.any_eq_true.mpr ⟨s, hs, ih⟩
      rw [Exits.containsEntryLabel, anyListEntryLabel_eq_any, optionListEntryLabel_eq_any]
      simpa only [List.cons_append, List.any_cons, List.any_append, Bool.or_assoc] using hany
  | tryBlock hs h ih =>
      have hany := List.any_eq_true.mpr ⟨_, hs, ih⟩
      rw [Exits.containsEntryLabel, anyEntryLabel_eq_any, hany, Bool.true_or]
  | @catchBlock block catches final clause s hclause hs h ih =>
      have hany : catches.any anyEntryLabel = true := by
        refine List.any_eq_true.mpr ⟨clause, hclause, ?_⟩
        rw [anyEntryLabel_eq_any]
        exact List.any_eq_true.mpr ⟨s, hs, ih⟩
      rw [Exits.containsEntryLabel, anyListEntryLabel_eq_any, hany, Bool.or_true]
  | declareStatement h ih => rw [Exits.containsEntryLabel, ih]
  | declareColon hs h ih =>
      rw [Exits.containsEntryLabel, anyEntryLabel_eq_any]
      exact List.any_eq_true.mpr ⟨_, hs, ih⟩

/-- How control may come to a position of a list: from the statement before it,
the flag being up, or by a jump. -/
def Arrives (neverCall : Expression ε → Bool) (statements : List (Statement ε)) (i : Nat) :
    Entry → Prop
  | .start => endReachable neverCall true (statements.take i) = true
  | .atLabel name => Enters statements i (.atLabel name)

theorem Enters.arrives {statements : List (Statement ε)} {i : Nat} {entry : Entry}
    (h : Enters statements i entry) : Arrives neverCall statements i entry := by
  cases h with
  | start => rfl
  | atLabel hs h => exact .atLabel hs h

/-- One step of a list: behind a statement that does not leave, the flag is
up. -/
theorem Arrives.next {statements : List (Statement ε)} {i : Nat} {entry : Entry} {s : Statement ε}
    (h : Arrives neverCall statements i entry) (hs : statements[i]? = some s)
    (hstays : statementLeavesBlock neverCall s = false) :
    Arrives neverCall statements (i + 1) .start := by
  have hin : endReachable neverCall true (statements.take i) = true ∨
      containsEntryLabel s = true := by
    cases entry with
    | start => exact .inl h
    | atLabel name =>
        cases h with
        | atLabel ht hlands =>
            obtain rfl : s = _ := Option.some.inj (hs.symm.trans ht)
            exact .inr hlands.containsEntryLabel
  have htake : statements.take (i + 1) = statements.take i ++ [s] := by
    rw [List.take_add_one, hs, Option.toList_some]
  rw [Arrives, htake, endReachable_append]
  exact endReachable_single hin hstays

/-- What the analysis may not say of code that comes to its end. -/
def StaysReachable (neverCall : Expression ε → Bool) : Code ε → Prop
  | .statement s _ => statementLeavesBlock neverCall s = false
  | .list statements i entry =>
      Arrives neverCall statements i entry → endReachable neverCall true statements = true
  | .rounds _ => True
  | .finally _ _ => True

/-- By induction on the execution: code that comes to its end is not taken for
code that leaves. -/
theorem Exec.staysReachable (hsound : ∀ e, neverCall e = true → ¬ Completes others e)
    {code : Code ε} {o : Outcome} (h : Exec others code o) (ho : o = .normal) :
    StaysReachable neverCall code := by
  induction h with
  | completes h => exact h.not_leaves hsound
  | raises => cases ho
  | exits => cases ho
  | returns => cases ho
  | breaks => cases ho
  | continues => cases ho
  | goto => cases ho
  | label => rfl
  | other => rfl
  | block henters h ih =>
      have hend := ih ho henters.arrives
      simp [StaysReachable, statementLeavesBlock, hend]
  | ifStatement hs h ih => exact ifStatement_not_leaves hs (ih ho)
  | ifStatementNone => simp [StaysReachable, statementLeavesBlock, optionLeaves]
  | ifColon hbranch henters h ih => exact ifColon_not_leaves hbranch (ih ho henters.arrives)
  | ifColonNone => simp [StaysReachable, statementLeavesBlock, optionListLeaves]
  -- these never leave, whatever is in them
  | tryBlock => rfl
  | tryCaught => rfl
  | catchBlock => rfl
  | declareStatement => rfl
  | declareColon => rfl
  | loop => rfl
  | switch => rfl
  | switchNone => rfl
  | finallyNone => trivial
  | finallyAfter => trivial
  | finallyInstead => trivial
  | roundsDone => trivial
  | roundsMore => trivial
  | roundsLast => trivial
  | done =>
      intro harrives
      rwa [Arrives, List.take_length] at harrives
  | next hs h hrest ihs ihrest =>
      intro harrives
      exact ihrest ho (harrives.next hs (ihs rfl))
  | jump hs h henters hrest ihs ihrest =>
      intro _
      exact ihrest ho henters
  | leave hs h hne => exact absurd ho hne

/-- When the answer is yes, no execution reaches the end of the list, wherever
it enters. -/
theorem not_reaches_end (hsound : ∀ e, neverCall e = true → ¬ Completes others e)
    {statements : List (Statement ε)} (hleave : statementsLeaveBlock neverCall statements = true)
    {i : Nat} {entry : Entry} (henters : Enters statements i entry) :
    ¬ Exec others (.list statements i entry) .normal := by
  intro h
  have hend := h.staysReachable hsound rfl henters.arrives
  simp [statementsLeaveBlock, hend] at hleave

end Soundness

/-- A predicate that knows the calls of `abort()`. -/
def callsAbort : Expression String → Bool
  | .other call => call == "abort()"
  | _ => false

/-- A jump into the block behind a `return` runs into the call there. -/
theorem not_reaches_end_label :
    ¬ Exec (fun call => call ≠ "abort()")
      (.list [.returns, .block [.label "again", .expression (.other "abort()")]] 1
        (.atLabel "again")) .normal := by
  have hsound : ∀ e, callsAbort e = true → ¬ Completes (fun call => call ≠ "abort()") e := by
    intro e he hcompletes
    cases hcompletes with
    | parenthesized => cases he
    | matchArms => cases he
    | other h => exact h (by simpa [callsAbort] using he)
  exact not_reaches_end hsound (by decide) (.atLabel rfl (.block (List.mem_cons_self ..) .label))

/-- A loop is never taken to leave, nor is a list behind it. -/
example : statementsLeaveBlock (fun _ : Expression Unit => false)
    [.loop [.returns], .label "on", .other] = false := by
  decide

end PhpantomLsp.Flow.Exits
