import PhpantomLsp.Flow.SubjectReads

/-!
# The keys a write makes stale

Writing to a variable has to drop every key that reads it.  A key says where its
expression starts and whether it is a call; with the marks of the expression this
decides which of the variables it reads `key_reads_variable` finds
(`keyReadsVariable_subject`).  A variable that is read outside of all brackets is
found in a call only, and not in a member of what the call returns.
-/

namespace PhpantomLsp.Flow

open Text

/-! ## What an expression reads -/

mutual

/-- The variables that evaluating an expression reads. -/
def reads : Expression → List VariableName
  | .variable (.direct v) => [v]
  | .variable .computed => []
  | .property object _ _ => reads object
  | .methodCall object _ _ arguments => reads object ++ argumentReads arguments
  | .staticProperty cls _ => reads cls
  | .classConstant cls _ => reads cls
  | .staticCall cls _ arguments => reads cls ++ argumentReads arguments
  | .functionCall function arguments => reads function ++ argumentReads arguments
  | .arrayAccess array index => reads array ++ reads index
  | .unaryPrefix _ operand => reads operand
  | .binary lhs _ rhs => reads lhs ++ reads rhs
  | .parenthesized inner => reads inner
  | .assignment lhs rhs => reads lhs ++ reads rhs
  | .literal _ => []
  | .identifier _ => []
  | .self => []
  | .static => []
  | .parent => []
  | .constantAccess _ => []
  | .other => []

def argumentReads : ArgumentList → List VariableName
  | .nil => []
  | .positional _ value rest => reads value ++ argumentReads rest
  | .named _ value rest => reads value ++ argumentReads rest

end

/-- The expression without its parentheses; of an assignment, its target. -/
def subject : Expression → Expression
  | .parenthesized inner => subject inner
  | .assignment lhs _ => subject lhs
  | expr => expr

/-- The subject is the value of a call or of a scalar cast. -/
def isCallSubject (expr : Expression) : Bool :=
  match subject expr with
  | .methodCall _ _ _ _ | .staticCall _ _ _ | .functionCall _ _ | .unaryPrefix _ _ => true
  | _ => false

/-- The variable a chain of members and elements starts at. -/
def startsAt : Expression → Option VariableName
  | .variable (.direct v) => some v
  | .property object _ _ => startsAt object
  | .methodCall object _ _ _ => startsAt object
  | .staticProperty cls _ => startsAt cls
  | .staticCall cls _ _ => startsAt cls
  | .arrayAccess array _ => startsAt array
  | .parenthesized inner => startsAt inner
  | .assignment lhs _ => startsAt lhs
  | _ => none

/-- What a write to the variable is seen by: the expression starts at it, or is a call
that names it, or names it inside of brackets. -/
def isStaleAfter (expr : Expression) (v : VariableName) : Bool :=
  startsAt expr = some v ||
    (if isCallSubject expr then decide (.names v.name.text.toList ∈ marks expr)
      else namedInside v.name.text.toList 0 (marks expr))

/-! ## Where a key starts -/

/-- The rest of a key after the variable it is rooted at. -/
def IsPath (rest : List Char) : Prop :=
  ['-', '>'] <+: rest ∨ ['['] <+: rest ∨ [':', ':'] <+: rest

/-- A key starts with the text of the variable, and goes on unless it is that alone. -/
def StartsWith (start : Option VariableName) (alone : VariableName → Prop) (key : List Char) :
    Prop :=
  match start with
  | some x => ∃ rest, key = x.text.toList ++ rest ∧ (rest = [] ∧ alone x ∨ IsPath rest)
  | none => key.head? ≠ some '$'

theorem IsPath.head {rest : List Char} (h : IsPath rest) : rest.head? ≠ some '$' := by
  have ⟨c, _, hhead, hc⟩ := head_of_path h
  rw [hhead]
  rcases hc with rfl | rfl | rfl <;> decide

theorem IsPath.append {rest : List Char} (h : IsPath rest) (more : List Char) :
    IsPath (rest ++ more) := by
  rcases h with h | h | h
  · exact Or.inl (h.trans (List.prefix_append _ _))
  · exact Or.inr (Or.inl (h.trans (List.prefix_append _ _)))
  · exact Or.inr (Or.inr (h.trans (List.prefix_append _ _)))

/-- Another link leaves the start of a key as it is. -/
theorem StartsWith.append {start : Option VariableName} {alone alone' : VariableName → Prop}
    {key link : List Char} (h : StartsWith start alone key) (hlink : IsPath link) :
    StartsWith start alone' (key ++ link) := by
  cases start with
  | some x =>
      have ⟨rest, hkey, hrest⟩ := h
      refine ⟨rest ++ link, by rw [hkey, List.append_assoc], Or.inr ?_⟩
      rcases hrest with ⟨hnil, _⟩ | hpath
      · rw [hnil]
        exact hlink
      · exact hpath.append link
  | none =>
      show (key ++ link).head? ≠ some '$'
      cases key with
      | nil => exact hlink.head
      | cons c key => exact h

theorem startsWith_none_of_plain {alone : VariableName → Prop} {text after : List Char}
    (h : ∀ c ∈ text, isPlain c = true) (hafter : after.head? ≠ some '$') :
    StartsWith none alone (text ++ after) := by
  show (text ++ after).head? ≠ some '$'
  cases text with
  | nil => exact hafter
  | cons c text =>
      intro heq
      have hc := h c List.mem_cons_self
      rw [List.cons_append, List.head?_cons, Option.some.injEq] at heq
      rw [heq] at hc
      exact absurd hc (by decide)

/-- The expression is the variable and nothing more. -/
def Alone (expr : Expression) (x : VariableName) : Prop := subject expr = .variable (.direct x)

theorem isPath_member (rest : List Char) : IsPath ('-' :: '>' :: rest) := Or.inl ⟨rest, rfl⟩

theorem isPath_element (rest : List Char) : IsPath ('[' :: rest) := Or.inr (Or.inl ⟨rest, rfl⟩)

theorem isPath_scope (rest : List Char) : IsPath (':' :: ':' :: rest) := Or.inr (Or.inr ⟨rest, rfl⟩)

theorem startsWith_member {start : Option VariableName} {alone alone' : VariableName → Prop}
    {base : String} (h : StartsWith start alone base.toList) (rest : String) :
    StartsWith start alone' (base ++ "->" ++ rest).toList := by
  have hkey : (base ++ "->" ++ rest).toList = base.toList ++ '-' :: '>' :: rest.toList := by simp
  rw [hkey]
  exact h.append (isPath_member _)

theorem startsWith_scope {start : Option VariableName} {alone alone' : VariableName → Prop}
    {cls : String} (h : StartsWith start alone cls.toList) (rest : String) :
    StartsWith start alone' (cls ++ "::" ++ rest).toList := by
  have hkey : (cls ++ "::" ++ rest).toList = cls.toList ++ ':' :: ':' :: rest.toList := by simp
  rw [hkey]
  exact h.append (isPath_scope _)

theorem startsWith_element {start : Option VariableName} {alone alone' : VariableName → Prop}
    {base : String} (h : StartsWith start alone base.toList) (rest : String) :
    StartsWith start alone' (base ++ "[" ++ rest).toList := by
  have hkey : (base ++ "[" ++ rest).toList = base.toList ++ '[' :: rest.toList := by simp
  rw [hkey]
  exact h.append (isPath_element _)

theorem startsWith_call {alone : VariableName → Prop} {function : String}
    (h : ∀ c ∈ function.toList, isPlain c = true) (arguments : String) :
    StartsWith none alone (function ++ "(" ++ arguments ++ ")").toList := by
  have hkey : (function ++ "(" ++ arguments ++ ")").toList =
      function.toList ++ '(' :: (arguments.toList ++ [')']) := by simp
  rw [hkey]
  exact startsWith_none_of_plain h (by simp)

theorem startsWith_plain {alone : VariableName → Prop} {text : String}
    (h : ∀ c ∈ text.toList, isPlain c = true) : StartsWith none alone text.toList := by
  have hstart := @startsWith_none_of_plain alone _ [] h (by simp)
  rwa [List.append_nil] at hstart

mutual

theorem starts_exprToSubjectKey {expr : Expression} {key : String}
    (h : exprToSubjectKey expr = some key) :
    StartsWith (startsAt expr) (Alone expr) key.toList := by
  unfold exprToSubjectKey at h
  split at h
  · contradiction
  · rename_i object nullSafe name
    have ⟨base, hbase, heq⟩ := Option.bind_eq_some_iff.mp h
    rw [← Option.some.inj heq, startsAt]
    exact startsWith_member (starts_exprToSubjectKey hbase) _
  · contradiction
  · rename_i object nullSafe name arguments
    have ⟨base, hbase, hrest⟩ := Option.bind_eq_some_iff.mp h
    have ⟨list, hlist, heq⟩ := Option.bind_eq_some_iff.mp hrest
    have hkey : base ++ "->" ++ name.text ++ "(" ++ list ++ ")" =
        base ++ "->" ++ (name.text ++ "(" ++ list ++ ")") := by simp only [String.append_assoc]
    rw [← Option.some.inj heq, hkey, startsAt]
    exact startsWith_member (starts_exprToSubjectKey hbase) _
  · exact starts_nonChainSubjectKey h
termination_by (sizeOf expr, 2)

theorem starts_nonChainSubjectKey {expr : Expression} {key : String}
    (h : nonChainSubjectKey expr = some key) :
    StartsWith (startsAt expr) (Alone expr) key.toList := by
  unfold nonChainSubjectKey at h
  split at h
  · rw [← Option.some.inj h, startsAt]
    exact ⟨[], by simp, Or.inl ⟨rfl, by simp [Alone, subject]⟩⟩
  · rename_i cls property
    have ⟨base, hbase, heq⟩ := Option.bind_eq_some_iff.mp h
    split at heq
    · rw [← Option.some.inj heq, startsAt]
      exact startsWith_scope (starts_staticClassKey hbase) _
    · contradiction
  · rename_i array index
    unfold arrayAccessSubjectKey at h
    have ⟨base, hbase, heq⟩ := Option.bind_eq_some_iff.mp h
    have hstart := starts_exprToSubjectKey hbase
    rw [startsAt]
    split at heq
    · rename_i literal _
      have hkey : base ++ "[\"" ++ literal ++ "\"]" =
          base ++ "[" ++ ("\"" ++ literal ++ "\"]") := String.toList_inj.mp (by simp)
      rw [← Option.some.inj heq, hkey]
      exact startsWith_element hstart _
    · have ⟨computed, _, heq⟩ := Option.bind_eq_some_iff.mp heq
      split_ifs at heq
      have hkey : base ++ "[" ++ computed ++ "]" = base ++ "[" ++ (computed ++ "]") := by
        simp only [String.append_assoc]
      rw [← Option.some.inj heq, hkey]
      exact startsWith_element hstart _
  · rename_i cls method arguments
    have ⟨base, hbase, heq⟩ := Option.bind_eq_some_iff.mp h
    split at heq
    · rename_i name
      have ⟨list, hlist, heq⟩ := Option.bind_eq_some_iff.mp heq
      have hkey : base ++ "::" ++ name.text ++ "(" ++ list ++ ")" =
          base ++ "::" ++ (name.text ++ "(" ++ list ++ ")") := by simp only [String.append_assoc]
      rw [← Option.some.inj heq, hkey, startsAt]
      exact startsWith_scope (starts_staticClassKey hbase) _
    · contradiction
  · rename_i ident arguments
    simp only at h
    split_ifs at h
    have ⟨list, hlist, heq⟩ := Option.bind_eq_some_iff.mp h
    rw [← Option.some.inj heq, startsAt]
    · exact startsWith_call (plain_asciiLower (plain_stripFqnPrefix ident)) _
    all_goals simp
  · rename_i operator operand
    have ⟨function, hfunction, hcall⟩ := Option.bind_eq_some_iff.mp h
    unfold conversionCallKey at hcall
    have ⟨value, hvalue, heq⟩ := Option.bind_eq_some_iff.mp hcall
    rw [← Option.some.inj heq, startsAt]
    · exact startsWith_call (plain_conversion hfunction) _
    all_goals simp
  · rename_i inner
    have hinner := starts_exprToSubjectKey h
    rw [startsAt]
    have halone : Alone (.parenthesized inner) = Alone inner := by
      unfold Alone
      rw [subject]
    rw [halone]
    exact hinner
  · rename_i lhs rhs
    have htarget := starts_exprToSubjectKey h
    rw [startsAt]
    have halone : Alone (.assignment lhs rhs) = Alone lhs := by
      unfold Alone
      rw [subject]
    rw [halone]
    exact htarget
  · contradiction
termination_by (sizeOf expr, 1)

theorem starts_staticClassKey {cls : Expression} {key : String}
    (h : staticClassKey cls = some key) :
    StartsWith (startsAt cls) (Alone cls) key.toList := by
  unfold staticClassKey at h
  split at h
  · rw [← Option.some.inj h, startsAt]
    · exact startsWith_plain (plain_stripFqnPrefix _)
    all_goals simp
  · rw [← Option.some.inj h, startsAt]
    · exact startsWith_plain (List.all_eq_true.mp (by decide))
    all_goals simp
  · rw [← Option.some.inj h, startsAt]
    · exact startsWith_plain (List.all_eq_true.mp (by decide))
    all_goals simp
  · rw [← Option.some.inj h, startsAt]
    · exact startsWith_plain (List.all_eq_true.mp (by decide))
    all_goals simp
  · exact starts_exprToSubjectKey h
termination_by (sizeOf cls, 3)

end

/-! ## Where a key ends -/

theorem isCallSubject_parenthesized (inner : Expression) :
    isCallSubject (.parenthesized inner) = isCallSubject inner := by
  unfold isCallSubject
  rw [subject]

theorem isCallSubject_assignment (lhs rhs : Expression) :
    isCallSubject (.assignment lhs rhs) = isCallSubject lhs := by
  unfold isCallSubject
  rw [subject]

theorem isCallKey_call (function arguments : String) :
    isCallKey (function ++ "(" ++ arguments ++ ")") = true := by
  unfold isCallKey
  rw [String.toList_append, List.getLast?_append]
  rfl

theorem isCallKey_element (before : String) : isCallKey (before ++ "]") = false := by
  unfold isCallKey
  rw [String.toList_append, List.getLast?_append]
  rfl

/-- A name does not end in a parenthesis, and neither does what stands before it. -/
theorem isCallKey_name {before : String} (name : Name) (h : isCallKey before = false) :
    isCallKey (before ++ name.text) = false := by
  unfold isCallKey at h ⊢
  rw [String.toList_append]
  cases hlast : name.text.toList.getLast? with
  | none =>
      rw [List.getLast?_eq_none_iff] at hlast
      rw [hlast, List.append_nil]
      exact h
  | some c =>
      have hmem := List.mem_of_getLast? hlast
      have hname := List.all_eq_true.mp name.isWritten c hmem
      rw [List.getLast?_append, hlast, Option.some_or]
      have hne : c ≠ ')' := by
        intro heq
        rw [heq] at hname
        exact absurd hname (by decide)
      simpa using hne

theorem isCallKey_variable (before : String) (dv : VariableName) :
    isCallKey (before ++ dv.text) = false := by
  have hdollar : isCallKey (before ++ "$") = false := by simp [isCallKey]
  have hname := isCallKey_name dv.name hdollar
  rw [VariableName.text, ← String.append_assoc]
  exact hname

mutual

/-- A key ends in a parenthesis where its subject is a call. -/
theorem isCallKey_exprToSubjectKey {expr : Expression} {key : String}
    (h : exprToSubjectKey expr = some key) : isCallKey key = isCallSubject expr := by
  unfold exprToSubjectKey at h
  split at h
  · contradiction
  · rename_i object nullSafe name
    have ⟨base, hbase, heq⟩ := Option.bind_eq_some_iff.mp h
    have harrow : isCallKey (base ++ "->") = false := by simp [isCallKey]
    rw [← Option.some.inj heq, isCallKey_name name harrow]
    simp [isCallSubject, subject]
  · contradiction
  · have ⟨base, hbase, hrest⟩ := Option.bind_eq_some_iff.mp h
    have ⟨list, hlist, heq⟩ := Option.bind_eq_some_iff.mp hrest
    rw [← Option.some.inj heq, isCallKey_call]
    simp [isCallSubject, subject]
  · exact isCallKey_nonChainSubjectKey h
termination_by (sizeOf expr, 2)

theorem isCallKey_nonChainSubjectKey {expr : Expression} {key : String}
    (h : nonChainSubjectKey expr = some key) : isCallKey key = isCallSubject expr := by
  unfold nonChainSubjectKey at h
  split at h
  · rename_i dv
    have hvariable := isCallKey_variable "" dv
    rw [String.empty_append] at hvariable
    rw [← Option.some.inj h, hvariable]
    simp [isCallSubject, subject]
  · have ⟨base, hbase, heq⟩ := Option.bind_eq_some_iff.mp h
    split at heq
    · rw [← Option.some.inj heq, isCallKey_variable]
      simp [isCallSubject, subject]
    · contradiction
  · rename_i array index
    unfold arrayAccessSubjectKey at h
    have ⟨base, hbase, heq⟩ := Option.bind_eq_some_iff.mp h
    have hnot : isCallSubject (.arrayAccess array index) = false := by
      simp [isCallSubject, subject]
    rw [hnot]
    split at heq
    · rename_i literal _
      have hlast : base ++ "[\"" ++ literal ++ "\"]" = base ++ "[\"" ++ literal ++ "\"" ++ "]" :=
        String.toList_inj.mp (by simp)
      rw [← Option.some.inj heq, hlast, isCallKey_element]
    · have ⟨computed, _, heq⟩ := Option.bind_eq_some_iff.mp heq
      split_ifs at heq
      rw [← Option.some.inj heq, isCallKey_element]
  · have ⟨base, hbase, heq⟩ := Option.bind_eq_some_iff.mp h
    split at heq
    · have ⟨list, hlist, heq⟩ := Option.bind_eq_some_iff.mp heq
      rw [← Option.some.inj heq, isCallKey_call]
      simp [isCallSubject, subject]
    · contradiction
  · simp only at h
    split_ifs at h
    have ⟨list, hlist, heq⟩ := Option.bind_eq_some_iff.mp h
    rw [← Option.some.inj heq, isCallKey_call]
    simp [isCallSubject, subject]
  · have ⟨function, hfunction, hcall⟩ := Option.bind_eq_some_iff.mp h
    unfold conversionCallKey at hcall
    have ⟨value, hvalue, heq⟩ := Option.bind_eq_some_iff.mp hcall
    rw [← Option.some.inj heq, isCallKey_call]
    simp [isCallSubject, subject]
  · rw [isCallKey_exprToSubjectKey h, isCallSubject_parenthesized]
  · rw [isCallKey_exprToSubjectKey h, isCallSubject_assignment]
  · contradiction
termination_by (sizeOf expr, 1)

end

/-! ## What the test finds -/

theorem VariableName.toList_text (v : VariableName) : v.text.toList = '$' :: v.name.text.toList := by
  simp [VariableName.text]

theorem head_name_of_path {rest : List Char} (h : IsPath rest) :
    rest.head?.any isNameChar = false := by
  have ⟨c, _, hhead, hc⟩ := head_of_path h
  rw [hhead]
  rcases hc with rfl | rfl | rfl <;> decide

/-- A variable is what its text spells. -/
theorem VariableName.ext_of_text {x v : VariableName} {rest after : List Char}
    (h : x.text.toList ++ rest = v.text.toList ++ after) (hrest : rest.head?.any isNameChar = false)
    (hafter : after.head?.any isNameChar = false) : x = v ∧ rest = after := by
  rw [VariableName.toList_text, VariableName.toList_text, List.cons_append, List.cons_append,
    List.cons.injEq] at h
  have hx := takeWhile_append_of_name x.name.isWritten hrest
  have hv := takeWhile_append_of_name v.name.isWritten hafter
  rw [h.2, hv] at hx
  refine ⟨?_, ?_⟩
  · have htext : x.name.text = v.name.text := String.toList_inj.mp hx.symm
    cases x with
    | mk xname xne =>
        cases v with
        | mk vname vne =>
            cases xname
            cases vname
            simp only at htext
            simp only [htext]
  · have hrest := h.2
    rw [hx] at hrest
    exact List.append_cancel_left hrest

/-- Rooted at a variable is what starts at it and goes on. -/
theorem rootedAt_iff_startsAt {expr : Expression} {key : String} {v : VariableName}
    (h : exprToSubjectKey expr = some key) (hnot : ¬ Alone expr v) :
    rootedAt key.toList v.text.toList = true ↔ startsAt expr = some v := by
  have hstart := starts_exprToSubjectKey h
  rw [rootedAt_iff]
  constructor
  · intro ⟨after, hkey, hpath⟩
    cases hfrom : startsAt expr with
    | none =>
        rw [hfrom] at hstart
        have hhead : key.toList.head? ≠ some '$' := hstart
        rw [hkey, VariableName.toList_text] at hhead
        exact absurd rfl hhead
    | some x =>
        rw [hfrom] at hstart
        have ⟨rest, hx, hrest⟩ := hstart
        have hend : rest.head?.any isNameChar = false := by
          rcases hrest with ⟨hnil, _⟩ | hrest
          · rw [hnil]
            rfl
          · exact head_name_of_path hrest
        rw [(VariableName.ext_of_text (hx.symm.trans hkey) hend (head_name_of_path hpath)).1]
  · intro hfrom
    rw [hfrom] at hstart
    have ⟨rest, hx, hrest⟩ := hstart
    refine ⟨rest, hx, ?_⟩
    rcases hrest with ⟨_, halone⟩ | hpath
    · exact absurd halone hnot
    · exact hpath

/-- Brackets are counted from none, so a text without one has nothing inside. -/
theorem opens_not_mem_textMarks {text : List Char} (h : '[' ∉ text) : .opens ∉ textMarks text := by
  induction text with
  | nil => exact List.not_mem_nil
  | cons c text ih =>
      rw [List.mem_cons, not_or] at h
      have hlater := ih h.2
      rw [textMarks, if_neg (show ¬ c = '[' from fun heq => h.1 heq.symm)]
      split_ifs <;> simp [hlater]

/-- **What `key_reads_variable` finds**: of an expression that is not the variable
itself, exactly what the expression says. -/
theorem keyReadsVariable_subject {expr : Expression} {key : String} {v : VariableName}
    (h : exprToSubjectKey expr = some key) (hnot : ¬ Alone expr v) :
    keyReadsVariable key v.text = isStaleAfter expr v := by
  have hmarks := marks_exprToSubjectKey h
  have hroot := rootedAt_iff_startsAt h hnot
  have hne : v.text.toList ≠ [] := by simp [VariableName.toList_text]
  unfold keyReadsVariable isStaleAfter
  rw [if_neg hne]
  by_cases hstarts : startsAt expr = some v
  · rw [if_pos (hroot.mpr hstarts)]
    simp [hstarts]
  · rw [if_neg fun hr => hstarts (hroot.mp hr)]
    simp only [hstarts, decide_false, Bool.false_or]
    rw [isCallKey_exprToSubjectKey h, VariableName.toList_text, readsFrom_eq _ v.name.isWritten,
      hmarks]
    cases isCallSubject expr with
    | true => simp [foundIn]
    | false =>
        by_cases hopen : '[' ∈ key.toList
        · simp [foundIn, hopen]
        · have hnone := @namedInside_eq_false v.name.text.toList _
            (opens_not_mem_textMarks hopen)
          rw [hmarks] at hnone
          simp [hopen, hnone]

/-- Of the variables an expression reads, the ones whose writes its key is dropped for. -/
theorem found_iff_isStaleAfter {expr : Expression} {key : String} {v : VariableName}
    (h : exprToSubjectKey expr = some key) :
    (v ∈ reads expr → ¬ Alone expr v → keyReadsVariable key v.text = true) ↔
      (v ∈ reads expr → ¬ Alone expr v → isStaleAfter expr v = true) := by
  constructor
  · intro hfound hread hnot
    rw [← keyReadsVariable_subject h hnot]
    exact hfound hread hnot
  · intro hstale hread hnot
    rw [keyReadsVariable_subject h hnot]
    exact hstale hread hnot

/-! ### A call in the middle of a chain -/

/-- `$x` -/
def sampleVariable : VariableName := ⟨⟨"x", by decide⟩, by decide⟩

/-- `f($x)` -/
def sampleCall : Expression :=
  .functionCall (.identifier ⟨"f", by decide⟩)
    (.positional false (.variable (.direct sampleVariable)) .nil)

/-- `f($x)->prop` -/
def sampleMember : Expression := .property sampleCall false (.identifier ⟨"prop", by decide⟩)

theorem exprToSubjectKey_sampleCall : exprToSubjectKey sampleCall = some "f($x)" := by
  simp only [sampleCall, exprToSubjectKey, nonChainSubjectKey, argumentListKey, argumentsKeyFrom,
    argumentValueKey]
  decide +kernel

theorem found_iff_isStaleAfter_call :
    exprToSubjectKey sampleCall = some "f($x)" ∧
      ((sampleVariable ∈ reads sampleCall → ¬ Alone sampleCall sampleVariable →
          keyReadsVariable "f($x)" sampleVariable.text = true) ↔
        (sampleVariable ∈ reads sampleCall → ¬ Alone sampleCall sampleVariable →
          isStaleAfter sampleCall sampleVariable = true)) := by
  exact ⟨exprToSubjectKey_sampleCall, found_iff_isStaleAfter exprToSubjectKey_sampleCall⟩

/-- A member of what a call returns keeps its key when an argument of the call is
written. -/
theorem member_of_call_not_found :
    exprToSubjectKey sampleMember = some "f($x)->prop" ∧
      sampleVariable ∈ reads sampleMember ∧ ¬ Alone sampleMember sampleVariable ∧
      keyReadsVariable "f($x)->prop" sampleVariable.text = false := by
  refine ⟨?_, ?_, ?_, by decide +kernel⟩
  · rw [sampleMember, exprToSubjectKey, exprToSubjectKey_sampleCall]
    rfl
  · simp [sampleMember, sampleCall, reads, argumentReads]
  · simp [Alone, sampleMember, subject]

end PhpantomLsp.Flow
