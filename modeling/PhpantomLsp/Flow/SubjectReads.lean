import PhpantomLsp.Flow.SubjectKeys

/-!
# What the text of a subject key says about its expression

Read from left to right, a key names variables and opens and closes brackets.
These marks are the ones of the expression (`marks_of_key`), since every part of a
key ends before a character that no name has.  So whether `key_reads_variable` finds a variable can
be told from the expression alone.
-/

namespace PhpantomLsp.Flow

open Text

/-! ## Marks -/

/-- What the scan for a variable takes notice of; a name is without its `$`. -/
inductive Mark where
  | names (name : List Char)
  | opens
  | closes
  deriving DecidableEq

def textMarks : List Char → List Mark
  | [] => []
  | c :: rest =>
      if c = '$' then .names (rest.takeWhile isNameChar) :: textMarks rest
      else if c = '[' then .opens :: textMarks rest
      else if c = ']' then .closes :: textMarks rest
      else textMarks rest

/-- The bracket depth after the marks, from the depth before them. -/
def depthAfter (depth : Nat) : List Mark → Nat
  | [] => depth
  | .names _ :: rest => depthAfter depth rest
  | .opens :: rest => depthAfter (depth + 1) rest
  | .closes :: rest => depthAfter (depth - 1) rest

/-- The name stands among the marks at a place inside brackets. -/
def namedInside (name : List Char) (depth : Nat) : List Mark → Bool
  | [] => false
  | .names other :: rest => (other = name ∧ 0 < depth) || namedInside name depth rest
  | .opens :: rest => namedInside name (depth + 1) rest
  | .closes :: rest => namedInside name (depth - 1) rest

/-- A character that is no mark, outside of a name. -/
def isPlain (c : Char) : Bool := c ≠ '$' && c ≠ '[' && c ≠ ']'

theorem namedInside_append (name : List Char) (depth : Nat) (before after : List Mark) :
    namedInside name depth (before ++ after) =
      (namedInside name depth before || namedInside name (depthAfter depth before) after) := by
  induction before generalizing depth with
  | nil => simp [namedInside, depthAfter]
  | cons mark before ih =>
      cases mark with
      | names other =>
          simp only [List.cons_append, namedInside, depthAfter]
          rw [ih, Bool.or_assoc]
      | opens => exact ih (depth + 1)
      | closes => exact ih (depth - 1)

theorem mem_of_namedInside {name : List Char} {depth : Nat} {marks : List Mark}
    (h : namedInside name depth marks = true) : .names name ∈ marks := by
  induction marks generalizing depth with
  | nil => exact absurd h Bool.false_ne_true
  | cons mark marks ih =>
      cases mark with
      | names other =>
          simp only [namedInside, Bool.or_eq_true, decide_eq_true_eq] at h
          rcases h with ⟨heq, -⟩ | h
          · rw [heq]
            exact List.mem_cons_self
          · exact List.mem_cons_of_mem _ (ih h)
      | opens => exact List.mem_cons_of_mem _ (ih h)
      | closes => exact List.mem_cons_of_mem _ (ih h)

/-- Without an opening bracket nothing stands inside of brackets. -/
theorem namedInside_eq_false {name : List Char} {marks : List Mark} (h : .opens ∉ marks) :
    namedInside name 0 marks = false := by
  induction marks with
  | nil => rfl
  | cons mark marks ih =>
      rw [List.mem_cons, not_or] at h
      cases mark with
      | names other => simpa [namedInside] using ih h.2
      | opens => exact absurd rfl h.1
      | closes => exact ih h.2

/-! ### Marks of a text -/

@[simp] theorem textMarks_nil : textMarks [] = [] := rfl

theorem textMarks_cons_plain {c : Char} (hc : isPlain c = true) (rest : List Char) :
    textMarks (c :: rest) = textMarks rest := by
  simp only [isPlain, ne_eq, Bool.and_eq_true, decide_eq_true_eq] at hc
  rw [textMarks, if_neg hc.1.1, if_neg hc.1.2, if_neg hc.2]

theorem textMarks_append_of_plain {before : List Char} (h : ∀ c ∈ before, isPlain c = true)
    (after : List Char) : textMarks (before ++ after) = textMarks after := by
  induction before with
  | nil => rfl
  | cons c before ih =>
      rw [List.cons_append, textMarks_cons_plain (h c List.mem_cons_self)]
      exact ih fun d hd => h d (List.mem_cons_of_mem _ hd)

theorem textMarks_of_plain {text : List Char} (h : ∀ c ∈ text, isPlain c = true) :
    textMarks text = [] := by
  rw [← List.append_nil text, textMarks_append_of_plain h]
  rfl

theorem takeWhile_append_of_end {after : List Char} (h : after.head?.any isNameChar = false)
    (before : List Char) : (before ++ after).takeWhile isNameChar = before.takeWhile isNameChar := by
  induction before with
  | nil =>
      have hnil := @takeWhile_append_of_name [] _ rfl h
      exact hnil
  | cons c before ih =>
      rw [List.cons_append, List.takeWhile_cons, List.takeWhile_cons, ih]

/-- A text goes on with its own marks after any text, where no name goes on. -/
theorem textMarks_append {after : List Char} (h : after.head?.any isNameChar = false)
    (before : List Char) : textMarks (before ++ after) = textMarks before ++ textMarks after := by
  induction before with
  | nil => rfl
  | cons c before ih =>
      rw [List.cons_append, textMarks, textMarks, ih, takeWhile_append_of_end h]
      split_ifs <;> rfl

/-- The marks on both sides of a character that is no mark and that no name has. -/
theorem textMarks_append_cons {c : Char} (hc : isNameChar c = false) (hplain : isPlain c = true)
    (before after : List Char) :
    textMarks (before ++ c :: after) = textMarks before ++ textMarks after := by
  rw [textMarks_append (by simpa using hc), textMarks_cons_plain hplain]

theorem textMarks_brackets (before inside after : List Char) :
    textMarks (before ++ '[' :: (inside ++ ']' :: after)) =
      textMarks before ++ .opens :: (textMarks inside ++ .closes :: textMarks after) := by
  rw [textMarks_append (by simp [show isNameChar '[' = false by decide])]
  show _ ++ .opens :: textMarks (inside ++ ']' :: after) = _
  rw [textMarks_append (by simp [show isNameChar ']' = false by decide])]
  rfl

theorem isPlain_of_name {c : Char} (h : isNameChar c = true) : isPlain c = true := by
  have hne {d : Char} (hd : isNameChar d = false) : c ≠ d := by
    intro heq
    rw [heq, hd] at h
    exact Bool.false_ne_true h
  simp [isPlain, hne (show isNameChar '$' = false by decide),
    hne (show isNameChar '[' = false by decide), hne (show isNameChar ']' = false by decide)]

theorem Written.plain {allowed : Char → Bool} (hallowed : ∀ c, allowed c = true → isPlain c = true)
    (w : Written allowed) : ∀ c ∈ w.text.toList, isPlain c = true :=
  fun c hc => hallowed c (List.all_eq_true.mp w.isWritten c hc)

/-! ## The scan of a key -/

/-- `bracket_depth_at` counts the marks. -/
theorem bracketDepthAt_eq (depth : Nat) (text : List Char) :
    bracketDepthAt depth text = depthAfter depth (textMarks text) := by
  induction text generalizing depth with
  | nil => rfl
  | cons c text ih =>
      rw [textMarks]
      show bracketDepthAt (if c = '[' then depth + 1 else if c = ']' then depth - 1 else depth)
        text = _
      rw [ih]
      by_cases hdollar : c = '$'
      · simp [hdollar, depthAfter]
      rw [if_neg hdollar]
      by_cases hopen : c = '['
      · simp [hopen, depthAfter]
      by_cases hclose : c = ']'
      · simp [hclose, depthAfter]
      · simp [hopen, hclose]

/-- The first occurrence is the first. -/
theorem findText_first {needle text before after : List Char} (hne : needle ≠ [])
    (h : findText needle text = some (before, after)) : ¬ needle <:+: before := by
  induction text generalizing before after with
  | nil => simp [findText, hne] at h
  | cons c rest ih =>
      have htext := findText_eq_some h
      rw [findText] at h
      by_cases hpre : needle <+: c :: rest
      · rw [if_pos hpre, Option.some.injEq, Prod.mk.injEq] at h
        rw [← h.1]
        exact fun hinfix => hne (List.infix_nil.mp hinfix)
      · rw [if_neg hpre] at h
        obtain ⟨⟨before', after'⟩, hfind, heq⟩ := Option.map_eq_some_iff.mp h
        simp only [Prod.mk.injEq] at heq
        rw [← heq.1, List.infix_cons_iff, not_or]
        refine ⟨fun hstart => hpre ?_, ih hfind⟩
        rw [htext, ← heq.1, List.append_assoc]
        exact hstart.trans (List.prefix_append _ _)

theorem findText_eq_none {needle text : List Char} (h : findText needle text = none) :
    ¬ needle <:+: text := by
  induction text with
  | nil =>
      rw [List.infix_nil]
      intro hnil
      simp [findText, hnil] at h
  | cons c rest ih =>
      rw [findText] at h
      by_cases hpre : needle <+: c :: rest
      · simp [hpre] at h
      · rw [if_neg hpre, Option.map_eq_none_iff] at h
        rw [List.infix_cons_iff, not_or]
        exact ⟨hpre, ih h⟩

/-- What is among the marks is spelled in the text, up to where the name ends. -/
theorem spells_of_mem_textMarks {name text : List Char} (h : .names name ∈ textMarks text) :
    Spells text ('$' :: name) := by
  induction text with
  | nil => exact absurd h List.not_mem_nil
  | cons c text ih =>
      have hlater (hmem : .names name ∈ textMarks text) : Spells (c :: text) ('$' :: name) := by
        have ⟨before, after, htext, hend⟩ := ih hmem
        exact ⟨c :: before, after, by rw [htext]; rfl, hend⟩
      rw [textMarks] at h
      by_cases hdollar : c = '$'
      · rw [if_pos hdollar, List.mem_cons] at h
        rcases h with heq | hmem
        · rw [Mark.names.injEq] at heq
          refine ⟨[], text.dropWhile isNameChar, ?_, ?_⟩
          · rw [hdollar, heq, List.nil_append, List.cons_append, List.takeWhile_append_dropWhile]
          · have hhead := List.head?_dropWhile_not isNameChar text
            cases hrest : (text.dropWhile isNameChar).head? with
            | none => rfl
            | some d =>
                rw [hrest] at hhead
                simpa using hhead
        · exact hlater hmem
      · rw [if_neg hdollar] at h
        split_ifs at h
        · exact hlater (by simpa using h)
        · exact hlater (by simpa using h)
        · exact hlater h

/-- The marks around an occurrence of a variable's text. -/
theorem textMarks_occurrence {name : List Char} (hname : name.all isNameChar = true)
    (before after : List Char) :
    textMarks (before ++ '$' :: name ++ after) =
      textMarks before ++ .names (name ++ after.takeWhile isNameChar) :: textMarks after := by
  rw [List.append_assoc, textMarks_append (by simp [show isNameChar '$' = false by decide])]
  have hall := List.all_eq_true.mp hname
  show _ ++ .names ((name ++ after).takeWhile isNameChar) :: textMarks (name ++ after) = _
  rw [textMarks_append_of_plain fun c hc => isPlain_of_name (hall c hc),
    List.takeWhile_append_of_pos hall]

/-- An occurrence that ends before no name character is one of the name. -/
theorem name_append_eq_iff (name : List Char) {after : List Char} :
    name ++ after.takeWhile isNameChar = name ↔ after.head?.any isNameChar = false := by
  rw [List.append_right_eq_self]
  cases after with
  | nil => simp
  | cons c after => by_cases hc : isNameChar c = true <;> simp [hc]

/-- What the scan finds, told by the marks. -/
def foundIn (bracketedOnly : Bool) (name : List Char) (depth : Nat) (marks : List Mark) : Bool :=
  if bracketedOnly then namedInside name depth marks else decide (.names name ∈ marks)

theorem foundIn_append {bracketedOnly : Bool} {name other : List Char} {depth : Nat}
    {before after : List Mark} (hbefore : .names name ∉ before) :
    foundIn bracketedOnly name depth (before ++ .names other :: after) =
      ((decide (other = name) && (!bracketedOnly || decide (0 < depthAfter depth before))) ||
        foundIn bracketedOnly name (if bracketedOnly then depthAfter depth before else depth)
          after) := by
  cases bracketedOnly with
  | true =>
      have hnone : namedInside name depth before = false := by
        rw [← Bool.not_eq_true]
        exact fun h => hbefore (mem_of_namedInside h)
      simp [foundIn, namedInside_append, hnone, namedInside]
  | false =>
      have hcomm : (name = other) = (other = name) := propext eq_comm
      simp [foundIn, hbefore, hcomm]

/-- The scan finds what the marks tell. -/
theorem readsFrom_eq (bracketedOnly : Bool) {name : List Char} (hname : name.all isNameChar = true)
    (depth : Nat) (text : List Char) :
    readsFrom bracketedOnly ('$' :: name) depth text =
      foundIn bracketedOnly name depth (textMarks text) := by
  have hne : '$' :: name ≠ [] := List.cons_ne_nil _ _
  have hspelled {before : List Char} (h : ¬ '$' :: name <:+: before) :
      .names name ∉ textMarks before := by
    intro hmem
    have ⟨start, rest, htext, _⟩ := spells_of_mem_textMarks hmem
    exact h ⟨start, rest, htext.symm⟩
  fun_induction readsFrom bracketedOnly ('$' :: name) depth text with
  | case1 => contradiction
  | case2 depth text _ hfind =>
      have hnone := hspelled (findText_eq_none hfind)
      symm
      rw [← Bool.not_eq_true]
      intro h
      unfold foundIn at h
      split_ifs at h
      · exact hnone (mem_of_namedInside h)
      · exact hnone (of_decide_eq_true h)
  | case3 depth text _ before after hfind _ depth' hread =>
      rw [findText_eq_some hfind, textMarks_occurrence hname, foundIn_append
        (hspelled (findText_first hne hfind)), ← bracketDepthAt_eq]
      simp only [Bool.and_eq_true, Bool.or_eq_true, Bool.not_eq_true'] at hread
      have hend := (name_append_eq_iff name).mpr hread.2
      cases bracketedOnly with
      | true =>
          have hdepth : 0 < bracketDepthAt depth before := by simpa [depth'] using hread.1
          simp [hend, hdepth]
      | false => simp [hend]
  | case4 depth text _ before after hfind _ depth' hread ih =>
      rw [findText_eq_some hfind, textMarks_occurrence hname, foundIn_append
        (hspelled (findText_first hne hfind)), ← bracketDepthAt_eq, ih]
      have hhere : (decide (name ++ after.takeWhile isNameChar = name) &&
          (!bracketedOnly || decide (0 < bracketDepthAt depth before))) = false := by
        rw [← Bool.not_eq_true]
        intro h
        apply hread
        simp only [Bool.and_eq_true, decide_eq_true_eq] at h
        have hend := (name_append_eq_iff name).mp h.1
        cases bracketedOnly with
        | true => simpa [hend, depth'] using h.2
        | false => simp [hend]
      rw [hhere, Bool.false_or]
      cases bracketedOnly <;> rfl

/-! ## The marks of an expression -/

def Variable.marks : Variable → List Mark
  | .direct v => [.names v.name.text.toList]
  | .computed => []

mutual

/-- The names and brackets an expression is written with, from left to right: those
of its elements and of the text of its strings. -/
def marks : Expression → List Mark
  | .variable v => v.marks
  | .property object _ _ => marks object
  | .methodCall object _ _ arguments => marks object ++ argumentMarks arguments
  | .staticProperty cls property => marks cls ++ property.marks
  | .classConstant cls _ => marks cls
  | .staticCall cls _ arguments => marks cls ++ argumentMarks arguments
  | .functionCall function arguments => marks function ++ argumentMarks arguments
  | .arrayAccess array index => marks array ++ .opens :: (marks index ++ [.closes])
  | .unaryPrefix _ operand => marks operand
  | .binary lhs _ rhs => marks lhs ++ marks rhs
  | .parenthesized inner => marks inner
  | .assignment lhs _ => marks lhs
  | .literal (.string s) => textMarks (s.content.getD "").toList
  | .literal _ => []
  | .identifier _ => []
  | .self => []
  | .static => []
  | .parent => []
  | .constantAccess _ => []
  | .other => []

def argumentMarks : ArgumentList → List Mark
  | .nil => []
  | .positional _ value rest => marks value ++ argumentMarks rest
  | .named _ value rest => marks value ++ argumentMarks rest

end

theorem marks_literal {value : Literal} (h : ∀ s, value ≠ .string s) :
    marks (.literal value) = [] := by
  cases value with
  | string s => exact absurd rfl (h s)
  | integer i => simp [marks]
  | float raw => simp [marks]
  | true => simp [marks]
  | false => simp [marks]
  | null => simp [marks]

/-! ### Texts without a mark -/

theorem plain_name (w : Name) : ∀ c ∈ w.text.toList, isPlain c = true :=
  w.plain fun _ => isPlain_of_name

theorem plain_qualified (w : QualifiedName) : ∀ c ∈ w.text.toList, isPlain c = true := by
  apply w.plain
  intro c hc
  simp only [isQualifiedChar, Bool.or_eq_true, beq_iff_eq] at hc
  rcases hc with hc | hc
  · exact isPlain_of_name hc
  · rw [hc]
    decide

theorem plain_number (w : Written isNumberChar) : ∀ c ∈ w.text.toList, isPlain c = true := by
  apply w.plain
  intro c hc
  simp only [isNumberChar, Bool.or_eq_true, beq_iff_eq] at hc
  rcases hc with ((hc | hc) | hc) | hc
  · exact isPlain_of_name hc
  all_goals
    rw [hc]
    decide

theorem plain_stripFqnPrefix (w : QualifiedName) :
    ∀ c ∈ (stripFqnPrefix w.text).toList, isPlain c = true := by
  have hplain := plain_qualified w
  unfold stripFqnPrefix stripPrefixChar
  split
  · rename_i d rest htext
    split_ifs
    · intro c hc
      apply hplain c
      rw [htext]
      exact List.mem_cons_of_mem _ (by simpa using hc)
    · exact hplain
  · exact hplain

/-- Only letters are the lower case of another character. -/
theorem toLower_ne {c d : Char} (hd : d.toNat < 'a'.toNat) (h : c ≠ d) : c.toLower ≠ d := by
  delta Char.toLower
  split_ifs with hupper
  · intro heq
    have hlow : 'A'.val.toNat ≤ c.val.toNat := UInt32.le_iff_toNat_le.mp hupper.1
    have hhigh : c.val.toNat ≤ 'Z'.val.toNat := UInt32.le_iff_toNat_le.mp hupper.2
    have hsum : (c.val + ('a'.val - 'A'.val)).toNat = c.val.toNat + 32 := by
      rw [UInt32.toNat_add]
      simp only [Char.reduceVal] at hlow hhigh ⊢
      simp only [UInt32.reduceSub, UInt32.reduceToNat] at hlow hhigh ⊢
      omega
    have hval : c.val.toNat + 32 = d.toNat := by
      rw [← hsum]
      exact congrArg Char.toNat heq
    have ha : 'a'.toNat = 97 := rfl
    have hA : 'A'.val.toNat = 65 := rfl
    omega
  · exact h

theorem isPlain_toLower {c : Char} (h : isPlain c = true) : isPlain c.toLower = true := by
  simp only [isPlain, ne_eq, Bool.and_eq_true, decide_eq_true_eq] at h ⊢
  exact ⟨⟨toLower_ne (by decide) h.1.1, toLower_ne (by decide) h.1.2⟩, toLower_ne (by decide) h.2⟩

theorem plain_asciiLower {name : String} (h : ∀ c ∈ name.toList, isPlain c = true) :
    ∀ c ∈ (asciiLower name).toList, isPlain c = true := by
  intro c hc
  rw [toList_asciiLower, List.mem_map] at hc
  have ⟨d, hd, heq⟩ := hc
  rw [← heq]
  exact isPlain_toLower (h d hd)

theorem plain_integer (i : IntegerLiteral) : ∀ c ∈ i.text.toList, isPlain c = true := by
  unfold IntegerLiteral.text
  cases i.value with
  | none => exact plain_name i.raw
  | some n =>
      intro c hc
      have hdigit : isAsciiDigit c = true := decimalDigits_isAsciiDigit n c (by
        simpa [natToString] using hc)
      exact isPlain_of_name (by simp [isNameChar, isAsciiAlphanumeric, hdigit])

theorem takeWhile_escapeArgument (text : List Char) :
    (escapeArgument text).takeWhile isNameChar = text.takeWhile isNameChar := by
  induction text with
  | nil => rfl
  | cons c text ih =>
      rw [escapeArgument]
      split_ifs with hescaped
      · have hslash : isNameChar '\\' = false := by decide
        have hc : isNameChar c = false := by rcases hescaped with rfl | rfl <;> decide
        simp [hslash, hc]
      · rw [List.takeWhile_cons, List.takeWhile_cons, ih]

/-- The escapes of a string argument are no marks, and end the names that end there. -/
theorem textMarks_escapeArgument (text : List Char) :
    textMarks (escapeArgument text) = textMarks text := by
  induction text with
  | nil => rfl
  | cons c text ih =>
      rw [escapeArgument]
      split_ifs with hescaped
      · have hc : isPlain c = true := by rcases hescaped with rfl | rfl <;> decide
        rw [textMarks_cons_plain (by decide), textMarks_cons_plain hc, textMarks_cons_plain hc, ih]
      · rw [textMarks, textMarks, ih, takeWhile_escapeArgument]

/-! ### The marks of a key -/

theorem marks_variable (dv : VariableName) :
    textMarks dv.text.toList = (Variable.direct dv).marks := by
  have hname := dv.name.isWritten
  have h := textMarks_occurrence hname [] []
  simpa [VariableName.text, Variable.marks] using h

/-- A text that ends what stands before it and is no mark. -/
def isSeparator (sep : String) : Bool :=
  sep.toList.all isPlain && !sep.toList.head?.any isNameChar

theorem textMarks_sep_left (sep : String) (hsep : isSeparator sep = true) (after : String) :
    textMarks (sep ++ after).toList = textMarks after.toList := by
  simp only [isSeparator, Bool.and_eq_true] at hsep
  rw [String.toList_append]
  exact textMarks_append_of_plain (List.all_eq_true.mp hsep.1) _

theorem textMarks_sep (sep : String) (hsep : isSeparator sep = true) (hne : sep.toList ≠ [])
    (before after : String) :
    textMarks (before ++ sep ++ after).toList =
      textMarks before.toList ++ textMarks after.toList := by
  have hrest := textMarks_sep_left sep hsep after
  simp only [isSeparator, Bool.and_eq_true, Bool.not_eq_true'] at hsep
  rw [String.append_assoc, String.toList_append, textMarks_append, hrest]
  rw [String.toList_append, List.head?_append_of_ne_nil _ hne]
  exact hsep.2

theorem textMarks_sep_right (sep : String) (hsep : isSeparator sep = true) (hne : sep.toList ≠ [])
    (before : String) : textMarks (before ++ sep).toList = textMarks before.toList := by
  have h := textMarks_sep sep hsep hne before ""
  rw [String.append_empty] at h
  rw [h]
  exact List.append_nil _

theorem textMarks_call (function arguments : String) :
    textMarks (function ++ "(" ++ arguments ++ ")").toList =
      textMarks function.toList ++ textMarks arguments.toList := by
  rw [textMarks_sep_right ")" (by decide) (by decide), textMarks_sep "(" (by decide) (by decide)]

theorem textMarks_member (key : String) (name : Name) :
    textMarks (key ++ "->" ++ name.text).toList = textMarks key.toList := by
  rw [textMarks_sep "->" (by decide) (by decide), textMarks_of_plain (plain_name name),
    List.append_nil]

theorem textMarks_operator {operator : BinaryOperator} {text : String}
    (h : arithmeticOperatorText operator = some text) (lhs rhs : String) :
    textMarks (lhs ++ text ++ rhs).toList = textMarks lhs.toList ++ textMarks rhs.toList := by
  apply textMarks_sep
  all_goals cases operator <;> simp only [arithmeticOperatorText, Option.some.injEq, reduceCtorEq] at h
  all_goals
    rw [← h]
    decide

theorem textMarks_sign {operator : UnaryPrefixOperator} {text : String}
    (h : signText operator = some text) (operand : String) :
    textMarks (text ++ operand).toList = textMarks operand.toList := by
  apply textMarks_sep_left
  cases operator <;> simp only [signText, Option.some.injEq, reduceCtorEq] at h
  all_goals
    rw [← h]
    decide

theorem plain_conversion {operator : UnaryPrefixOperator} {text : String}
    (h : conversionFunction operator = some text) : ∀ c ∈ text.toList, isPlain c = true := by
  cases operator <;> simp only [conversionFunction, Option.some.injEq, reduceCtorEq] at h
  all_goals
    rw [← h]
    exact List.all_eq_true.mp (by decide)

theorem textMarks_index (base index : String) :
    textMarks (base ++ "[" ++ index ++ "]").toList =
      textMarks base.toList ++ .opens :: (textMarks index.toList ++ [.closes]) := by
  have h := textMarks_brackets base.toList index.toList []
  simpa using h

theorem textMarks_literalIndex (base index : String) :
    textMarks (base ++ "[\"" ++ index ++ "\"]").toList =
      textMarks base.toList ++ .opens :: (textMarks index.toList ++ [.closes]) := by
  have hinside : textMarks ('"' :: (index.toList ++ ['"'])) = textMarks index.toList := by
    rw [textMarks_cons_plain (by decide), textMarks_append_cons (by decide) (by decide),
      textMarks_nil, List.append_nil]
  have h := textMarks_brackets base.toList ('"' :: (index.toList ++ ['"'])) []
  rw [hinside] at h
  simpa using h

theorem textMarks_argument {first : Bool} {value rest : String}
    (h : rest.toList.head?.any isNameChar = false) :
    textMarks ((if first then "" else ",") ++ value ++ rest).toList =
        textMarks value.toList ++ textMarks rest.toList ∧
      (first = false →
        ((if first then "" else ",") ++ value ++ rest).toList.head?.any isNameChar = false) := by
  have hsep : isSeparator (if first then "" else ",") = true := by cases first <;> decide
  constructor
  · rw [String.toList_append, textMarks_append h, textMarks_sep_left _ hsep]
  · intro hfirst
    rw [hfirst, String.append_assoc, String.toList_append]
    rfl

theorem textMarks_namedArgument {first : Bool} (name : Name) {value rest : String}
    (h : rest.toList.head?.any isNameChar = false) :
    textMarks ((if first then "" else ",") ++ name.text ++ ":" ++ value ++ rest).toList =
        textMarks value.toList ++ textMarks rest.toList ∧
      (first = false → ((if first then "" else ",") ++ name.text ++ ":" ++ value ++
        rest).toList.head?.any isNameChar = false) := by
  have hlabel : textMarks (name.text ++ ":" ++ value).toList = textMarks value.toList := by
    rw [textMarks_sep ":" (by decide) (by decide), textMarks_of_plain (plain_name name),
      List.nil_append]
  have hargument := @textMarks_argument first (name.text ++ ":" ++ value) _ h
  rw [hlabel] at hargument
  simpa only [String.append_assoc] using hargument

/-- A literal index has the marks of its text. -/
theorem marks_arrayIndexLiteralKey {index : Expression} {key : String}
    (h : arrayIndexLiteralKey index = some key) : textMarks key.toList = marks index := by
  unfold arrayIndexLiteralKey at h
  split at h
  · simp [marks, h]
  · rw [← Option.some.inj h, textMarks_of_plain (plain_integer _), marks_literal (by simp)]
  · contradiction

mutual

theorem marks_exprToSubjectKey {expr : Expression} {key : String}
    (h : exprToSubjectKey expr = some key) : textMarks key.toList = marks expr := by
  unfold exprToSubjectKey at h
  split at h
  · contradiction
  · rename_i object nullSafe name
    have ⟨base, hbase, heq⟩ := Option.bind_eq_some_iff.mp h
    have hmarks := marks_exprToSubjectKey hbase
    rw [← Option.some.inj heq, textMarks_member, hmarks, marks]
  · contradiction
  · rename_i object nullSafe name arguments
    have ⟨base, hbase, hrest⟩ := Option.bind_eq_some_iff.mp h
    have ⟨list, hlist, heq⟩ := Option.bind_eq_some_iff.mp hrest
    have hmarks := marks_exprToSubjectKey hbase
    have harguments := marks_argumentListKey hlist
    rw [← Option.some.inj heq, textMarks_call, textMarks_member, hmarks, harguments, marks]
  · exact marks_nonChainSubjectKey h
termination_by (sizeOf expr, 2)

theorem marks_nonChainSubjectKey {expr : Expression} {key : String}
    (h : nonChainSubjectKey expr = some key) : textMarks key.toList = marks expr := by
  unfold nonChainSubjectKey at h
  split at h
  · rw [← Option.some.inj h, marks_variable, marks]
  · rename_i cls property
    have ⟨base, hbase, heq⟩ := Option.bind_eq_some_iff.mp h
    have hmarks := marks_staticClassKey hbase
    split at heq
    · rw [← Option.some.inj heq, textMarks_sep "::" (by decide) (by decide), hmarks, marks_variable,
        marks]
    · contradiction
  · exact marks_arrayAccessSubjectKey h
  · rename_i cls method arguments
    have ⟨base, hbase, heq⟩ := Option.bind_eq_some_iff.mp h
    have hmarks := marks_staticClassKey hbase
    split at heq
    · rename_i name
      have ⟨list, hlist, heq⟩ := Option.bind_eq_some_iff.mp heq
      have harguments := marks_argumentListKey hlist
      rw [← Option.some.inj heq, textMarks_call, textMarks_sep "::" (by decide) (by decide), hmarks,
        harguments, textMarks_of_plain (plain_name name), List.append_nil, marks]
    · contradiction
  · rename_i ident arguments
    simp only at h
    split_ifs at h
    have ⟨list, hlist, heq⟩ := Option.bind_eq_some_iff.mp h
    have harguments := marks_argumentListKey hlist
    rw [← Option.some.inj heq, textMarks_call, harguments,
      textMarks_of_plain (plain_asciiLower (plain_stripFqnPrefix ident)), marks, marks]
  · rename_i operator operand
    have ⟨function, hfunction, hcall⟩ := Option.bind_eq_some_iff.mp h
    rw [marks_conversionCallKey hcall, textMarks_of_plain (plain_conversion hfunction), marks]
    rfl
  · rw [marks_exprToSubjectKey h, marks]
  · rw [marks_exprToSubjectKey h, marks]
  · contradiction
termination_by (sizeOf expr, 1)
decreasing_by
  all_goals subst_vars
  all_goals decreasing_tactic

theorem marks_arrayAccessSubjectKey {array index : Expression} {key : String}
    (h : arrayAccessSubjectKey array index = some key) :
    textMarks key.toList = marks (.arrayAccess array index) := by
  unfold arrayAccessSubjectKey at h
  have ⟨base, hbase, heq⟩ := Option.bind_eq_some_iff.mp h
  have hmarks := marks_exprToSubjectKey hbase
  split at heq
  · rename_i literal hliteral
    rw [← Option.some.inj heq, textMarks_literalIndex, hmarks, marks_arrayIndexLiteralKey hliteral,
      marks]
  · have ⟨computed, hcomputed, heq⟩ := Option.bind_eq_some_iff.mp heq
    have hindex := marks_arrayIndexKey hcomputed
    split_ifs at heq
    rw [← Option.some.inj heq, textMarks_index, hmarks, hindex, marks]
termination_by (1 + sizeOf array + sizeOf index, 0)

theorem marks_arrayIndexKey {expr : Expression} {key : String}
    (h : arrayIndexKey expr = some key) : textMarks key.toList = marks expr := by
  unfold arrayIndexKey at h
  split at h
  · rename_i lhs operator rhs
    have ⟨text, htext, hrest⟩ := Option.bind_eq_some_iff.mp h
    have ⟨left, hleft, hrest⟩ := Option.bind_eq_some_iff.mp hrest
    have ⟨right, hright, heq⟩ := Option.bind_eq_some_iff.mp hrest
    rw [← Option.some.inj heq, textMarks_operator htext, marks_arrayIndexKey hleft,
      marks_arrayIndexKey hright, marks]
  · rename_i operator operand
    have ⟨sign, hsign, hrest⟩ := Option.bind_eq_some_iff.mp h
    have ⟨inner, hinner, heq⟩ := Option.bind_eq_some_iff.mp hrest
    rw [← Option.some.inj heq, textMarks_sign hsign, marks_arrayIndexKey hinner, marks]
  · rename_i inner
    have ⟨rendered, hrendered, heq⟩ := Option.bind_eq_some_iff.mp h
    have hinner := marks_arrayIndexKey hrendered
    rw [marks, ← hinner]
    split at heq
    · rw [← Option.some.inj heq, textMarks_sep_right ")" (by decide) (by decide),
        textMarks_sep_left "(" (by decide)]
    · rw [Option.some.inj heq]
  · rw [← Option.some.inj h, textMarks_of_plain (plain_integer _), marks_literal (by simp)]
  · exact marks_exprToSubjectKey h
termination_by (sizeOf expr, 3)

theorem marks_staticClassKey {cls : Expression} {key : String}
    (h : staticClassKey cls = some key) : textMarks key.toList = marks cls := by
  unfold staticClassKey at h
  split at h
  · rw [← Option.some.inj h, textMarks_of_plain (plain_stripFqnPrefix _), marks]
  · rw [← Option.some.inj h, marks]
    decide
  · rw [← Option.some.inj h, marks]
    decide
  · rw [← Option.some.inj h, marks]
    decide
  · exact marks_exprToSubjectKey h
termination_by (sizeOf cls, 3)

theorem marks_argumentsKeyFrom {first : Bool} {arguments : ArgumentList} {key : String}
    (h : argumentsKeyFrom first arguments = some key) :
    textMarks key.toList = argumentMarks arguments ∧
      (first = false → key.toList.head?.any isNameChar = false) := by
  unfold argumentsKeyFrom at h
  split at h
  · rw [← Option.some.inj h, argumentMarks]
    exact ⟨rfl, fun _ => rfl⟩
  · rename_i ellipsis value rest
    by_cases hellipsis : ellipsis = true
    · simp [hellipsis] at h
    rw [if_neg hellipsis] at h
    have ⟨text, htext, hrest⟩ := Option.bind_eq_some_iff.mp h
    have ⟨tail, htail, heq⟩ := Option.bind_eq_some_iff.mp hrest
    have hvalue := marks_argumentValueKey htext
    have hmarks := marks_argumentsKeyFrom htail
    rw [← Option.some.inj heq, argumentMarks, ← hvalue, ← hmarks.1]
    exact textMarks_argument (hmarks.2 rfl)
  · rename_i name value rest
    have ⟨text, htext, hrest⟩ := Option.bind_eq_some_iff.mp h
    have ⟨tail, htail, heq⟩ := Option.bind_eq_some_iff.mp hrest
    have hvalue := marks_argumentValueKey htext
    have hmarks := marks_argumentsKeyFrom htail
    rw [← Option.some.inj heq, argumentMarks, ← hvalue, ← hmarks.1]
    exact textMarks_namedArgument name (hmarks.2 rfl)
termination_by (sizeOf arguments, 3)

theorem marks_argumentListKey {arguments : ArgumentList} {key : String}
    (h : argumentListKey arguments = some key) :
    textMarks key.toList = argumentMarks arguments := by
  unfold argumentListKey at h
  exact (marks_argumentsKeyFrom h).1
termination_by (sizeOf arguments, 4)

theorem marks_conversionCallKey {function : String} {operand : Expression} {key : String}
    (h : conversionCallKey function operand = some key) :
    textMarks key.toList = textMarks function.toList ++ marks operand := by
  unfold conversionCallKey at h
  have ⟨value, hvalue, heq⟩ := Option.bind_eq_some_iff.mp h
  rw [← Option.some.inj heq, textMarks_call, marks_argumentValueKey hvalue]
termination_by (sizeOf operand, 4)

theorem marks_argumentValueKey {expr : Expression} {key : String}
    (h : argumentValueKey expr = some key) : textMarks key.toList = marks expr := by
  unfold argumentValueKey at h
  split at h
  · have ⟨value, hvalue, heq⟩ := Option.bind_eq_some_iff.mp h
    rw [← Option.some.inj heq, textMarks_sep_right "'" (by decide) (by decide),
      textMarks_sep_left "'" (by decide), String.toList_ofList, textMarks_escapeArgument]
    simp [marks, hvalue]
  · rw [← Option.some.inj h, textMarks_of_plain (plain_integer _), marks_literal (by simp)]
  · rw [← Option.some.inj h, textMarks_of_plain (plain_number _), marks_literal (by simp)]
  · rw [← Option.some.inj h, marks_literal (by simp)]
    decide
  · rw [← Option.some.inj h, marks_literal (by simp)]
    decide
  · rw [← Option.some.inj h, marks_literal (by simp)]
    decide
  · rw [← Option.some.inj h, textMarks_of_plain (plain_stripFqnPrefix _), marks]
  · rename_i cls constant
    have ⟨base, hbase, heq⟩ := Option.bind_eq_some_iff.mp h
    have hmarks := marks_staticClassKey hbase
    split at heq
    · rename_i name
      rw [← Option.some.inj heq, textMarks_sep "::" (by decide) (by decide), hmarks,
        textMarks_of_plain (plain_name name), List.append_nil, marks]
    · contradiction
  · rw [marks_argumentValueKey h, marks]
  · exact marks_exprToSubjectKey h
termination_by (sizeOf expr, 3)

end

end PhpantomLsp.Flow
