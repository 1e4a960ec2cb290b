import PhpantomLsp.Folding.Literals

/-!
# Where the text of an expression is split

For an expression whose operands the scan comes out of with no operator found, the
text is split at the operator at its root, and nowhere else.
-/

namespace PhpantomLsp.Folding

open PhpantomLsp.Text

/-! ## Plain expressions -/

def isBlank (gap : List Char) : Bool := gap.all [' ', '\t', '\n', '\r'].contains

/-- Two characters that one token, or none of PHP's, is made of. -/
def joins (c d : Char) : Bool :=
  ['|', '&', '*', '>'].contains d || (c == d && ['+', '-', '/'].contains c)

/-- An operator that ends in `c` is kept apart from the operand behind it. -/
def apart (c : Char) (gap text : List Char) : Bool := !gap.isEmpty || !text.head?.any (joins c)

/-- A text that is asked about as a whole: no operator is at its top level, no sign is in
front, no parentheses are around it, and it does not read as an integer. -/
def isTerm (text : List Char) : Bool :=
  trim text == text && !text.isEmpty && !text.head?.any ['~', '-', '+'].contains &&
    closesOn [] text 0 [] && !isWrapped text && (parsePhpIntLiteral (String.ofList text)).isNone

/-- The sign a unary operator is. -/
def UnaryOp.sign? : UnaryOp → Option Char
  | .bitNot => some '~'
  | .neg => some '-'
  | .plus => some '+'
  | _ => none

/-- The last character of an operator. -/
def IntOp.lastChar (op : IntOp) : Char := op.text.getLast?.getD '|'

/-- A `+` or `-` needs an operand in front that ends in a character that shows it. -/
def IntOp.takes (op : IntOp) (text : List Char) : Bool :=
  !(op == .add || op == .sub) || followsOperand text.reverse

namespace Expr

/-- The operators that are folded have blanks around them, and what else is between
them is a term. -/
def plain : Expr → Bool
  | .int _ => true
  | .paren before inner after => isBlank before && isBlank after && inner.plain
  | .unary op gap operand =>
      match op.sign? with
      | some c => isBlank gap && apart c gap operand.text && operand.plain
      | none => isTerm (Expr.unary op gap operand).text
  | .binary left before (.int op) after right =>
      left.plain && right.plain && isBlank before && isBlank after &&
        apart op.lastChar after right.text && op.takes left.text
  | e => isTerm e.text

end Expr

/-! ## Blanks and literals pass -/

theorem blank_cases {gap : List Char} (h : isBlank gap = true) {c : Char} (hc : c ∈ gap) :
    c = ' ' ∨ c = '\t' ∨ c = '\n' ∨ c = '\r' := by
  have hmem := List.all_eq_true.mp h c hc
  simpa using hmem

theorem isWhitespace_of_blank {gap : List Char} (h : isBlank gap = true) :
    ∀ c ∈ gap, isWhitespace c = true := by
  intro c hc
  rcases blank_cases h hc with rfl | rfl | rfl | rfl <;> rfl

theorem isAsciiBlank_of_blank {gap : List Char} (h : isBlank gap = true) :
    ∀ c ∈ gap, isAsciiBlank c = true := by
  intro c hc
  rcases blank_cases h hc with rfl | rfl | rfl | rfl <;> rfl

/-- A character no scan looks at. -/
structure Quiet (c : Char) : Prop where
  ordinary : ∀ rest, Ordinary c rest
  visit : ∀ before next best, visit before c next best = (1, best)

theorem Passes.quiet {text : List Char} (h : ∀ c ∈ text, Quiet c) (before closers : List Char) :
    Passes before closers text closers := by
  induction text generalizing before with
  | nil => exact .done
  | cons c text ih =>
      have hc := h c List.mem_cons_self
      have hrest := ih (fun d hd => h d (List.mem_cons_of_mem c hd)) (c :: before)
      by_cases hin : closers = []
      · rw [hin] at hrest ⊢
        exact .other c (hc.ordinary text) (fun _ _ best => hc.visit _ _ best) hrest
      · exact .inner c hin (hc.ordinary text) hrest

theorem quiet_blank {gap : List Char} (h : isBlank gap = true) : ∀ c ∈ gap, Quiet c := by
  intro c hc
  rcases blank_cases h hc with rfl | rfl | rfl | rfl <;>
    exact ⟨fun _ => ⟨rfl, rfl, rfl, fun _ => rfl⟩, fun _ _ _ => rfl⟩

theorem quiet_word {c : Char} (h : isAsciiAlphanumeric c = true ∨ c = '_') : Quiet c := by
  have hne : ∀ d : Char, isAsciiAlphanumeric d = false → d ≠ '_' → c ≠ d := by
    rintro d hd hscore rfl
    rcases h with halpha | heq
    · rw [hd] at halpha
      exact absurd halpha (by simp)
    · exact hscore heq
  have hpair : ∀ next, isPair c next = false := by
    intro next
    simp [isPair, hne '|' rfl (by decide), hne '&' rfl (by decide), hne '*' rfl (by decide),
      hne '-' rfl (by decide)]
  have hnone : ∀ before next, intOpAt before c next = none := by
    intro before next
    unfold intOpAt
    split <;> first | rfl | exact absurd rfl (hne _ rfl (by decide))
  constructor
  · intro rest
    constructor
    · simp [isQuote, hne '\'' rfl (by decide), hne '"' rfl (by decide)]
    · simp [isOpening, hne '(' rfl (by decide), hne '[' rfl (by decide),
        hne '\x7b' rfl (by decide)]
    · simp [isClosing, hne ')' rfl (by decide), hne ']' rfl (by decide),
        hne '\x7d' rfl (by decide)]
    · exact fun _ => skipPhpComment_none (hne '#' rfl (by decide)) (hne '/' rfl (by decide)) _
  · intro before next best
    rw [visit, hpair, hnone]
    rfl

/-! ## The ends of an expression -/

theorem edged_of_isTerm {text : List Char} (h : isTerm text = true) : Edged text := by
  simp only [isTerm, Bool.and_eq_true, beq_iff_eq, Bool.not_eq_true', List.isEmpty_eq_false_iff] at h
  exact edged_of_trim h.1.1.1.1.2 h.1.1.1.1.1

theorem Edged.append {front back : List Char} (hfront : Edged front) (hback : Edged back)
    (middle : List Char) : Edged (front ++ middle ++ back) := by
  refine ⟨by simp [hfront.ne_nil], ?_, ?_⟩
  · intro c hc
    rw [List.append_assoc, List.head?_append_of_ne_nil _ hfront.ne_nil] at hc
    exact hfront.head c hc
  · intro c hc
    rw [List.getLast?_append_of_ne_nil _ hback.ne_nil] at hc
    exact hback.last c hc

theorem edged_singleton {c : Char} (h : isWhitespace c = false) : Edged [c] := by
  refine ⟨by simp, ?_, ?_⟩ <;> intro d hd <;> simp at hd <;> rw [← hd] <;> exact h

namespace Expr

theorem text_of_sign {op : UnaryOp} {c : Char} (h : op.sign? = some c) : op.text = [c] := by
  cases op <;> simp [UnaryOp.sign?] at h <;> subst h <;> rfl

theorem level_of_sign {op : UnaryOp} {c : Char} (h : op.sign? = some c) : op.level = 18 := by
  cases op <;> simp [UnaryOp.sign?] at h <;> rfl

theorem edged_of_plain {e : Expr} (h : e.plain = true) : Edged e.text := by
  induction e with
  | int lit => exact lit.edged_text
  | paren before inner after ih =>
      have hopen := edged_singleton (c := '(') rfl
      have hclose := edged_singleton (c := ')') rfl
      have hboth := hopen.append hclose (before ++ inner.text ++ after)
      simpa [text] using hboth
  | unary op gap operand ih =>
      rw [plain] at h
      cases hsign : op.sign? with
      | none =>
          simp only [hsign] at h
          exact edged_of_isTerm h
      | some c =>
          simp only [hsign, Bool.and_eq_true] at h
          rw [text, text_of_sign hsign]
          refine (edged_singleton ?_).append (ih h.2) gap
          cases op <;> simp [UnaryOp.sign?] at hsign <;> subst hsign <;> rfl
  | binary left before op after right ihl ihr =>
      cases op with
      | int op =>
          simp only [plain, Bool.and_eq_true] at h
          have hboth := (ihl h.1.1.1.1.1).append (ihr h.1.1.1.1.2)
            (before ++ (BinaryOp.int op).text ++ after)
          simpa [text] using hboth
      | _ => exact edged_of_isTerm h
  | _ => exact edged_of_isTerm h

end Expr

/-! ## An expression passes under brackets -/

theorem isAsciiBlank_of_not_isWhitespace {c : Char} (h : isWhitespace c = false) :
    isAsciiBlank c = false := by
  by_contra hblank
  have hmem : c = ' ' ∨ c = '\t' ∨ c = '\n' ∨ c = '\r' ∨ c = '\x0c' := by
    simpa [isAsciiBlank, or_iff_not_imp_left] using hblank
  rcases hmem with rfl | rfl | rfl | rfl | rfl <;> exact absurd h (by decide)

theorem passes_of_isTerm {text : List Char} (h : isTerm text = true) (before : List Char) :
    Passes before [] text [] := by
  have hedged := edged_of_isTerm h
  simp only [isTerm, Bool.and_eq_true, Bool.not_eq_true'] at h
  have hfront : Fronted [] text := by
    refine .inr fun c hc => ⟨isAsciiBlank_of_not_isWhitespace (hedged.head c hc), ?_⟩
    have hsign := h.1.1.1.2
    rw [hc, Option.any_some] at hsign
    constructor <;> rintro rfl <;> exact absurd hsign (by decide)
  exact (passes_of_closesOn text.length (Nat.le_refl _) h.1.1.2 hfront).front before

/-- Behind an operator comes a character it makes no other token with. -/
theorem apart_head {c : Char} {gap text : List Char} (hgap : isBlank gap = true)
    (hapart : apart c gap text = true) (hne : text ≠ []) (hc : isWhitespace c = false) :
    ∃ d more, gap ++ text = d :: more ∧ joins c d = false := by
  cases gap with
  | nil =>
      cases text with
      | nil => exact absurd rfl hne
      | cons d more => exact ⟨d, more, rfl, by simpa [apart] using hapart⟩
  | cons d gap =>
      refine ⟨d, gap ++ text, rfl, ?_⟩
      have hne' : c ≠ d := by
        rintro rfl
        rw [isWhitespace_of_blank hgap c List.mem_cons_self] at hc
        exact absurd hc (by simp)
      rcases blank_cases hgap List.mem_cons_self with rfl | rfl | rfl | rfl <;>
        simp [joins, hne']

theorem ordinary_operator {c : Char} (hc : c ∈ ['|', '^', '&', '<', '>', '+', '-', '*', '%', '~'])
    (rest : List Char) : Ordinary c rest := by
  simp only [List.mem_cons, List.not_mem_nil, or_false] at hc
  rcases hc with rfl | rfl | rfl | rfl | rfl | rfl | rfl | rfl | rfl | rfl <;>
    exact ⟨rfl, rfl, rfl, fun _ => skipPhpComment_none (by decide) (by decide) _⟩

theorem ordinary_slash {rest more : List Char} {d : Char} (hrest : rest = d :: more)
    (hjoins : joins '/' d = false) : Ordinary '/' rest := by
  refine ⟨rfl, rfl, rfl, ?_⟩
  intro after
  have hd : d ≠ '/' ∧ d ≠ '*' := by
    constructor <;> rintro rfl <;> exact absurd hjoins (by decide)
  rw [hrest, List.cons_append, List.cons_append, skipPhpComment_two, if_neg (by decide), if_pos rfl,
    if_neg hd.1, if_neg hd.2]

theorem IntOp.ordinary (op : IntOp) {rest more : List Char} {d : Char} (hrest : rest = d :: more)
    (hjoins : joins op.lastChar d = false) :
    (∃ c, op.text = [c] ∧ Ordinary c rest) ∨
      ∃ c, op.text = [c, c] ∧ Ordinary c (c :: rest) ∧ Ordinary c rest := by
  cases op with
  | div => exact .inl ⟨'/', rfl, ordinary_slash hrest hjoins⟩
  | bitwise op =>
      cases op with
      | leftShift =>
          exact .inr ⟨'<', rfl, ordinary_operator (by decide) _, ordinary_operator (by decide) _⟩
      | rightShift =>
          exact .inr ⟨'>', rfl, ordinary_operator (by decide) _, ordinary_operator (by decide) _⟩
      | _ => exact .inl ⟨_, rfl, ordinary_operator (by decide) _⟩
  | _ => exact .inl ⟨_, rfl, ordinary_operator (by decide) _⟩

theorem IntOp.lastChar_not_blank (op : IntOp) : isWhitespace op.lastChar = false := by
  cases op with
  | bitwise op => cases op <;> rfl
  | _ => rfl

theorem sign_cases {op : UnaryOp} {c : Char} (h : op.sign? = some c) :
    c = '~' ∨ c = '-' ∨ c = '+' := by
  cases op <;> simp [UnaryOp.sign?] at h <;> subst h <;> decide

namespace Expr

theorem passes_paren {front behind : List Char} {inner : Expr} (hfront : isBlank front = true)
    (hbehind : isBlank behind = true) {closers : List Char}
    (hinner : ∀ before, Passes before (')' :: closers) inner.text (')' :: closers))
    (before : List Char) :
    Passes before closers (Expr.paren front inner behind).text closers := by
  have hopened := ((Passes.quiet (quiet_blank hfront) ['('] (')' :: closers)).append
    (hinner _)).append (Passes.quiet (quiet_blank hbehind) _ _)
  have hclosed := hopened.append (.closing ')' rfl .done)
  exact .opening '(' rfl (hclosed.front before)

theorem passes_inside {e : Expr} (h : e.plain = true) {closers : List Char} (hin : closers ≠ [])
    (before : List Char) : Passes before closers e.text closers := by
  induction e generalizing before closers with
  | int lit => exact Passes.quiet (fun c hc => quiet_word (lit.mem_text hc)) before closers
  | paren front inner after ih =>
      simp only [plain, Bool.and_eq_true] at h
      exact passes_paren h.1.1 h.1.2 (ih h.2 (by simp)) before
  | unary op gap operand ih =>
      rw [plain] at h
      cases hsign : op.sign? with
      | none =>
          simp only [hsign] at h
          exact (passes_of_isTerm h before).lift hin
      | some c =>
          simp only [hsign, Bool.and_eq_true] at h
          have hc : Ordinary c (gap ++ operand.text) := by
            apply ordinary_operator
            rcases sign_cases hsign with rfl | rfl | rfl <;> decide
          rw [text, text_of_sign hsign, List.append_assoc]
          exact .inner c hin hc ((Passes.quiet (quiet_blank h.1.1) _ _).append (ih h.2 hin _))
  | binary left front op after right ihl ihr =>
      cases op with
      | int op =>
          simp only [plain, Bool.and_eq_true] at h
          have ⟨⟨⟨⟨⟨hleft, hright⟩, hfront⟩, hafter⟩, hapart⟩, _⟩ := h
          have ⟨d, more, hrest, hjoins⟩ := apart_head hafter hapart (edged_of_plain hright).ne_nil
            op.lastChar_not_blank
          have hbehind : ∀ before, Passes before closers (after ++ right.text) closers :=
            fun before => (Passes.quiet (quiet_blank hafter) _ _).append (ihr hright hin _)
          have hop : ∀ before, Passes before closers (op.text ++ (after ++ right.text)) closers := by
            intro before
            rcases op.ordinary hrest hjoins with ⟨c, htext, hc⟩ | ⟨c, htext, hc, hc'⟩
            · rw [htext]
              exact .inner c hin hc (hbehind _)
            · rw [htext]
              exact .inner c hin hc (.inner c hin hc' (hbehind _))
          rw [text, List.append_assoc, List.append_assoc, List.append_assoc]
          exact (ihl hleft hin before).append ((Passes.quiet (quiet_blank hfront) _ _).append (hop _))
      | _ => exact (passes_of_isTerm h before).lift hin
  | _ => exact (passes_of_isTerm h before).lift hin

end Expr

/-! ## The split is at the root -/

/-- The split after an operator is visited. -/
def withOperator (best : Best) (index : Nat) (op : IntOp) : Best :=
  if best.all fun (_, _, found) => op.precedence ≤ found.precedence then
    some (index, op.text.length, op)
  else best

/-- The split after the text of an expression, of which only the root counts. -/
def Expr.split (e : Expr) (start : Nat) (best : Best) : Best :=
  match e with
  | .binary left before (.int op) _ _ =>
      withOperator best (start + left.text.length + before.length) op
  | _ => best

/-- A `+` or a `-` is an operator behind what shows an operand. -/
def IntOp.Shown (op : IntOp) (before : List Char) : Prop :=
  op = .add ∨ op = .sub → followsOperand before = true

theorem IntOp.visit_eq (op : IntOp) {before : List Char} (hshown : op.Shown before)
    {c : Char} {tail : List Char} (htext : op.text = c :: tail) {d : Char}
    (hjoins : joins op.lastChar d = false) (next : Char) (hnext : next = (tail.head?).getD d)
    (best : Best) :
    visit before c (some next) best = (op.text.length, withOperator best before.length op) := by
  have hd : d ≠ '|' ∧ d ≠ '&' ∧ d ≠ '*' ∧ d ≠ '>' := by
    refine ⟨?_, ?_, ?_, ?_⟩ <;> rintro rfl <;> exact absurd hjoins (by simp [joins])
  have hboth : isPair c (some next) = false ∧
      intOpAt before c (some next) = some (op.text.length, op) := by
    cases op with
    | bitwise op =>
        cases op <;> obtain ⟨hc, htail⟩ := List.cons.inj htext <;> subst hc <;> subst htail <;>
          subst hnext <;> simp [isPair, intOpAt, IntOp.text, hd]
    | add =>
        obtain ⟨hc, htail⟩ := List.cons.inj htext
        subst hc htail hnext
        simp [isPair, intOpAt, IntOp.text, hshown (.inl rfl)]
    | sub =>
        obtain ⟨hc, htail⟩ := List.cons.inj htext
        subst hc htail hnext
        simp [isPair, intOpAt, IntOp.text, hshown (.inr rfl), hd]
    | _ =>
        obtain ⟨hc, htail⟩ := List.cons.inj htext
        subst hc htail hnext
        simp [isPair, intOpAt, IntOp.text, hd]
  rw [visit, hboth.1, hboth.2, withOperator]
  simp only [Bool.false_eq_true, if_false]
  split <;> rfl

theorem scanTopLevel_operator (op : IntOp) {before rest more : List Char} {d : Char}
    (hrest : rest = d :: more) (hjoins : joins op.lastChar d = false) (hshown : op.Shown before)
    (after : List Char) (best : Best) :
    scanTopLevel before (op.text ++ (rest ++ after)) 0 0 best =
      scanTopLevel (op.text.reverse ++ before) (rest ++ after) 0 0
        (withOperator best before.length op) := by
  rcases op.ordinary hrest hjoins with ⟨c, htext, hc⟩ | ⟨c, htext, hc, hc'⟩
  · have hvisit := op.visit_eq hshown htext hjoins d rfl best
    have hhead : (rest ++ after).head? = some d := by
      rw [hrest]
      rfl
    rw [← hhead] at hvisit
    rw [htext, List.singleton_append, ← List.cons_append, scanTopLevel_visit hc hvisit, htext]
    rfl
  · have hvisit := op.visit_eq hshown htext hjoins c rfl best
    have hhead : (c :: rest ++ after).head? = some c := rfl
    rw [← hhead] at hvisit
    rw [htext]
    show scanTopLevel before (c :: (c :: rest) ++ after) 0 0 best = _
    rw [scanTopLevel_visit hc hvisit, htext]
    rfl

theorem followsOperand_blank {gap : List Char} (hgap : isBlank gap = true) (before : List Char) :
    followsOperand (gap.reverse ++ before) = followsOperand before := by
  have hnone : (gap.reverse.find? fun c => !isAsciiBlank c) = none := by
    rw [List.find?_eq_none]
    intro c hc
    rw [isAsciiBlank_of_blank hgap c (List.mem_reverse.mp hc)]
    simp
  rw [followsOperand, followsOperand, List.find?_append, hnone, Option.none_or]

namespace Expr

/-- Among the operators that are folded, the ones that bind tighter are split later. -/
theorem precedence_lt_of_level {op op' : IntOp} (h : op.level < op'.level) :
    op.precedence < op'.precedence := by
  cases op with
  | bitwise op =>
      cases op' with
      | bitwise op' => cases op <;> cases op' <;> simp [IntOp.level, IntOp.precedence] at h ⊢
      | _ => cases op <;> simp [IntOp.level, IntOp.precedence] at h ⊢
  | _ =>
      cases op' with
      | bitwise op' => cases op' <;> simp [IntOp.level] at h ⊢
      | _ => simp [IntOp.level, IntOp.precedence] at h ⊢

theorem precedence_le_of_level {op op' : IntOp} (h : op.level ≤ op'.level) :
    op.precedence ≤ op'.precedence := by
  by_contra hlt
  cases op with
  | bitwise op =>
      cases op' with
      | bitwise op' => cases op <;> cases op' <;> simp [IntOp.level, IntOp.precedence] at h hlt
      | _ => cases op <;> simp [IntOp.level, IntOp.precedence] at h hlt
  | _ =>
      cases op' with
      | bitwise op' => cases op' <;> simp [IntOp.level] at h hlt
      | _ => simp [IntOp.level, IntOp.precedence] at h hlt

theorem withOperator_none (index : Nat) (op : IntOp) :
    withOperator none index op = some (index, op.text.length, op) := rfl

theorem withOperator_some (found : Nat × Nat × IntOp) (index : Nat) (op : IntOp) :
    withOperator (some found) index op =
      if op.precedence ≤ found.2.2.precedence then some (index, op.text.length, op)
      else some found := by
  rw [withOperator, Option.all_some]
  simp only [decide_eq_true_eq]

/-- An operator that binds at most as tightly takes the split over. -/
theorem withOperator_withOperator {op op' : IntOp} (h : op.precedence ≤ op'.precedence)
    (best : Best) (index index' : Nat) :
    withOperator (withOperator best index' op') index op = withOperator best index op := by
  cases best with
  | none => rw [withOperator_none, withOperator_some, if_pos h, withOperator_none]
  | some found =>
      rw [withOperator_some, withOperator_some]
      by_cases hle : op'.precedence ≤ found.2.2.precedence
      · rw [if_pos hle, withOperator_some, if_pos h, if_pos (Nat.le_trans h hle)]
      · rw [if_neg hle, withOperator_some]

/-- An operator that binds tighter leaves the split. -/
theorem withOperator_tighter {op op' : IntOp} (h : op.precedence < op'.precedence)
    (best : Best) (index index' : Nat) :
    withOperator (withOperator best index op) index' op' = withOperator best index op := by
  cases best with
  | none => rw [withOperator_none, withOperator_some, if_neg (Nat.not_le.mpr h)]
  | some found =>
      rw [withOperator_some]
      by_cases hle : op.precedence ≤ found.2.2.precedence
      · rw [if_pos hle, withOperator_some, if_neg (Nat.not_le.mpr h)]
      · rw [if_neg hle, withOperator_some, if_neg (by omega)]

/-- Left of an operator, what the left operand makes of the split is made again. -/
theorem withOperator_split {left : Expr} {op : IntOp} (h : op.level ≤ left.level) (start : Nat)
    (best : Best) (index : Nat) :
    withOperator (left.split start best) index op = withOperator best index op := by
  unfold split
  split
  · exact withOperator_withOperator (precedence_le_of_level h) best index _
  · rfl

/-- Right of an operator the split stays. -/
theorem split_withOperator {right : Expr} {op : IntOp}
    (h : op.level < right.level ∨ right.isUnary = true) (start : Nat) (best : Best) (index : Nat) :
    right.split start (withOperator best index op) = withOperator best index op := by
  unfold split
  split
  · rcases h with hlt | hunary
    · exact withOperator_tighter (precedence_lt_of_level hlt) best index _
    · exact absurd hunary (by simp [isUnary])
  · rfl

theorem split_of_isUnary {e : Expr} (h : 18 ≤ e.level ∨ e.isUnary = true) (start : Nat)
    (best : Best) : e.split start best = best := by
  unfold split
  split
  · rename_i op _ _
    rcases h with hlevel | hunary
    · have hle : op.level ≤ 15 := by
        cases op with
        | bitwise op => cases op <;> decide
        | _ => decide
      exact absurd (Nat.le_trans hlevel hle) (by decide)
    · exact absurd hunary (by simp [isUnary])
  · rfl

theorem scanTopLevel_passes {text : List Char} (h : ∀ front, Passes front [] text [])
    (before after : List Char) (best : Best) :
    scanTopLevel before (text ++ after) 0 0 best =
      scanTopLevel (text.reverse ++ before) after 0 0 best := by
  simpa using (h []).scanTopLevel_eq before after 0 best

/-- Behind an operator or a sign and a gap, a sign is none. -/
theorem followsOperand_operator {c : Char} (hc : c ∈ ['|', '^', '&', '<', '>', '+', '-', '*', '/',
    '%', '~']) {gap : List Char} (hgap : isBlank gap = true) (before : List Char) :
    followsOperand (gap.reverse ++ c :: before) = false := by
  rw [followsOperand_blank hgap]
  simp only [List.mem_cons, List.not_mem_nil, or_false] at hc
  rcases hc with rfl | rfl | rfl | rfl | rfl | rfl | rfl | rfl | rfl | rfl | rfl <;> rfl

theorem followsOperand_text (op : IntOp) {gap : List Char} (hgap : isBlank gap = true)
    (before : List Char) : followsOperand (gap.reverse ++ (op.text.reverse ++ before)) = false := by
  cases op with
  | bitwise op => cases op <;> exact followsOperand_operator (by decide) hgap _
  | _ => exact followsOperand_operator (by decide) hgap _

/-- A sign that no operand is in front of is visited without a split. -/
theorem visit_sign {op : UnaryOp} {c : Char} (hsign : op.sign? = some c) {before : List Char}
    (hbefore : followsOperand before = false) {d : Char} (hjoins : joins c d = false)
    (best : Best) : visit before c (some d) best = (1, best) := by
  have hd : d ≠ '>' := by
    rintro rfl
    exact absurd hjoins (by simp [joins])
  have hboth : isPair c (some d) = false ∧ intOpAt before c (some d) = none := by
    rcases sign_cases hsign with rfl | rfl | rfl
    · exact ⟨rfl, rfl⟩
    · exact ⟨by simp [isPair, hd], by simp [intOpAt, hbefore]⟩
    · exact ⟨rfl, by simp [intOpAt, hbefore]⟩
  rw [visit, hboth.1, hboth.2]
  rfl

theorem exists_not_blank {text : List Char} (h : Edged text) :
    ∃ c ∈ text.reverse, isAsciiBlank c = false := by
  have ⟨c, hc⟩ := Option.isSome_iff_exists.mp (List.isSome_head?.mpr h.ne_nil)
  have hmem := List.mem_of_mem_head? hc
  exact ⟨c, List.mem_reverse.mpr hmem, isAsciiBlank_of_not_isWhitespace (h.head c hc)⟩

theorem shown_of_takes {op : IntOp} {text : List Char} (h : op.takes text = true)
    (hsign : op = .add ∨ op = .sub) : followsOperand text.reverse = true := by
  rcases hsign with rfl | rfl <;> simpa [IntOp.takes] using h

/-- The scan of an expression that no operand is in front of. -/
theorem scanTopLevel_text {e : Expr} (hplain : e.plain = true) (hgrouped : e.Grouped)
    {before : List Char} (hbefore : followsOperand before = false) (after : List Char)
    (best : Best) :
    scanTopLevel before (e.text ++ after) 0 0 best =
      scanTopLevel (e.text.reverse ++ before) after 0 0 (e.split before.length best) := by
  induction e generalizing before after best with
  | int lit =>
      exact scanTopLevel_passes (fun _ => Passes.quiet (fun c hc => quiet_word (lit.mem_text hc)) _ _)
        before after best
  | paren front inner behind ih =>
      simp only [plain, Bool.and_eq_true] at hplain
      exact scanTopLevel_passes
        (passes_paren hplain.1.1 hplain.1.2 (passes_inside hplain.2 (by simp))) before after best
  | unary op gap operand ih =>
      rw [plain] at hplain
      cases hsign : op.sign? with
      | none =>
          simp only [hsign] at hplain
          exact scanTopLevel_passes (passes_of_isTerm hplain) before after best
      | some c =>
          simp only [hsign, Bool.and_eq_true] at hplain
          have ⟨⟨hgap, hapart⟩, hoperand⟩ := hplain
          have hunary : 18 ≤ operand.level ∨ operand.isUnary = true := by
            have hlevel := hgrouped.2
            rwa [level_of_sign hsign] at hlevel
          have hblank : isWhitespace c = false := by
            rcases sign_cases hsign with rfl | rfl | rfl <;> rfl
          have hoperator : c ∈ ['|', '^', '&', '<', '>', '+', '-', '*', '/', '%', '~'] := by
            rcases sign_cases hsign with rfl | rfl | rfl <;> decide
          have hc : Ordinary c (gap ++ operand.text) := by
            apply ordinary_operator
            rcases sign_cases hsign with rfl | rfl | rfl <;> decide
          have ⟨d, more, hrest, hjoins⟩ := apart_head hgap hapart (edged_of_plain hoperand).ne_nil
            hblank
          have hvisit : visit before c ((gap ++ operand.text) ++ after).head? best = (1, best) := by
            rw [hrest]
            exact visit_sign hsign hbefore hjoins best
          have htext : (unary op gap operand).text = c :: (gap ++ operand.text) := by
            rw [text, text_of_sign hsign]
            rfl
          rw [htext, scanTopLevel_visit hc hvisit, List.append_assoc,
            scanTopLevel_passes (fun _ => Passes.quiet (quiet_blank hgap) _ _),
            ih hoperand hgrouped.1 (followsOperand_operator hoperator hgap before) after best,
            split_of_isUnary hunary]
          simp [split]
  | binary left front op behind right ihl ihr =>
      cases op with
      | int op =>
          simp only [plain, Bool.and_eq_true] at hplain
          have ⟨⟨⟨⟨⟨hleft, hright⟩, hfront⟩, hbehind⟩, hapart⟩, htakes⟩ := hplain
          have ⟨hgl, hgr, hll, hlr⟩ := hgrouped
          have hedged := edged_of_plain hleft
          have ⟨d, more, hrest, hjoins⟩ := apart_head hbehind hapart (edged_of_plain hright).ne_nil
            op.lastChar_not_blank
          have htext : (binary left front (.int op) behind right).text =
              left.text ++ (front ++ (op.text ++ (behind ++ right.text))) := by
            show left.text ++ front ++ op.text ++ behind ++ right.text = _
            simp only [List.append_assoc]
          have hshown : op.Shown (front.reverse ++ (left.text.reverse ++ before)) := by
            intro hsign
            rw [followsOperand_blank hfront, followsOperand_append (exists_not_blank hedged) before]
            exact shown_of_takes htakes hsign
          have hbefore' : followsOperand (behind.reverse ++ (op.text.reverse ++
              (front.reverse ++ (left.text.reverse ++ before)))) = false :=
            followsOperand_text op hbehind _
          rw [htext, List.append_assoc, List.append_assoc, List.append_assoc,
            ihl hleft hgl hbefore, scanTopLevel_passes (fun _ => Passes.quiet (quiet_blank hfront) _ _),
            scanTopLevel_operator op hrest hjoins hshown, List.append_assoc,
            scanTopLevel_passes (fun _ => Passes.quiet (quiet_blank hbehind) _ _),
            ihr hright hgr hbefore', withOperator_split hll, split_withOperator (hlr.imp id id)]
          simp [split, Nat.add_comm]
      | _ => exact scanTopLevel_passes (passes_of_isTerm hplain) before after best
  | _ => exact scanTopLevel_passes (passes_of_isTerm hplain) before after best

end Expr

end PhpantomLsp.Folding
