import PhpantomLsp.Folding.Splits
import PhpantomLsp.Folding.Integers

/-!
# What a fold is worth

The fold of a plain expression follows its tree (`foldWith_text`), so that it comes to
the value PHP gives, and comes to one exactly where every operation gives an integer.
-/

namespace PhpantomLsp.Folding

open PhpantomLsp.Text

namespace Expr

/-! ## Wrapping parentheses -/

/-- The parenthesis a text starts with is closed in it. -/
theorem findUnmatchedClose_of_passes {text tail : List Char} (h : Passes [] [] text [])
    (htext : text = '(' :: tail) (after : List Char) :
    ∃ k, k < text.length ∧ findUnmatchedClose 1 (tail ++ after) 0 0 = some k := by
  rw [htext] at h
  rw [htext, List.length_cons]
  cases h with
  | comment c skipped hskip h =>
      have hnone := skipPhpComment_none (c := '(') (by decide) (by decide)
      exact absurd (hskip []) (by rw [List.cons_append, hnone]; simp)
  | quoted c skipped hquote hskip h => exact absurd hquote (by decide)
  | opening c hopen h =>
      have ⟨k, hk, hfound⟩ := @Passes.findUnmatchedClose_in _ _ _ _ h [] rfl rfl after 1
      exact ⟨k, by omega, hfound⟩
  | inner c hin hc h => exact absurd rfl hin
  | pair c d hpair h => exact absurd hpair (by simp [isPair])
  | other c hc hvisit h => exact absurd hc.opening (by decide)

theorem int_ne_paren (lit : IntLiteral) (tail : List Char) : lit.text ≠ '(' :: tail := by
  have ⟨c, rest, hhead, hdigit⟩ := lit.head_text
  rw [hhead]
  intro htext
  rw [(List.cons.inj htext).1] at hdigit
  exact absurd hdigit (by decide)

theorem sign_ne_paren {op : UnaryOp} {c : Char} (hsign : op.sign? = some c) (gap : List Char)
    (operand : Expr) (tail : List Char) : (Expr.unary op gap operand).text ≠ '(' :: tail := by
  rw [text, text_of_sign hsign]
  intro htext
  have hc : c = '(' := (List.cons.inj htext).1
  rcases sign_cases hsign with heq | heq | heq <;> rw [heq] at hc <;> exact absurd hc (by decide)

/-- An operation that starts with a parenthesis does so in its left operand. -/
theorem binary_eq_paren {left right : Expr} {op : BinaryOp} {before behind tail : List Char}
    (hleft : left.plain = true)
    (htext : (Expr.binary left before op behind right).text = '(' :: tail) :
    ∃ inside, left.text = '(' :: inside ∧
      tail = inside ++ (before ++ op.text ++ behind ++ right.text) := by
  cases hl : left.text with
  | nil => exact absurd hl (edged_of_plain hleft).ne_nil
  | cons c inside =>
      rw [text, hl] at htext
      obtain ⟨hc, htail⟩ := List.cons.inj htext
      refine ⟨inside, by rw [hc], ?_⟩
      rw [← htail]
      simp

theorem findUnmatchedClose_text {e : Expr} (h : e.plain = true) {tail : List Char}
    (htext : e.text = '(' :: tail) (after : List Char) :
    ∃ k, k < e.text.length ∧ findUnmatchedClose 1 (tail ++ after) 0 0 = some k := by
  induction e generalizing tail after with
  | int lit => exact absurd htext (int_ne_paren lit tail)
  | paren before inner behind ih =>
      simp only [plain, Bool.and_eq_true] at h
      exact findUnmatchedClose_of_passes
        (passes_paren h.1.1 h.1.2 (passes_inside h.2 (by simp)) []) htext after
  | unary op gap operand ih =>
      rw [plain] at h
      cases hsign : op.sign? with
      | none =>
          simp only [hsign] at h
          exact findUnmatchedClose_of_passes (passes_of_isTerm h []) htext after
      | some c => exact absurd htext (sign_ne_paren hsign gap operand tail)
  | binary left before op behind right ihl ihr =>
      cases op with
      | int op =>
          simp only [plain, Bool.and_eq_true] at h
          obtain ⟨inside, hl, htail⟩ := binary_eq_paren h.1.1.1.1.1 htext
          obtain ⟨k, hk, hfound⟩ := ihl h.1.1.1.1.1 hl
            (before ++ (BinaryOp.int op).text ++ behind ++ right.text ++ after)
          refine ⟨k, ?_, ?_⟩
          · rw [text]
            simp only [List.length_append]
            omega
          · rw [htail, List.append_assoc]
            exact hfound
      | _ => exact findUnmatchedClose_of_passes (passes_of_isTerm h []) htext after
  | _ => exact findUnmatchedClose_of_passes (passes_of_isTerm h []) htext after

/-- Parentheses wrap the text of an expression in them. -/
theorem isWrapped_paren {before behind : List Char} {inner : Expr}
    (h : (Expr.paren before inner behind).plain = true) :
    isWrapped (Expr.paren before inner behind).text = true := by
  simp only [plain, Bool.and_eq_true] at h
  have hinside := (((Passes.quiet (quiet_blank h.1.1) [] ['x']).append
    (passes_inside h.2 (by simp) _)).append (Passes.quiet (quiet_blank h.1.2) _ _))
  have hfound := hinside.findUnmatchedClose_eq [')'] 1 0
  show (findUnmatchedClose 1 (before ++ inner.text ++ behind ++ [')']) 0 0 == some _) = true
  rw [show findUnmatchedClose 1 (before ++ inner.text ++ behind ++ [')']) 0 0 = _ from hfound]
  simp only [findUnmatchedClose, skipPhpComment, isQuote, List.length_append]
  simp
  omega

theorem not_isWrapped {e : Expr} (h : e.plain = true)
    (hparen : ∀ before inner behind, e ≠ .paren before inner behind) :
    isWrapped e.text = false := by
  have hterm : isTerm e.text = true → isWrapped e.text = false := by
    intro hterm
    simp only [isTerm, Bool.and_eq_true, Bool.not_eq_true'] at hterm
    exact hterm.1.2
  have hfirst : (∀ tail, e.text ≠ '(' :: tail) → isWrapped e.text = false := by
    intro hne
    unfold isWrapped
    split
    · exact absurd ‹_› (hne _)
    · rfl
  cases e with
  | int lit => exact hfirst (int_ne_paren lit)
  | paren before inner behind => exact absurd rfl (hparen before inner behind)
  | unary op gap operand =>
      rw [plain] at h
      cases hsign : op.sign? with
      | none =>
          simp only [hsign] at h
          exact hterm h
      | some c => exact hfirst (sign_ne_paren hsign gap operand)
  | binary left before op behind right =>
      cases op with
      | int op =>
          simp only [plain, Bool.and_eq_true] at h
          by_cases hstart : ∃ tail, (Expr.binary left before (.int op) behind right).text = '(' :: tail
          · obtain ⟨tail, htext⟩ := hstart
            obtain ⟨inside, hl, htail⟩ := binary_eq_paren h.1.1.1.1.1 htext
            obtain ⟨k, hk, hfound⟩ := findUnmatchedClose_text h.1.1.1.1.1 hl
              (before ++ (BinaryOp.int op).text ++ behind ++ right.text)
            have hright := (edged_of_plain h.1.1.1.1.2).ne_nil
            rw [htext, isWrapped, htail, hfound]
            rw [hl, List.length_cons] at hk
            have hpos := List.length_pos_of_ne_nil hright
            simp only [beq_eq_false_iff_ne, ne_eq, Option.some.injEq, List.length_append]
            omega
          · exact hfirst fun tail htext => hstart ⟨tail, htext⟩
      | _ => exact hterm h
  | _ => exact hterm h

/-- An expression without the parentheses around it. -/
def core : Expr → Expr
  | .paren _ inner _ => inner.core
  | e => e

theorem plain_core {e : Expr} (h : e.plain = true) : e.core.plain = true := by
  induction e with
  | paren before inner behind ih =>
      simp only [plain, Bool.and_eq_true] at h
      exact ih h.2
  | _ => exact h

theorem grouped_core {e : Expr} (h : e.Grouped) : e.core.Grouped := by
  induction e with
  | paren before inner behind ih => exact ih h
  | _ => exact h

theorem stripWrapping_of_not_wrapped {text : List Char} (h : isWrapped text = false) (n : Nat) :
    stripWrapping n text = text := by
  cases n with
  | zero => rfl
  | succ n => rw [stripWrapping, h]; rfl

theorem stripWrapping_text {e : Expr} (h : e.plain = true) {n : Nat} (hn : e.text.length ≤ n) :
    stripWrapping n e.text = e.core.text := by
  induction e generalizing n with
  | paren before inner behind ih =>
      have hwrapped := isWrapped_paren h
      simp only [plain, Bool.and_eq_true] at h
      have hlen : (Expr.paren before inner behind).text.length =
          (before ++ inner.text ++ behind).length + 2 := by
        rw [text]
        simp only [List.cons_append, List.length_cons, List.length_append, List.length_nil]
      cases n with
      | zero => omega
      | succ n =>
          have hinside : ((Expr.paren before inner behind).text.drop 1).dropLast =
              before ++ inner.text ++ behind := by
            rw [text]
            simp [-List.append_assoc]
          rw [stripWrapping, hwrapped, if_pos rfl, hinside,
            trim_eq (isWhitespace_of_blank h.1.1) (isWhitespace_of_blank h.1.2)
              (edged_of_plain h.2)]
          apply ih h.2
          simp only [List.length_append] at hlen
          omega
  | _ => exact stripWrapping_of_not_wrapped (not_isWrapped h (by simp)) n

/-- What is read of an expression with blanks around it. -/
theorem stripWrappingParens_trim {e : Expr} (h : e.plain = true) {gap gap' : List Char}
    (hgap : isBlank gap = true) (hgap' : isBlank gap' = true) :
    stripWrappingParens (trim (gap ++ e.text ++ gap')) = e.core.text := by
  rw [trim_eq (isWhitespace_of_blank hgap) (isWhitespace_of_blank hgap') (edged_of_plain h)]
  exact stripWrapping_text h (Nat.le_refl _)

theorem splitPoint_text {e : Expr} (h : e.plain = true) (hgrouped : e.Grouped) :
    splitPoint e.text = e.split 0 none := by
  have hscan := @scanTopLevel_text e h hgrouped [] rfl [] none
  rw [List.append_nil] at hscan
  exact hscan

/-! ## The fold follows the tree -/

section

variable (resolve : List Char → Option PhpType)

/-- The integer a resolver knows a text by. -/
def resolved (text : List Char) : Option Int := (resolve text).bind literalIntValue

/-- The fold of an expression, over its tree. -/
def folded : Expr → Option Int
  | .int lit =>
      match checkI64 lit.value with
      | some value => some value
      | none => resolved resolve lit.text
  | .paren _ inner _ => inner.folded
  | .unary .bitNot _ operand => operand.folded.map fun value => -value - 1
  | .unary .neg _ operand => operand.folded.bind fun value => checkI64 (-value)
  | .unary .plus _ operand => operand.folded
  | .binary left _ (.int op) _ right =>
      left.folded.bind fun lhs => right.folded.bind fun rhs => op.apply lhs rhs
  | e => resolved resolve e.text

end

variable {resolve : List Char → Option PhpType}

theorem foldTerm_of_head {fold : List Char → Option Int} {text : List Char} (hne : text ≠ [])
    (hhead : ∀ c, text.head? = some c → c ≠ '~' ∧ c ≠ '-' ∧ c ≠ '+') :
    foldTerm resolve fold text =
      match parsePhpIntLiteral (String.ofList text) with
      | some value => some value
      | none => resolved resolve text := by
  cases text with
  | nil => exact absurd rfl hne
  | cons c rest =>
      have ⟨htilde, hminus, hplus⟩ := hhead c rfl
      rw [foldTerm]
      · cases parsePhpIntLiteral (String.ofList (c :: rest)) <;> rfl
      · exact hne
      · exact fun _ htext => htilde (List.cons.inj htext).1
      · exact fun _ htext => hminus (List.cons.inj htext).1
      · exact fun _ htext => hplus (List.cons.inj htext).1

theorem foldTerm_of_isTerm {fold : List Char → Option Int} {text : List Char}
    (h : isTerm text = true) : foldTerm resolve fold text = resolved resolve text := by
  have hne := (edged_of_isTerm h).ne_nil
  simp only [isTerm, Bool.and_eq_true, Bool.not_eq_true', Option.isNone_iff_eq_none] at h
  have hsign := h.1.1.1.2
  rw [foldTerm_of_head hne, h.2]
  intro c hc
  rw [hc, Option.any_some] at hsign
  refine ⟨?_, ?_, ?_⟩ <;> rintro rfl <;> exact absurd hsign (by decide)

/-- The fold of what is neither a sign nor split comes from the text on its own. -/
theorem foldWith_core {e : Expr} (h : e.plain = true) (hgrouped : e.Grouped) {fuel : Nat}
    {gap gap' : List Char} (hgap : isBlank gap = true) (hgap' : isBlank gap' = true) :
    foldWith resolve (fuel + 1) (gap ++ e.text ++ gap') =
      match e.core.split 0 none with
      | some (index, opLen, op) =>
          (foldWith resolve fuel (e.core.text.take index)).bind fun lhs =>
            (foldWith resolve fuel (e.core.text.drop (index + opLen))).bind fun rhs =>
              op.apply lhs rhs
      | none => foldTerm resolve (foldWith resolve fuel) e.core.text := by
  have hsplit := splitPoint_text (plain_core h) (grouped_core hgrouped)
  cases hcore : e.core.split 0 none <;> rw [hcore] at hsplit <;>
    simp only [foldWith, stripWrappingParens_trim h hgap hgap', hsplit]

/-- The text on the two sides of the operator at the root. -/
theorem sides_text (left right : Expr) (before behind : List Char) (op : IntOp) :
    (binary left before (.int op) behind right).text.take
        (left.text.length + before.length) = left.text ++ before ∧
      (binary left before (.int op) behind right).text.drop
        (left.text.length + before.length + op.text.length) = behind ++ right.text := by
  have htext : (binary left before (.int op) behind right).text =
      (left.text ++ before) ++ (op.text ++ (behind ++ right.text)) := by
    show left.text ++ before ++ op.text ++ behind ++ right.text = _
    simp only [List.append_assoc]
  have hlen : left.text.length + before.length = (left.text ++ before).length := by
    rw [List.length_append]
  rw [htext, hlen, List.take_left, List.drop_append]
  simp

theorem length_sides (left right : Expr) (before behind : List Char) (op : IntOp) :
    (binary left before (.int op) behind right).text.length =
      left.text.length + before.length + op.text.length + behind.length + right.text.length := by
  show (left.text ++ before ++ op.text ++ behind ++ right.text).length = _
  simp only [List.length_append]

theorem length_pos_of_plain {e : Expr} (h : e.plain = true) : 0 < e.text.length :=
  List.length_pos_of_ne_nil (edged_of_plain h).ne_nil

theorem foldWith_of_isTerm {e : Expr} (h : e.plain = true) (hgrouped : e.Grouped)
    (hterm : isTerm e.text = true) (hcore : e.core = e) (hsplit : e.split 0 none = none)
    {fuel : Nat} {gap gap' : List Char} (hgap : isBlank gap = true)
    (hgap' : isBlank gap' = true) :
    foldWith resolve (fuel + 1) (gap ++ e.text ++ gap') = resolved resolve e.text := by
  rw [foldWith_core h hgrouped hgap hgap', hcore, hsplit]
  exact foldTerm_of_isTerm hterm

theorem foldTerm_sign {op : UnaryOp} {c : Char} (hsign : op.sign? = some c) {gap : List Char}
    {operand : Expr} {fold : List Char → Option Int}
    (hfold : fold (gap ++ operand.text) = operand.folded resolve) :
    foldTerm resolve fold (unary op gap operand).text =
      (unary op gap operand).folded resolve := by
  rw [text, text_of_sign hsign]
  cases op with
  | bitNot =>
      cases hsign
      show (fold (gap ++ operand.text)).map _ = _
      rw [hfold]
      rfl
  | neg =>
      cases hsign
      show (fold (gap ++ operand.text)).bind _ = _
      rw [hfold]
      rfl
  | plus =>
      cases hsign
      show fold (gap ++ operand.text) = _
      rw [hfold]
      rfl
  | _ => cases hsign

/-- The fold of a text is the fold of its tree. -/
theorem foldWith_text {e : Expr} (h : e.plain = true) (hgrouped : e.Grouped) {fuel : Nat}
    (hfuel : e.text.length < fuel) {gap gap' : List Char} (hgap : isBlank gap = true)
    (hgap' : isBlank gap' = true) :
    foldWith resolve fuel (gap ++ e.text ++ gap') = e.folded resolve := by
  induction e generalizing fuel gap gap' with
  | paren before inner behind ih =>
      cases fuel with
      | zero => omega
      | succ fuel =>
          have hinner : inner.plain = true := by
            simp only [plain, Bool.and_eq_true] at h
            exact h.2
          have hlen : inner.text.length < (paren before inner behind).text.length := by
            rw [text]
            simp only [List.cons_append, List.length_cons, List.length_append]
            omega
          have hsame := @ih hinner hgrouped (fuel + 1) (by omega) [] [] rfl rfl
          rw [foldWith_core hinner hgrouped rfl rfl] at hsame
          rw [foldWith_core h hgrouped hgap hgap']
          exact hsame
  | int lit =>
      cases fuel with
      | zero => omega
      | succ fuel =>
          obtain ⟨c, rest, hhead, hdigit⟩ := lit.head_text
          have hterm : ∀ d, lit.text.head? = some d → d ≠ '~' ∧ d ≠ '-' ∧ d ≠ '+' := by
            intro d hd
            rw [hhead, List.head?_cons, Option.some.injEq] at hd
            rw [hd] at hdigit
            refine ⟨?_, ?_, ?_⟩ <;> rintro rfl <;> exact absurd hdigit (by decide)
          have hparse := @foldTerm_of_head resolve (foldWith resolve fuel) _
            lit.edged_text.ne_nil hterm
          rw [lit.parsePhpIntLiteral_text] at hparse
          rw [foldWith_core h hgrouped hgap hgap']
          exact hparse
  | unary op gap₀ operand ih =>
      cases fuel with
      | zero => omega
      | succ fuel =>
          cases hsign : op.sign? with
          | none =>
              have hterm := h
              simp only [plain, hsign] at hterm
              rw [foldWith_of_isTerm h hgrouped hterm rfl rfl hgap hgap']
              cases op <;> first | rfl | cases hsign
          | some c =>
              rw [foldWith_core h hgrouped hgap hgap']
              simp only [plain, hsign, Bool.and_eq_true] at h
              have hlen : operand.text.length < fuel := by
                rw [text, text_of_sign hsign] at hfuel
                simp only [List.length_append, List.length_singleton] at hfuel
                omega
              have hoperand := @ih h.2 hgrouped.1 _ hlen gap₀ [] h.1.1 rfl
              rw [List.append_nil] at hoperand
              exact foldTerm_sign hsign hoperand
  | binary left before op behind right ihl ihr =>
      cases fuel with
      | zero => omega
      | succ fuel =>
          cases op with
          | int op =>
              rw [foldWith_core h hgrouped hgap hgap']
              simp only [plain, Bool.and_eq_true] at h
              have hleft := length_pos_of_plain h.1.1.1.1.1
              have hright := length_pos_of_plain h.1.1.1.1.2
              rw [length_sides] at hfuel
              have hl := @ihl h.1.1.1.1.1 hgrouped.1 fuel (by omega) [] before rfl h.1.1.1.2
              have hr := @ihr h.1.1.1.1.2 hgrouped.2.1 fuel (by omega) behind [] h.1.1.2 rfl
              rw [List.nil_append] at hl
              rw [List.append_nil] at hr
              have hsides := sides_text left right before behind op
              have hsplit : (binary left before (.int op) behind right).core.split 0 none =
                  some (left.text.length + before.length, op.text.length, op) := by
                simp [core, split, withOperator]
              rw [hsplit]
              simp only [core]
              rw [hsides.1, hsides.2, hl, hr]
              rfl
          | _ => exact foldWith_of_isTerm h hgrouped h rfl rfl hgap hgap'
  | _ =>
      cases fuel with
      | zero => omega
      | succ fuel => exact foldWith_of_isTerm h hgrouped h rfl rfl hgap hgap'

/-! ## What the fold says of the value -/

/-- An expression and the expressions it is made of. -/
def parts : Expr → List Expr
  | .paren before inner behind => .paren before inner behind :: inner.parts
  | .commented before inner behind => .commented before inner behind :: inner.parts
  | .unary op gap operand => .unary op gap operand :: operand.parts
  | .binary left before op behind right =>
      .binary left before op behind right :: (left.parts ++ right.parts)
  | .conditional condition gap₁ gap₂ yes gap₃ gap₄ no =>
      .conditional condition gap₁ gap₂ yes gap₃ gap₄ no ::
        (condition.parts ++ yes.parts ++ no.parts)
  | .elvis condition before behind no =>
      .elvis condition before behind no :: (condition.parts ++ no.parts)
  | e => [e]

theorem mem_parts (e : Expr) : e ∈ e.parts := by
  cases e <;> exact List.mem_cons_self

section

variable {α : Type} (php : Php α)

/-- What a resolver says of a part of the expression is what the part evaluates to. -/
def Truthful (resolve : List Char → Option PhpType) (e : Expr) : Prop :=
  ∀ part ∈ e.parts, ∀ n, resolved resolve part.text = some n → php.eval part = some (.int n)

/-- The value of an expression is an integer. -/
def IsInt (e : Expr) : Prop := ∃ n, php.eval e = some (.int n)

/-- Every operand and every operation that is folded is an integer. -/
def Integral : Expr → Prop
  | .paren _ inner _ => inner.Integral
  | .unary op gap operand =>
      (op.sign?.isSome = true → operand.Integral) ∧ IsInt php (.unary op gap operand)
  | .binary left before (.int op) behind right =>
      left.Integral ∧ right.Integral ∧ IsInt php (.binary left before (.int op) behind right)
  | e => IsInt php e

/-- The remainder of the least integer by minus one is nowhere in the expression. -/
def NoLeastRemainder (e : Expr) : Prop :=
  ∀ left before behind right, Expr.binary left before (.int .mod) behind right ∈ e.parts →
    php.eval left = some (.int i64Min) → php.eval right ≠ some (.int (-1))

end

/-- Integer literals and what the resolver has an integer for, under the operators that are
folded. -/
def Arithmetic (resolve : List Char → Option PhpType) : Expr → Prop
  | .int _ => True
  | .paren _ inner _ => inner.Arithmetic resolve
  | .unary op _ operand => op.sign?.isSome = true ∧ operand.Arithmetic resolve
  | .binary left _ (.int _) _ right => left.Arithmetic resolve ∧ right.Arithmetic resolve
  | e => (resolved resolve e.text).isSome = true

variable {α : Type} {php : Php α}

theorem inI64_parsePhpIntLiteral {raw : String} {n : Int} (h : parsePhpIntLiteral raw = some n) :
    InI64 n := by
  simp only [parsePhpIntLiteral] at h
  split at h
  · split at h
    · obtain ⟨magnitude, _, hmagnitude⟩ := Option.bind_eq_some_iff.mp h
      exact inI64_checkI64 hmagnitude
    · exact absurd h (by simp)
  · exact absurd h (by simp)

theorem inI64_parseInt {literal : LiteralValue} {n : Int} (h : literal.parseInt = some n) :
    InI64 n := by
  cases literal with
  | int raw =>
      rw [LiteralValue.parseInt] at h
      exact inI64_parsePhpIntLiteral h
  | _ => exact absurd h (by simp [LiteralValue.parseInt])

theorem inI64_resolved {text : List Char} {n : Int} (h : resolved resolve text = some n) :
    InI64 n := by
  rw [resolved] at h
  have ⟨ty, _, hty⟩ := Option.bind_eq_some_iff.mp h
  have ⟨literal, _, hliteral⟩ := Option.bind_eq_some_iff.mp hty
  exact inI64_parseInt hliteral

theorem Truthful.of_parts {e part : Expr} (h : e.Truthful php resolve)
    (hsub : ∀ p ∈ part.parts, p ∈ e.parts) : part.Truthful php resolve :=
  fun p hp => h p (hsub p hp)

theorem Truthful.eval {e : Expr} (h : e.Truthful php resolve) {n : Int}
    (hn : resolved resolve e.text = some n) : php.eval e = some (.int n) ∧ InI64 n :=
  ⟨h e e.mem_parts n hn, inI64_resolved hn⟩

/-- What an expression folds to is its value. -/
theorem eval_of_folded {e : Expr} (htruthful : e.Truthful php resolve) {n : Int}
    (h : e.folded resolve = some n) : php.eval e = some (.int n) ∧ InI64 n := by
  induction e generalizing n with
  | int lit =>
      rw [folded] at h
      cases hcheck : checkI64 lit.value with
      | none =>
          rw [hcheck] at h
          exact htruthful.eval h
      | some value =>
          rw [hcheck] at h
          have hvalue : value = n := Option.some.inj h
          refine ⟨?_, hvalue ▸ inI64_checkI64 hcheck⟩
          rw [Php.eval, hcheck, hvalue]
          rfl
  | paren before inner behind ih =>
      exact ih (htruthful.of_parts fun p hp => List.mem_cons_of_mem _ hp) h
  | unary op gap operand ih =>
      have hoperand : operand.Truthful php resolve :=
        htruthful.of_parts fun p hp => List.mem_cons_of_mem _ hp
      cases op with
      | bitNot =>
          obtain ⟨value, hvalue, hn⟩ := Option.map_eq_some_iff.mp h
          obtain ⟨heval, hin⟩ := ih hoperand hvalue
          rw [Php.eval, heval, ← hn]
          refine ⟨rfl, ?_⟩
          simp only [InI64, i64Min, i64Max] at hin ⊢
          omega
      | neg =>
          obtain ⟨value, hvalue, hn⟩ := Option.bind_eq_some_iff.mp h
          obtain ⟨heval, hin⟩ := ih hoperand hvalue
          refine ⟨?_, inI64_checkI64 hn⟩
          rw [Php.eval, heval, Php.applyUnary]
          show Php.intValue (checkI64 (-value)) _ = _
          rw [hn]
          rfl
      | plus =>
          obtain ⟨heval, hin⟩ := ih hoperand h
          rw [Php.eval, heval]
          exact ⟨rfl, hin⟩
      | _ => exact htruthful.eval h
  | binary left before op behind right ihl ihr =>
      cases op with
      | int op =>
          obtain ⟨lhs, hlhs, hrest⟩ := Option.bind_eq_some_iff.mp h
          obtain ⟨rhs, hrhs, happly⟩ := Option.bind_eq_some_iff.mp hrest
          obtain ⟨hleft, hin⟩ := ihl (htruthful.of_parts fun p hp =>
            List.mem_cons_of_mem _ (List.mem_append_left _ hp)) hlhs
          obtain ⟨hright, _⟩ := ihr (htruthful.of_parts fun p hp =>
            List.mem_cons_of_mem _ (List.mem_append_right _ hp)) hrhs
          have hresult := IntOp.result_of_apply hin happly
          refine ⟨?_, IntOp.inI64_result hin hresult⟩
          rw [Php.eval, hleft, hright, Php.applyBinary, hresult]
          rfl
      | _ => exact htruthful.eval h
  | _ => exact htruthful.eval h

theorem intValue_isInt {z : Option Int} {other : Option α} {n : Int}
    (h : Php.intValue z other = some (.int n)) : z = some n := by
  cases z with
  | none =>
      have ⟨a, _, ha⟩ := Option.map_eq_some_iff.mp h
      exact absurd ha (by simp)
  | some m =>
      have hm := Option.some.inj h
      rw [Value.int.inj hm]

/-- An expression of integers folds where PHP has an integer at every operator. -/
theorem folded_isSome {e : Expr} (htruthful : e.Truthful php resolve)
    (harithmetic : e.Arithmetic resolve) (hleast : e.NoLeastRemainder php)
    (h : e.Integral php) : (e.folded resolve).isSome = true := by
  induction e with
  | int lit =>
      obtain ⟨n, hn⟩ := h
      rw [Php.eval] at hn
      rw [folded, intValue_isInt hn]
      rfl
  | paren before inner behind ih =>
      exact ih (htruthful.of_parts fun p hp => List.mem_cons_of_mem _ hp) harithmetic
        (fun l b b' r hp => hleast l b b' r (List.mem_cons_of_mem _ hp)) h
  | unary op gap operand ih =>
      have hoperand : operand.Truthful php resolve :=
        htruthful.of_parts fun p hp => List.mem_cons_of_mem _ hp
      have hsome := ih hoperand harithmetic.2
        (fun l b b' r hp => hleast l b b' r (List.mem_cons_of_mem _ hp)) (h.1 harithmetic.1)
      obtain ⟨value, hvalue⟩ := Option.isSome_iff_exists.mp hsome
      obtain ⟨heval, _⟩ := eval_of_folded hoperand hvalue
      obtain ⟨n, hn⟩ := h.2
      cases op with
      | bitNot => simp [folded, hvalue]
      | neg =>
          rw [Php.eval, heval, Php.applyUnary] at hn
          rw [folded, hvalue, Option.bind_some, intValue_isInt hn]
          rfl
      | plus => simp [folded, hvalue]
      | _ => exact absurd harithmetic.1 (by simp [UnaryOp.sign?])
  | binary left before op behind right ihl ihr =>
      cases op with
      | int op =>
          have hleft : left.Truthful php resolve := htruthful.of_parts fun p hp =>
            List.mem_cons_of_mem _ (List.mem_append_left _ hp)
          have hright : right.Truthful php resolve := htruthful.of_parts fun p hp =>
            List.mem_cons_of_mem _ (List.mem_append_right _ hp)
          have hl := ihl hleft harithmetic.1 (fun l b b' r hp =>
            hleast l b b' r (List.mem_cons_of_mem _ (List.mem_append_left _ hp))) h.1
          have hr := ihr hright harithmetic.2 (fun l b b' r hp =>
            hleast l b b' r (List.mem_cons_of_mem _ (List.mem_append_right _ hp))) h.2.1
          obtain ⟨lhs, hlhs⟩ := Option.isSome_iff_exists.mp hl
          obtain ⟨rhs, hrhs⟩ := Option.isSome_iff_exists.mp hr
          obtain ⟨hevalLeft, hin⟩ := eval_of_folded hleft hlhs
          obtain ⟨hevalRight, _⟩ := eval_of_folded hright hrhs
          have hfolds : ¬op.Unfolded lhs rhs := by
            rintro ⟨hop, hmin, hone⟩
            rw [hop] at hleast
            rw [hmin] at hevalLeft
            rw [hone] at hevalRight
            exact hleast left before behind right List.mem_cons_self hevalLeft hevalRight
          obtain ⟨n, hn⟩ := h.2.2
          rw [Php.eval, hevalLeft, hevalRight, Php.applyBinary] at hn
          rw [folded, hlhs, hrhs, Option.bind_some, Option.bind_some,
            IntOp.apply_eq_result hin hfolds, intValue_isInt hn]
          rfl
      | _ => exact harithmetic
  | _ => exact harithmetic

theorem integral_of_folded {e : Expr} (htruthful : e.Truthful php resolve)
    (h : (e.folded resolve).isSome = true) : e.Integral php := by
  have hint : ∀ {e : Expr}, e.Truthful php resolve → (e.folded resolve).isSome = true →
      IsInt php e := by
    intro e htruthful h
    obtain ⟨n, hn⟩ := Option.isSome_iff_exists.mp h
    exact ⟨n, (eval_of_folded htruthful hn).1⟩
  induction e with
  | paren before inner behind ih =>
      exact ih (htruthful.of_parts fun p hp => List.mem_cons_of_mem _ hp) h
  | unary op gap operand ih =>
      refine ⟨?_, hint htruthful h⟩
      intro hsign
      apply ih (htruthful.of_parts fun p hp => List.mem_cons_of_mem _ hp)
      cases op with
      | bitNot => simpa [folded] using h
      | neg =>
          obtain ⟨n, hn⟩ := Option.isSome_iff_exists.mp h
          obtain ⟨value, hvalue, _⟩ := Option.bind_eq_some_iff.mp hn
          rw [hvalue]
          rfl
      | plus => exact h
      | _ => exact absurd hsign (by simp [UnaryOp.sign?])
  | binary left before op behind right ihl ihr =>
      cases op with
      | int op =>
          obtain ⟨n, hn⟩ := Option.isSome_iff_exists.mp h
          obtain ⟨lhs, hlhs, hrest⟩ := Option.bind_eq_some_iff.mp hn
          obtain ⟨rhs, hrhs, _⟩ := Option.bind_eq_some_iff.mp hrest
          refine ⟨ihl (htruthful.of_parts fun p hp =>
            List.mem_cons_of_mem _ (List.mem_append_left _ hp)) ?_,
            ihr (htruthful.of_parts fun p hp =>
            List.mem_cons_of_mem _ (List.mem_append_right _ hp)) ?_, hint htruthful h⟩
          · rw [hlhs]
            rfl
          · rw [hrhs]
            rfl
      | _ => exact hint htruthful h
  | _ => exact hint htruthful h

end Expr

open Expr in
/-- What the text of an expression folds to is its value, and it folds exactly where every
operand and operation is an integer. -/
theorem foldIntExpression_value {α : Type} {php : Php α} {resolve : List Char → Option PhpType}
    {e : Expr} (hplain : e.plain = true) (hgrouped : e.Grouped)
    (htruthful : e.Truthful php resolve) {gap gap' : List Char} (hgap : isBlank gap = true)
    (hgap' : isBlank gap' = true) :
    (∀ n, foldIntExpression resolve (gap ++ e.text ++ gap') = some n →
        php.eval e = some (.int n)) ∧
      (e.Arithmetic resolve → e.NoLeastRemainder php →
        ((foldIntExpression resolve (gap ++ e.text ++ gap')).isSome = true ↔ e.Integral php)) := by
  have hfold : foldIntExpression resolve (gap ++ e.text ++ gap') = e.folded resolve := by
    apply foldWith_text hplain hgrouped _ hgap hgap'
    simp only [List.length_append]
    omega
  rw [hfold]
  refine ⟨fun n hn => (eval_of_folded htruthful hn).1, ?_⟩
  intro harithmetic hleast
  exact ⟨integral_of_folded htruthful, folded_isSome htruthful harithmetic hleast⟩

/-! ## Two expressions -/

/-- An integer literal of one digit. -/
def IntLiteral.digit (c : Char) (h : IntForm.decimal.isDigit c = true) : IntLiteral where
  form := .decimal
  groups := [[c]]
  groups_ne_nil := by simp
  group_ne_nil := by simp
  digits := by simpa using h
  first := by
    intro hzero
    simpa using hzero

/-- PHP's arithmetic with exact floats, where an operand of a remainder loses its fraction. -/
def exactPhp (term : List Char → Option (Value ℚ)) : Php ℚ where
  term := term
  float n := n
  inexact
    | .add, lhs, rhs => some (lhs + rhs)
    | .sub, lhs, rhs => some (lhs - rhs)
    | .mul, lhs, rhs => some (lhs * rhs)
    | .div, lhs, rhs => if rhs = 0 then none else some (lhs / rhs)
    | _, _, _ => none
  overflow n := -n
  unary _ _ := none
  binary
    | .int .mod, some lhs, some rhs =>
        let whole : Value ℚ → Int
          | .int n => n
          | .other a => a.num.tdiv a.den
        (IntOp.mod.result (whole lhs) (whole rhs)).map .int
    | _, _, _ => none
  conditional _ _ _ := none
  elvis _ _ := none

/-- `(1 << 2) | A` -/
def maskExpr : Expr :=
  .binary (.paren [] (.binary (.int (.digit '1' rfl)) [' '] (.int (.bitwise .leftShift)) [' ']
    (.int (.digit '2' rfl))) []) [' '] (.int (.bitwise .or)) [' '] (.term ['A'])

theorem foldIntExpression_mask :
    let resolve := fun text => if text = ['A'] then some (PhpType.literalInt "8") else none
    let php := exactPhp fun text => if text = ['A'] then some (.int 8) else none
    maskExpr.text = "(1 << 2) | A".toList ∧ foldIntExpression resolve maskExpr.text = some 12 ∧
      php.eval maskExpr = some (.int 12) ∧ maskExpr.Integral php := by
  intro resolve php
  have hplain : maskExpr.plain = true := by decide +kernel
  have hgrouped : maskExpr.Grouped := by
    simp [maskExpr, Expr.Grouped, BinaryOp.operandLevels, BinaryOp.level, IntOp.level, Expr.level]
  have hfold : foldIntExpression resolve ([] ++ maskExpr.text ++ []) = some 12 := by decide +kernel
  have htruthful : maskExpr.Truthful php resolve := by
    intro part hpart n hn
    by_cases htext : part.text = ['A']
    · simp only [maskExpr, Expr.parts, List.cons_append, List.nil_append, List.mem_cons,
        List.not_mem_nil, or_false] at hpart
      rcases hpart with rfl | rfl | rfl | rfl | rfl | rfl
      · exact absurd htext (by decide +kernel)
      · exact absurd htext (by decide +kernel)
      · exact absurd htext (by decide +kernel)
      · exact absurd htext (by decide +kernel)
      · exact absurd htext (by decide +kernel)
      · have height : Expr.resolved resolve ['A'] = some 8 := by decide +kernel
        rw [Expr.text, height] at hn
        rw [← Option.some.inj hn]
        rfl
    · rw [Expr.resolved, show resolve part.text = none from if_neg htext] at hn
      exact absurd hn (by simp)
  obtain ⟨hvalue, hfolds⟩ := @foldIntExpression_value ℚ php resolve maskExpr hplain hgrouped
    htruthful [] [] rfl rfl
  refine ⟨rfl, by decide +kernel, hvalue 12 hfold, (hfolds ?_ ?_).mp (by rw [hfold]; rfl)⟩
  · simp [maskExpr, Expr.Arithmetic]
    decide +kernel
  · intro left before behind right hpart
    simp [maskExpr, Expr.parts] at hpart

/-- `7 / 2 % 2` -/
def halfExpr : Expr :=
  .binary (.binary (.int (.digit '7' rfl)) [' '] (.int .div) [' '] (.int (.digit '2' rfl))) [' ']
    (.int .mod) [' '] (.int (.digit '2' rfl))

/-- A float in the middle leaves an expression unfolded that is an integer. -/
theorem half_unfolded :
    halfExpr.text = "7 / 2 % 2".toList ∧ halfExpr.Grouped ∧
      halfExpr.Arithmetic (fun _ => none) ∧
      (exactPhp fun _ => none).eval halfExpr = some (.int 1) ∧
      foldIntExpression (fun _ => none) halfExpr.text = none := by
  refine ⟨rfl, ?_, ?_, ?_, by decide +kernel⟩
  · simp [halfExpr, Expr.Grouped, BinaryOp.operandLevels, BinaryOp.level, IntOp.level, Expr.level]
  · simp [halfExpr, Expr.Arithmetic]
  · decide +kernel

end PhpantomLsp.Folding
