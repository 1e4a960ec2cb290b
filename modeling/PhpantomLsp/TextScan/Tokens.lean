import PhpantomLsp.TextScan.Brackets

/-!
# Strings and code bytes

A text without comments whose strings are closed is a sequence of strings and code
bytes.  Both directions of scan split it so: forward by the escape pairs of a string
(`codeFrom_flatten`), backward by the backslashes before a quote
(`codeBackward_flatten`).
-/

namespace PhpantomLsp.TextScan

inductive Token where
  | code (b : Byte)
  | string (quote : Byte) (body : List Byte)

def Token.bytes : Token → List Byte
  | code b => [b]
  | string quote body => quote :: body ++ [quote]

def flatten (tokens : List Token) : List Byte := tokens.flatMap Token.bytes

/-- What stands between the quotes of a closed string. -/
inductive StringBody (quote : Byte) : List Byte → Prop
  | nil : StringBody quote []
  | plain {b : Byte} {body : List Byte} : b ≠ quote → b ≠ backslash → StringBody quote body →
      StringBody quote (b :: body)
  | escape {b : Byte} {body : List Byte} : StringBody quote body →
      StringBody quote (backslash :: b :: body)

/-- No comment opens at a code byte, and no code byte that is a backslash stands before
a quote. -/
inductive Plain : List Token → Prop
  | nil : Plain []
  | code {b : Byte} {tokens : List Token} : isQuote b = false →
      skipPhpComment (b :: flatten tokens) = none →
      (b = backslash → ∀ next, (flatten tokens).head? = some next → isQuote next = false) →
      Plain tokens → Plain (.code b :: tokens)
  | string {quote : Byte} {body : List Byte} {tokens : List Token} : isQuote quote = true →
      StringBody quote body → Plain tokens → Plain (.string quote body :: tokens)

/-- A text without comments in which every quote outside a string opens a closed string,
and no backslash outside a string precedes a quote. -/
def PlainText (text : List Byte) : Prop := ∃ tokens, Plain tokens ∧ flatten tokens = text

/-- The code bytes of a sequence that starts at an offset. -/
def codeOf : (pos : Nat) → List Token → List (Nat × Byte)
  | _, [] => []
  | pos, .code b :: tokens => (pos, b) :: codeOf (pos + 1) tokens
  | pos, .string _ body :: tokens => codeOf (pos + body.length + 2) tokens

theorem flatten_append (before after : List Token) :
    flatten (before ++ after) = flatten before ++ flatten after :=
  List.flatMap_append

theorem codeOf_append (pos : Nat) (before after : List Token) :
    codeOf pos (before ++ after) =
      codeOf pos before ++ codeOf (pos + (flatten before).length) after := by
  induction before generalizing pos with
  | nil => rfl
  | cons token before ih =>
      cases token with
      | code b =>
          simp only [List.cons_append, codeOf, ih]
          simp only [flatten, List.flatMap_cons, Token.bytes, List.length_append,
            List.length_singleton]
          rw [Nat.add_assoc]
      | string quote body =>
          simp only [List.cons_append, codeOf, ih]
          simp only [flatten, List.flatMap_cons, Token.bytes, List.length_append, List.length_cons,
            List.length_nil]
          congr 2
          omega

theorem codeOf_bounds {pos : Nat} {tokens : List Token} {entry : Nat × Byte}
    (h : entry ∈ codeOf pos tokens) :
    pos ≤ entry.1 ∧ entry.1 < pos + (flatten tokens).length := by
  induction tokens generalizing pos with
  | nil => cases h
  | cons token tokens ih =>
      simp only [flatten, List.flatMap_cons, List.length_append] at ih ⊢
      cases token with
      | code b =>
          simp only [Token.bytes, List.length_singleton]
          rcases List.mem_cons.mp h with rfl | h
          · exact ⟨Nat.le_refl _, by dsimp only; omega⟩
          · have hrest := ih h
            omega
      | string quote body =>
          have hrest := @ih (pos + body.length + 2) h
          simp only [Token.bytes, List.length_append, List.length_cons, List.length_nil]
          omega

theorem codeOf_sorted (pos : Nat) (tokens : List Token) :
    ((codeOf pos tokens).map (·.1)).Pairwise (· < ·) := by
  induction tokens generalizing pos with
  | nil => exact .nil
  | cons token tokens ih =>
      cases token with
      | code b =>
          refine List.pairwise_cons.mpr ⟨?_, ih (pos + 1)⟩
          intro i hi
          obtain ⟨entry, hentry, rfl⟩ := List.mem_map.mp hi
          exact (codeOf_bounds hentry).1
      | string quote body => exact ih _

theorem codeOf_nodup (pos : Nat) (tokens : List Token) :
    ((codeOf pos tokens).map (·.1)).Nodup :=
  (codeOf_sorted pos tokens).imp fun hlt => Nat.ne_of_lt hlt

/-- The text splits at the offset of a code byte. -/
theorem split_of_mem_codeOf {pos : Nat} {tokens : List Token} {k : Nat} {b : Byte}
    (h : (k, b) ∈ codeOf pos tokens) :
    ∃ before after, tokens = before ++ .code b :: after ∧ pos + (flatten before).length = k := by
  induction tokens generalizing pos with
  | nil => cases h
  | cons token tokens ih =>
      cases token with
      | code b' =>
          rcases List.mem_cons.mp h with heq | h
          · cases heq
            exact ⟨[], tokens, rfl, rfl⟩
          · obtain ⟨before, after, rfl, rfl⟩ := ih h
            refine ⟨.code b' :: before, after, rfl, ?_⟩
            simp only [flatten, List.flatMap_cons, Token.bytes, List.length_append,
              List.length_singleton]
            omega
      | string quote body =>
          obtain ⟨before, after, rfl, rfl⟩ := @ih (pos + body.length + 2) h
          refine ⟨.string quote body :: before, after, rfl, ?_⟩
          simp only [flatten, List.flatMap_cons, Token.bytes, List.length_append, List.length_cons,
            List.length_nil]
          omega

/-! ## Forward -/

theorem isQuote_ne {quote : Byte} (h : isQuote quote = true) :
    quote ≠ backslash ∧ quote ≠ '#'.toUInt8 ∧ quote ≠ '/'.toUInt8 := by
  simp only [isQuote, Bool.or_eq_true, beq_iff_eq] at h
  obtain rfl | rfl := h <;> decide

theorem skipStringForward_body {quote : Byte} {body : List Byte} (hquote : quote ≠ backslash)
    (h : StringBody quote body) (rest : List Byte) :
    skipStringForward quote (body ++ quote :: rest) = rest := by
  induction h with
  | nil =>
      cases rest with
      | nil => rfl
      | cons c rest => simp [skipStringForward, hquote]
  | @plain b body hb hslash _ ih =>
      obtain ⟨c, tail, htail⟩ : ∃ c tail, body ++ quote :: rest = c :: tail :=
        List.exists_cons_of_ne_nil (by simp)
      rw [List.cons_append, htail, skipStringForward, if_neg hslash, if_neg hb, ← htail, ih]
  | @escape b body _ ih =>
      rw [List.cons_append, List.cons_append, skipStringForward, if_pos rfl, ih]

theorem codeFrom_flatten {len : Nat} {tokens : List Token} (h : Plain tokens)
    (hlen : (flatten tokens).length ≤ len) :
    codeFrom len (flatten tokens) = codeOf (len - (flatten tokens).length) tokens := by
  induction h with
  | nil => simp [flatten, codeFrom, codeOf]
  | @code b tokens hb hcomment _ _ ih =>
      have hcons : flatten (.code b :: tokens) = b :: flatten tokens := rfl
      rw [hcons, List.length_cons] at hlen
      rw [hcons, codeFrom_code hcomment (by simp [hb]), codeOf, ih (by omega), List.length_cons]
      congr 2
      omega
  | @string quote body tokens hquote hbody _ ih =>
      have hcons : flatten (.string quote body :: tokens) =
          quote :: (body ++ quote :: flatten tokens) := by
        simp [flatten, Token.bytes]
      obtain ⟨hslash, hhash, hcomment⟩ := isQuote_ne hquote
      have hnone : skipPhpComment (quote :: (body ++ quote :: flatten tokens)) = none := by
        simp [skipPhpComment, hhash, hcomment]
      rw [hcons] at hlen ⊢
      simp only [List.length_cons, List.length_append] at hlen
      rw [codeFrom_string hnone hquote, skipStringForward_body hslash hbody, codeOf, ih (by omega)]
      congr 1
      simp only [List.length_cons, List.length_append]
      omega

/-! ## Backward -/

theorem isEscaped_cons (b : Byte) (before : List Byte) :
    isEscaped (b :: before) = if b = backslash then !isEscaped before else false := by
  unfold isEscaped
  by_cases hb : b = backslash
  · rw [List.takeWhile_cons_of_pos (by simpa using hb), List.length_cons, if_pos hb]
    rcases Nat.mod_two_eq_zero_or_one (before.takeWhile (· = backslash)).length with h | h <;>
      simp [h, Nat.add_mod]
  · rw [List.takeWhile_cons_of_neg (by simpa using hb), if_neg hb]
    rfl

/-- What stands before a byte that is no backslash does not matter. -/
theorem isEscaped_append {b b' : Byte} (hb : b ≠ backslash) (hb' : b' ≠ backslash)
    (near before before' : List Byte) :
    isEscaped (near ++ b :: before) = isEscaped (near ++ b' :: before') := by
  induction near with
  | nil => rw [List.nil_append, List.nil_append, isEscaped_cons, isEscaped_cons, if_neg hb, if_neg hb']
  | cons c near ih => rw [List.cons_append, List.cons_append, isEscaped_cons, isEscaped_cons, ih]

theorem isEscaped_pair (near before : List Byte) :
    isEscaped (near ++ backslash :: backslash :: before) = isEscaped (near ++ before) := by
  induction near with
  | nil => simp [isEscaped_cons]
  | cons c near ih => rw [List.cons_append, List.cons_append, isEscaped_cons, isEscaped_cons, ih]

/-- A quote inside a string of its kind is escaped. -/
theorem isEscaped_of_body {quote : Byte} (hquote : quote ≠ backslash) {body : List Byte}
    (h : StringBody quote body) {inner outer : List Byte} (hsplit : body = inner ++ quote :: outer)
    (before : List Byte) : isEscaped (inner.reverse ++ quote :: before) = true := by
  induction h generalizing inner before with
  | nil => simp at hsplit
  | @plain b body hb hslash _ ih =>
      cases inner with
      | nil => exact absurd (List.cons.inj hsplit).1 hb
      | cons c inner =>
          obtain ⟨rfl, hrest⟩ := List.cons.inj hsplit
          rw [List.reverse_cons, List.append_assoc, List.singleton_append,
            isEscaped_append hslash hquote _ _ before]
          exact ih hrest before
  | @escape b body _ ih =>
      cases inner with
      | nil => exact absurd (List.cons.inj hsplit).1 hquote.symm
      | cons c inner =>
          obtain ⟨rfl, hrest⟩ := List.cons.inj hsplit
          cases inner with
          | nil => simp [isEscaped_cons, hquote]
          | cons d inner =>
              obtain ⟨rfl, hbody⟩ := List.cons.inj hrest
              have hinner := ih hbody before
              rw [List.reverse_cons, List.reverse_cons, List.append_assoc, List.append_assoc,
                List.singleton_append, List.singleton_append]
              by_cases hb : b = backslash
              · rw [hb, isEscaped_pair]
                exact hinner
              · rw [isEscaped_append hb hquote _ _ before]
                exact hinner

/-- Going back from its closing quote, a string is left at its opening one. -/
theorem openingQuote_body {quote : Byte} (hquote : quote ≠ backslash) {body before : List Byte}
    (h : StringBody quote body) (hbefore : isEscaped before = false) :
    openingQuote quote (body.reverse ++ quote :: before) = before := by
  have hsuffix : ∀ inner outer : List Byte, body = inner ++ outer →
      openingQuote quote (inner.reverse ++ quote :: before) = before := by
    intro inner
    induction inner using List.reverseRecOn with
    | nil =>
        intro outer _
        rw [List.reverse_nil, List.nil_append, openingQuote, if_pos ⟨rfl, hbefore⟩]
    | append_singleton inner b ih =>
        intro outer hsplit
        have hsplit' : body = inner ++ b :: outer := by simpa using hsplit
        rw [List.reverse_append, List.reverse_singleton, List.singleton_append, List.cons_append,
          openingQuote, if_neg, ih _ hsplit']
        rintro ⟨rfl, hescaped⟩
        rw [isEscaped_of_body hquote h hsplit'] at hescaped
        cases hescaped
  exact hsuffix body [] (by simp)

def Token.WellFormed : Token → Prop
  | code b => isQuote b = false
  | string quote body => isQuote quote = true ∧ StringBody quote body

/-- Each string is closed and its opening quote is not escaped. -/
structure Splits (tokens : List Token) : Prop where
  wellFormed : ∀ token ∈ tokens, token.WellFormed
  unescaped : ∀ before quote body after, tokens = before ++ .string quote body :: after →
    isEscaped (flatten before).reverse = false

theorem flatten_ne_nil {tokens : List Token} (h : tokens ≠ []) : flatten tokens ≠ [] := by
  obtain ⟨token, tokens, rfl⟩ := List.exists_cons_of_ne_nil h
  cases token <;> simp [flatten, Token.bytes]

theorem Plain.getLast_ne {tokens before after : List Token} {quote : Byte} {body : List Byte}
    (h : Plain tokens) (hsplit : tokens = before ++ .string quote body :: after) :
    (flatten before).getLast? ≠ some backslash := by
  have hrest : ∀ {token : Token} {before : List Token}, before ≠ [] →
      (flatten (token :: before)).getLast? = (flatten before).getLast? := by
    intro token before hne
    have hcons : flatten (token :: before) = token.bytes ++ flatten before := rfl
    rw [hcons, List.getLast?_append_of_ne_nil _ (flatten_ne_nil hne)]
  induction h generalizing before with
  | nil => simp at hsplit
  | @code b tokens hb hcomment hslash hplain ih =>
      cases before with
      | nil => cases hsplit
      | cons token before =>
          obtain ⟨rfl, rfl⟩ := List.cons.inj hsplit
          by_cases hne : before = []
          · subst hne
            intro hlast
            have hb : b = backslash := by simpa [flatten, Token.bytes] using hlast
            cases hplain with
            | string hquote =>
                have hnext := hslash hb quote rfl
                rw [hquote] at hnext
                cases hnext
          · rw [hrest hne]
            exact ih rfl
  | @string quote' body' tokens hquote hbody _ ih =>
      cases before with
      | nil => simp [flatten]
      | cons token before =>
          obtain ⟨rfl, rfl⟩ := List.cons.inj hsplit
          by_cases hne : before = []
          · subst hne
            have hcons : flatten [.string quote' body'] = (quote' :: body') ++ [quote'] := by
              simp [flatten, Token.bytes]
            rw [hcons, List.getLast?_concat]
            exact fun heq => (isQuote_ne hquote).1 (Option.some.inj heq)
          · rw [hrest hne]
            exact ih rfl

theorem Plain.wellFormed {tokens : List Token} (h : Plain tokens) :
    ∀ token ∈ tokens, token.WellFormed := by
  induction h with
  | nil => exact fun token h => absurd h List.not_mem_nil
  | code hb _ _ _ ih => exact List.forall_mem_cons.mpr ⟨hb, ih⟩
  | string hquote hbody _ ih => exact List.forall_mem_cons.mpr ⟨⟨hquote, hbody⟩, ih⟩

theorem Plain.splits {tokens : List Token} (h : Plain tokens) : Splits tokens := by
  refine ⟨h.wellFormed, fun before quote body after hsplit => ?_⟩
  have hlast := h.getLast_ne hsplit
  rw [← List.head?_reverse] at hlast
  cases hrev : (flatten before).reverse with
  | nil => rfl
  | cons b rest =>
      rw [hrev] at hlast
      rw [isEscaped_cons, if_neg fun heq => hlast (by rw [heq]; rfl)]

theorem Splits.before {before after : List Token} (h : Splits (before ++ after)) :
    Splits before := by
  refine ⟨fun token htoken => h.wellFormed token (List.mem_append_left _ htoken), ?_⟩
  intro start quote body rest heq
  exact h.unescaped start quote body (rest ++ after) (by rw [heq]; simp)

theorem codeBackward_flatten {tokens : List Token} (h : Splits tokens) :
    codeBackward (flatten tokens).reverse = (codeOf 0 tokens).reverse := by
  induction tokens using List.reverseRecOn with
  | nil => simp [flatten, codeBackward, codeOf]
  | append_singleton tokens token ih =>
      have htoken := h.wellFormed token (List.mem_append_right _ (List.mem_singleton_self _))
      rw [flatten_append, List.reverse_append, codeOf_append, List.reverse_append, ← ih h.before,
        Nat.zero_add]
      cases token with
      | code b =>
          change codeBackward (b :: (flatten tokens).reverse) = _
          have hb : isQuote b = false := htoken
          rw [codeBackward, if_neg (by simp [hb])]
          simp [codeOf]
      | string quote body =>
          obtain ⟨hquote, hbody⟩ := htoken
          have hescaped := h.unescaped tokens quote body [] rfl
          have hrev : (flatten [.string quote body]).reverse ++ (flatten tokens).reverse =
              quote :: (body.reverse ++ quote :: (flatten tokens).reverse) := by
            simp [flatten, Token.bytes]
          rw [hrev, codeBackward, if_pos hquote,
            openingQuote_body (isQuote_ne hquote).1 hbody hescaped]
          rfl

end PhpantomLsp.TextScan
