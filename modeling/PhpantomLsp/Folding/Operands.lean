import PhpantomLsp.Folding.ConstFold

/-!
# Text the scan for an operator comes out of

A text that closes its quotes, comments and brackets is passed by the scans of the
fold as one piece, whatever stands around it: they come out of it at the depth they
went in at.  `closesOn` decides that for a text with no operator at its top level;
`Passes` is the same of any stretch of a text, from the brackets open in front of it to
those open behind it.
-/

namespace PhpantomLsp.Folding

open PhpantomLsp.Text

/-! ## Closed text -/

def closer (c : Char) : Char := if c = '(' then ')' else if c = '[' then ']' else '}'

/-- The text closes what it opens, and no operator is at its top level.  Where its last
quote or comment ends is asked with a letter behind it, which closes neither. -/
def closesOn : (before : List Char) → List Char → (skip : Nat) → (closers : List Char) → Bool
  | _, [], skip, closers => skip == 0 && closers.isEmpty
  | before, c :: rest, skip + 1, closers => closesOn (c :: before) rest skip closers
  | before, c :: rest, 0, closers =>
      match skipPhpComment (c :: rest ++ ['x']) with
      | some n => closesOn (c :: before) rest (n - 1) closers
      | none =>
          if isQuote c then
            closesOn (c :: before) rest (skipStringForward c (rest ++ ['x'])) closers
          else if isOpening c then closesOn (c :: before) rest 0 (closer c :: closers)
          else if isClosing c then
            closers.head? == some c && closesOn (c :: before) rest 0 closers.tail
          else if closers ≠ [] then closesOn (c :: before) rest 0 closers
          else if isPair c rest.head? then closesOn (c :: before) rest 1 []
          else
            (intOpAt before c rest.head?).isNone && (!rest.isEmpty || !(['-', '<', '>'].contains c)) &&
              closesOn (c :: before) rest 0 []

/-- A character that neither quotes, brackets nor starts a comment. -/
structure Ordinary (c : Char) (rest : List Char) : Prop where
  quote : isQuote c = false
  opening : isOpening c = false
  closing : isClosing c = false
  comment : ∀ after, skipPhpComment (c :: rest ++ after) = none

/-- A stretch of text the scans pass, between the closers that are due in front of it
and those due behind it. -/
inductive Passes : (before closers : List Char) → List Char → (closers' : List Char) → Prop where
  | done {before closers : List Char} : Passes before closers [] closers
  | comment {before closers closers' rest : List Char} (c : Char) (skipped : List Char)
      (hskip : ∀ after,
        skipPhpComment (c :: (skipped ++ rest) ++ after) = some (skipped.length + 1))
      (h : Passes ((c :: skipped).reverse ++ before) closers rest closers') :
      Passes before closers (c :: (skipped ++ rest)) closers'
  | quoted {before closers closers' rest : List Char} (c : Char) (skipped : List Char)
      (hquote : isQuote c = true)
      (hskip : ∀ after, skipStringForward c (skipped ++ rest ++ after) = skipped.length)
      (h : Passes ((c :: skipped).reverse ++ before) closers rest closers') :
      Passes before closers (c :: (skipped ++ rest)) closers'
  | opening {before closers closers' rest : List Char} (c : Char) (hopen : isOpening c = true)
      (h : Passes (c :: before) (closer c :: closers) rest closers') :
      Passes before closers (c :: rest) closers'
  | closing {before closers closers' rest : List Char} (c : Char) (hclose : isClosing c = true)
      (h : Passes (c :: before) closers rest closers') :
      Passes before (c :: closers) (c :: rest) closers'
  | inner {before closers closers' rest : List Char} (c : Char) (hin : closers ≠ [])
      (hc : Ordinary c rest) (h : Passes (c :: before) closers rest closers') :
      Passes before closers (c :: rest) closers'
  | pair {before closers' rest : List Char} (c d : Char) (hpair : isPair c (some d) = true)
      (h : Passes (d :: c :: before) [] rest closers') :
      Passes before [] (c :: d :: rest) closers'
  | other {before closers' rest : List Char} (c : Char) (hc : Ordinary c rest)
      (hvisit : ∀ front after best,
        visit (before ++ front) c (rest ++ after).head? best = (1, best))
      (h : Passes (c :: before) [] rest closers') :
      Passes before [] (c :: rest) closers'

namespace Passes

variable {before closers closers' closers'' piece piece' : List Char}

theorem append (h : Passes before closers piece closers')
    (h' : Passes (piece.reverse ++ before) closers' piece' closers'') :
    Passes before closers (piece ++ piece') closers'' := by
  induction h with
  | done => exact h'
  | comment c skipped hskip h ih =>
      rw [List.cons_append, List.append_assoc]
      apply comment c skipped
      · intro after
        have hmore := hskip (piece' ++ after)
        simpa using hmore
      · exact ih (by simpa using h')
  | quoted c skipped hquote hskip h ih =>
      rw [List.cons_append, List.append_assoc]
      apply quoted c skipped hquote
      · intro after
        have hmore := hskip (piece' ++ after)
        simpa using hmore
      · exact ih (by simpa using h')
  | opening c hopen h ih => exact opening c hopen (ih (by simpa using h'))
  | closing c hclose h ih => exact closing c hclose (ih (by simpa using h'))
  | inner c hin hc h ih =>
      refine inner c hin ⟨hc.quote, hc.opening, hc.closing, ?_⟩ (ih (by simpa using h'))
      intro after
      have hmore := hc.comment (piece' ++ after)
      simpa using hmore
  | pair c d hpair h ih => exact pair c d hpair (ih (by simpa using h'))
  | other c hc hvisit h ih =>
      refine other c ⟨hc.quote, hc.opening, hc.closing, ?_⟩ ?_ (ih (by simpa using h'))
      · intro after
        have hmore := hc.comment (piece' ++ after)
        simpa using hmore
      · intro front after best
        have hmore := hvisit front (piece' ++ after) best
        simpa using hmore

end Passes

theorem skipPhpComment_none {c : Char} (hhash : c ≠ '#') (hslash : c ≠ '/') (rest : List Char) :
    skipPhpComment (c :: rest) = none := by
  unfold skipPhpComment
  split <;> simp_all

theorem opening_cases {c : Char} (h : isOpening c = true) : c = '(' ∨ c = '[' ∨ c = '{' := by
  simpa [isOpening, or_assoc] using h

theorem closing_cases {c : Char} (h : isClosing c = true) : c = ')' ∨ c = ']' ∨ c = '}' := by
  simpa [isClosing, or_assoc] using h

/-- Inside brackets an ordinary character is passed. -/
theorem scanTopLevel_ordinary {c : Char} {rest : List Char} (hc : Ordinary c rest) {depth : Nat}
    (hdepth : 0 < depth) {before after : List Char} {best : Best} :
    scanTopLevel before (c :: rest ++ after) 0 depth best =
      scanTopLevel (c :: before) (rest ++ after) 0 depth best := by
  rw [List.cons_append, scanTopLevel, ← List.cons_append, hc.comment after]
  simp only [hc.quote, hc.opening, hc.closing, Bool.false_eq_true, if_false, hdepth, if_true]

/-- At the top level an ordinary character is visited. -/
theorem scanTopLevel_visit {c : Char} {rest after : List Char} (hc : Ordinary c rest)
    {before : List Char} {best best' : Best} {step : Nat}
    (hvisit : visit before c (rest ++ after).head? best = (step, best')) :
    scanTopLevel before (c :: rest ++ after) 0 0 best =
      scanTopLevel (c :: before) (rest ++ after) (step - 1) 0 best' := by
  rw [List.cons_append, scanTopLevel, ← List.cons_append, hc.comment after]
  simp only [hc.quote, hc.opening, hc.closing, Bool.false_eq_true, if_false, Nat.lt_irrefl, hvisit]

theorem findUnmatchedClose_ordinary {c : Char} {rest : List Char} (hc : Ordinary c rest)
    {after : List Char} {pos depth : Nat} :
    findUnmatchedClose pos (c :: rest ++ after) 0 depth =
      findUnmatchedClose (pos + 1) (rest ++ after) 0 depth := by
  have hopen : c ≠ '(' := by
    rintro rfl
    exact absurd hc.opening (by decide)
  have hclose : c ≠ ')' := by
    rintro rfl
    exact absurd hc.closing (by decide)
  rw [List.cons_append, findUnmatchedClose, ← List.cons_append, hc.comment after]
  simp only [hc.quote, Bool.false_eq_true, if_false, hopen, hclose]

theorem findUnmatchedClose_skip (skipped rest : List Char) (pos depth : Nat) :
    findUnmatchedClose pos (skipped ++ rest) skipped.length depth =
      findUnmatchedClose (pos + skipped.length) rest 0 depth := by
  induction skipped generalizing pos with
  | nil => rfl
  | cons c skipped ih =>
      rw [List.cons_append, List.length_cons, findUnmatchedClose, ih]
      congr 1
      omega

theorem findUnmatchedClose_comment {c : Char} {skipped rest after : List Char} {pos depth : Nat}
    (hskip : skipPhpComment (c :: (skipped ++ rest) ++ after) = some (skipped.length + 1)) :
    findUnmatchedClose pos (c :: (skipped ++ rest) ++ after) 0 depth =
      findUnmatchedClose (pos + 1 + skipped.length) (rest ++ after) 0 depth := by
  rw [List.cons_append] at hskip ⊢
  rw [findUnmatchedClose, hskip]
  simp only [Nat.add_sub_cancel, List.append_assoc]
  exact findUnmatchedClose_skip skipped (rest ++ after) (pos + 1) depth

theorem findUnmatchedClose_quoted {c : Char} {skipped rest after : List Char} {pos depth : Nat}
    (hquote : isQuote c = true)
    (hskip : skipStringForward c (skipped ++ rest ++ after) = skipped.length) :
    findUnmatchedClose pos (c :: (skipped ++ rest) ++ after) 0 depth =
      findUnmatchedClose (pos + 1 + skipped.length) (rest ++ after) 0 depth := by
  have hnone : skipPhpComment (c :: (skipped ++ rest ++ after)) = none := by
    apply skipPhpComment_none <;> rintro rfl <;> exact absurd hquote (by decide)
  rw [List.cons_append, findUnmatchedClose, hnone]
  simp only [hquote, if_true, hskip]
  rw [List.append_assoc]
  exact findUnmatchedClose_skip skipped (rest ++ after) (pos + 1) depth

theorem findUnmatchedClose_opening {c : Char} (hopen : isOpening c = true)
    {closers rest after : List Char} {pos depth : Nat} :
    findUnmatchedClose pos (c :: rest ++ after) 0 (closers.count ')' + depth) =
      findUnmatchedClose (pos + 1) (rest ++ after) 0
        ((closer c :: closers).count ')' + depth) := by
  rcases opening_cases hopen with rfl | rfl | rfl
  · rw [show (closer '(' :: closers).count ')' + depth = closers.count ')' + depth + 1 by
      rw [show closer '(' = ')' from rfl, List.count_cons_self]; omega]
    rfl
  · rw [show (closer '[' :: closers).count ')' = closers.count ')' from by
      rw [List.count_cons_of_ne (by decide)]]
    rfl
  · rw [show (closer '\x7b' :: closers).count ')' = closers.count ')' from by
      rw [List.count_cons_of_ne (by decide)]]
    rfl

theorem findUnmatchedClose_closing {c : Char} (hclose : isClosing c = true)
    {closers rest after : List Char} {pos depth : Nat} :
    findUnmatchedClose pos (c :: rest ++ after) 0 ((c :: closers).count ')' + depth) =
      findUnmatchedClose (pos + 1) (rest ++ after) 0 (closers.count ')' + depth) := by
  rcases closing_cases hclose with rfl | rfl | rfl
  · rw [List.count_cons_self, Nat.add_right_comm]
    rfl
  · rw [List.count_cons_of_ne (by decide)]
    rfl
  · rw [List.count_cons_of_ne (by decide)]
    rfl

theorem scanTopLevel_skip (skipped rest : List Char) (before : List Char) (depth : Nat)
    (best : Best) : scanTopLevel before (skipped ++ rest) skipped.length depth best =
      scanTopLevel (skipped.reverse ++ before) rest 0 depth best := by
  induction skipped generalizing before with
  | nil => rfl
  | cons c skipped ih =>
      rw [List.cons_append, List.length_cons, scanTopLevel, ih]
      simp

/-- The characters of a pair start nothing. -/
theorem ordinary_of_isPair {c d : Char} (h : isPair c (some d) = true) (rest : List Char) :
    Ordinary c (d :: rest) ∧ Ordinary d rest := by
  have hchars : (c = '|' ∧ d = '|') ∨ (c = '&' ∧ d = '&') ∨ (c = '*' ∧ d = '*') ∨
      (c = '-' ∧ d = '>') := by
    simp only [isPair, Bool.or_eq_true, Bool.and_eq_true, beq_iff_eq, Option.some.injEq] at h
    grind
  rcases hchars with ⟨hc, hd⟩ | ⟨hc, hd⟩ | ⟨hc, hd⟩ | ⟨hc, hd⟩ <;> subst hc <;> subst hd <;>
    exact ⟨⟨rfl, rfl, rfl, fun _ => skipPhpComment_none (by decide) (by decide) _⟩,
      ⟨rfl, rfl, rfl, fun _ => skipPhpComment_none (by decide) (by decide) _⟩⟩

namespace Passes

variable {before closers closers' piece : List Char}

/-- Under brackets that stay open, operators are passed as well. -/
theorem lift (h : Passes before closers piece closers') {outer : List Char} (hin : outer ≠ []) :
    Passes before (closers ++ outer) piece (closers' ++ outer) := by
  induction h with
  | done => exact done
  | comment c skipped hskip h ih => exact comment c skipped hskip ih
  | quoted c skipped hquote hskip h ih => exact quoted c skipped hquote hskip ih
  | opening c hopen h ih => exact opening c hopen ih
  | closing c hclose h ih => exact closing c hclose ih
  | inner c hne hc h ih => exact inner c (by simp [hne]) hc ih
  | @pair before closers' rest c d hpair h ih =>
      have ⟨hc, hd⟩ := ordinary_of_isPair hpair rest
      exact inner c (by simpa using hin) hc (inner d (by simpa using hin) hd ih)
  | other c hc hvisit h ih => exact inner c (by simpa using hin) hc ih

/-- What is in front of a stretch does not matter to it. -/
theorem front (h : Passes before closers piece closers') (more : List Char) :
    Passes (before ++ more) closers piece closers' := by
  induction h with
  | done => exact done
  | comment c skipped hskip h ih => exact comment c skipped hskip (by simpa using ih)
  | quoted c skipped hquote hskip h ih => exact quoted c skipped hquote hskip (by simpa using ih)
  | opening c hopen h ih => exact opening c hopen ih
  | closing c hclose h ih => exact closing c hclose ih
  | inner c hin hc h ih => exact inner c hin hc ih
  | pair c d hpair h ih => exact pair c d hpair ih
  | other c hc hvisit h ih =>
      refine other c hc ?_ ih
      intro front after best
      rw [List.append_assoc]
      exact hvisit (more ++ front) after best

/-- The scan for an operator comes out of the stretch with the split it went in with. -/
theorem scanTopLevel_eq (h : Passes before closers piece closers') (front after : List Char)
    (depth : Nat) (best : Best) :
    scanTopLevel (before ++ front) (piece ++ after) 0 (closers.length + depth) best =
      scanTopLevel (piece.reverse ++ before ++ front) after 0 (closers'.length + depth) best := by
  induction h with
  | done => simp
  | @comment before closers closers' rest c skipped hskip h ih =>
      have hcomment := hskip after
      rw [List.cons_append] at hcomment ⊢
      rw [scanTopLevel, hcomment]
      simp only [Nat.add_sub_cancel, List.append_assoc]
      rw [scanTopLevel_skip]
      simpa using ih
  | @quoted before closers closers' rest c skipped hquote hskip h ih =>
      have hnone : skipPhpComment (c :: (skipped ++ rest ++ after)) = none := by
        apply skipPhpComment_none <;> rintro rfl <;> exact absurd hquote (by decide)
      rw [List.cons_append, scanTopLevel, hnone]
      simp only [hquote, if_true, hskip after]
      rw [List.append_assoc, scanTopLevel_skip]
      simpa using ih
  | @opening before closers closers' rest c hopen h ih =>
      have hquote : isQuote c = false := by
        rcases opening_cases hopen with rfl | rfl | rfl <;> rfl
      have hnone : skipPhpComment (c :: (rest ++ after)) = none := by
        apply skipPhpComment_none <;> rintro rfl <;> exact absurd hopen (by decide)
      rw [List.cons_append, scanTopLevel, hnone]
      simp only [hquote, hopen, Bool.false_eq_true, if_false, if_true]
      simpa [Nat.add_right_comm] using ih
  | @closing before closers closers' rest c hclose h ih =>
      have ⟨hquote, hopen⟩ : isQuote c = false ∧ isOpening c = false := by
        rcases closing_cases hclose with rfl | rfl | rfl <;> exact ⟨rfl, rfl⟩
      have hnone : skipPhpComment (c :: (rest ++ after)) = none := by
        apply skipPhpComment_none <;> rintro rfl <;> exact absurd hclose (by decide)
      have hdepth : (c :: closers).length + depth - 1 = closers.length + depth := by
        rw [List.length_cons]
        omega
      rw [List.cons_append, scanTopLevel, hnone]
      simp only [hquote, hopen, hclose, Bool.false_eq_true, if_false, if_true, hdepth]
      simpa using ih
  | @inner before closers closers' rest c hin hc h ih =>
      have hdepth : 0 < closers.length + depth :=
        Nat.lt_of_lt_of_le (List.length_pos_of_ne_nil hin) (Nat.le_add_right _ _)
      rw [scanTopLevel_ordinary hc hdepth]
      simpa using ih
  | @pair before closers' rest c d hpair h ih =>
      have ⟨hc, hd⟩ := ordinary_of_isPair hpair rest
      rw [List.length_nil, Nat.zero_add] at ih ⊢
      rcases Nat.eq_zero_or_pos depth with hzero | hpos
      · rw [hzero] at ih ⊢
        have hvisit : visit (before ++ front) c (d :: rest ++ after).head? best = (2, best) := by
          rw [visit]
          exact if_pos hpair
        rw [scanTopLevel_visit hc hvisit]
        simpa [scanTopLevel] using ih
      · rw [scanTopLevel_ordinary hc hpos, ← List.cons_append, scanTopLevel_ordinary hd hpos]
        simpa using ih
  | @other before closers' rest c hc hvisit h ih =>
      rw [List.length_nil, Nat.zero_add] at ih ⊢
      rcases Nat.eq_zero_or_pos depth with hzero | hpos
      · rw [hzero] at ih ⊢
        rw [scanTopLevel_visit hc (hvisit front after best)]
        simpa using ih
      · rw [scanTopLevel_ordinary hc hpos]
        simpa using ih

/-- The scan for a parenthesis that is still open passes the stretch. -/
theorem findUnmatchedClose_eq (h : Passes before closers piece closers') (after : List Char)
    (pos depth : Nat) :
    findUnmatchedClose pos (piece ++ after) 0 (closers.count ')' + depth) =
      findUnmatchedClose (pos + piece.length) after 0 (closers'.count ')' + depth) := by
  induction h generalizing pos with
  | done => simp
  | comment c skipped hskip h ih =>
      rw [findUnmatchedClose_comment (hskip after), ih]
      congr 1
      simp only [List.length_cons, List.length_append]
      omega
  | quoted c skipped hquote hskip h ih =>
      rw [findUnmatchedClose_quoted hquote (hskip after), ih]
      congr 1
      simp only [List.length_cons, List.length_append]
      omega
  | opening c hopen h ih =>
      rw [findUnmatchedClose_opening hopen, ih]
      simp [Nat.add_comm, Nat.add_left_comm]
  | closing c hclose h ih =>
      rw [findUnmatchedClose_closing hclose, ih]
      simp [Nat.add_comm, Nat.add_left_comm]
  | inner c hin hc h ih =>
      rw [findUnmatchedClose_ordinary hc, ih]
      simp [Nat.add_comm, Nat.add_left_comm]
  | @pair before closers' rest c d hpair h ih =>
      have ⟨hc, hd⟩ := ordinary_of_isPair hpair rest
      rw [findUnmatchedClose_ordinary hc, findUnmatchedClose_ordinary hd, ih]
      simp [Nat.add_comm, Nat.add_left_comm]
  | other c hc hvisit h ih =>
      rw [findUnmatchedClose_ordinary hc, ih]
      simp [Nat.add_comm, Nat.add_left_comm]

/-- Where the outermost closer that is due is a parenthesis, it is found in the stretch. -/
theorem findUnmatchedClose_in (h : Passes before closers piece closers') {inside : List Char}
    (hin : closers = inside ++ [')']) (hout : closers' = []) (after : List Char) (pos : Nat) :
    ∃ k, k < pos + piece.length ∧
      findUnmatchedClose pos (piece ++ after) 0 (inside.count ')') = some k := by
  induction h generalizing pos inside with
  | done => exact absurd (hin.symm.trans hout) (by simp)
  | comment c skipped hskip h ih =>
      have ⟨k, hk, hfound⟩ := ih hin hout (pos + 1 + skipped.length)
      exact ⟨k, by simp at hk ⊢; omega, by rw [findUnmatchedClose_comment (hskip after), hfound]⟩
  | quoted c skipped hquote hskip h ih =>
      have ⟨k, hk, hfound⟩ := ih hin hout (pos + 1 + skipped.length)
      exact ⟨k, by simp at hk ⊢; omega,
        by rw [findUnmatchedClose_quoted hquote (hskip after), hfound]⟩
  | @opening before closers closers' rest c hopen h ih =>
      have ⟨k, hk, hfound⟩ := @ih (closer c :: inside) (by rw [hin]; rfl) hout (pos + 1)
      refine ⟨k, by simp at hk ⊢; omega, ?_⟩
      exact (@findUnmatchedClose_opening c hopen inside rest after pos 0).trans hfound
  | @closing before closers closers' rest c hclose h ih =>
      cases inside with
      | nil =>
          have hc : c = ')' := (List.cons.inj hin).1
          refine ⟨pos, by simp, ?_⟩
          rw [hc]
          rfl
      | cons d inside =>
          have ⟨hc, hrest⟩ := List.cons.inj hin
          have ⟨k, hk, hfound⟩ := ih hrest hout (pos + 1)
          refine ⟨k, by simp at hk ⊢; omega, ?_⟩
          rw [← hc]
          exact (@findUnmatchedClose_closing c hclose inside rest after pos 0).trans hfound
  | inner c hne hc h ih =>
      have ⟨k, hk, hfound⟩ := ih hin hout (pos + 1)
      exact ⟨k, by simp at hk ⊢; omega, by rw [findUnmatchedClose_ordinary hc, hfound]⟩
  | pair c d hpair h ih => exact absurd hin (by simp)
  | other c hc hvisit h ih => exact absurd hin (by simp)

end Passes

/-! ## Trimming -/

/-- A text with no whitespace at its ends. -/
structure Edged (text : List Char) : Prop where
  ne_nil : text ≠ []
  head : ∀ c, text.head? = some c → isWhitespace c = false
  last : ∀ c, text.getLast? = some c → isWhitespace c = false

theorem trim_eq {gap text gap' : List Char} (hgap : ∀ c ∈ gap, isWhitespace c = true)
    (hgap' : ∀ c ∈ gap', isWhitespace c = true) (h : Edged text) :
    trim (gap ++ text ++ gap') = text := by
  have hstay : ∀ chars : List Char, (∀ c, chars.head? = some c → isWhitespace c = false) →
      chars.dropWhile isWhitespace = chars := by
    intro chars hhead
    cases chars with
    | nil => rfl
    | cons c chars => exact List.dropWhile_cons_of_neg (by rw [hhead c rfl]; simp)
  have hhead : (text ++ gap').dropWhile isWhitespace = text ++ gap' := by
    apply hstay
    intro c hc
    rw [List.head?_append_of_ne_nil _ h.ne_nil] at hc
    exact h.head c hc
  rw [trim, List.append_assoc, List.dropWhile_append_of_pos hgap, hhead, List.reverse_append,
    List.dropWhile_append_of_pos (by simpa using hgap'), hstay, List.reverse_reverse]
  intro c hc
  rw [List.head?_reverse] at hc
  exact h.last c hc

theorem edged_of_trim {text : List Char} (hne : text ≠ []) (h : trim text = text) :
    Edged text := by
  have hdrop : text.dropWhile isWhitespace = text := by
    have hle := (List.dropWhile_sublist isWhitespace (l := text)).length_le
    have hlen := congrArg List.length h
    rw [trim, List.length_reverse] at hlen
    have hle' := (List.dropWhile_sublist isWhitespace
      (l := (text.dropWhile isWhitespace).reverse)).length_le
    rw [List.length_reverse] at hle'
    exact (List.dropWhile_sublist isWhitespace).eq_of_length_le (by omega)
  have hrev : text.reverse.dropWhile isWhitespace = text.reverse := by
    rw [trim, hdrop] at h
    rw [← List.reverse_eq_iff, h]
  refine ⟨hne, ?_, ?_⟩
  · intro c hc
    by_contra hblank
    have ⟨rest, hrest⟩ := List.head?_eq_some_iff.mp hc
    rw [hrest, List.dropWhile_cons_of_pos (by simpa using hblank)] at hdrop
    have hle := (List.dropWhile_sublist isWhitespace (l := rest)).length_le
    rw [hdrop, List.length_cons] at hle
    omega
  · intro c hc
    by_contra hblank
    rw [← List.head?_reverse] at hc
    have ⟨rest, hrest⟩ := List.head?_eq_some_iff.mp hc
    rw [hrest, List.dropWhile_cons_of_pos (by simpa using hblank)] at hrev
    have hle := (List.dropWhile_sublist isWhitespace (l := rest)).length_le
    rw [hrev, List.length_cons] at hle
    omega

/-! ## Closed text passes -/

theorem takeWhile_closed {rest : List Char}
    (h : ((rest ++ ['x']).takeWhile (· ≠ '\n')).length ≤ rest.length) (after : List Char) :
    (rest ++ after).takeWhile (· ≠ '\n') = (rest ++ ['x']).takeWhile (· ≠ '\n') := by
  induction rest with
  | nil => simp at h
  | cons c rest ih =>
      by_cases hc : c = '\n'
      · simp [hc]
      · simp only [List.cons_append, List.takeWhile_cons, ne_eq, hc, not_false_eq_true,
          decide_true, if_true, List.length_cons, Nat.add_le_add_iff_right] at h ⊢
        rw [ih h]

theorem blockCommentLen_closed {rest : List Char}
    (h : blockCommentLen (rest ++ ['x']) ≤ rest.length) (after : List Char) :
    blockCommentLen (rest ++ after) = blockCommentLen (rest ++ ['x']) := by
  induction rest with
  | nil => simp [blockCommentLen] at h
  | cons c rest ih =>
      cases rest with
      | nil =>
          exfalso
          have hone : blockCommentLen ([c] ++ ['x']) = 2 := by
            simp [blockCommentLen]
          rw [hone] at h
          simp at h
      | cons d rest =>
          by_cases hend : c = '*' ∧ d = '/'
          · rw [hend.1, hend.2]
            rfl
          · have hstep : ∀ more, blockCommentLen (c :: d :: (rest ++ more)) =
                1 + blockCommentLen (d :: (rest ++ more)) := by
              intro more
              rw [blockCommentLen]
              intro _ heq
              grind
            simp only [List.cons_append, hstep, List.length_cons] at h ih ⊢
            rw [ih (by omega)]

theorem skipPhpComment_two (c d : Char) (rest : List Char) :
    skipPhpComment (c :: d :: rest) =
      if c = '#' then
        if d = '[' then none else some (1 + ((d :: rest).takeWhile (· ≠ '\n')).length)
      else if c = '/' then
        if d = '/' then some (2 + (rest.takeWhile (· ≠ '\n')).length)
        else if d = '*' then some (2 + blockCommentLen rest)
        else none
      else none := by
  by_cases hhash : c = '#'
  · subst hhash
    by_cases hd : d = '['
    · subst hd
      rfl
    · rw [if_pos rfl, if_neg hd, skipPhpComment]
      exact fun _ heq => hd (List.cons.inj heq).1
  · by_cases hslash : c = '/'
    · subst hslash
      rw [if_neg hhash, if_pos rfl]
      by_cases hd : d = '/'
      · subst hd
        rfl
      · by_cases hstar : d = '*'
        · subst hstar
          rfl
        · rw [if_neg hd, if_neg hstar, skipPhpComment] <;> simp_all
    · rw [if_neg hhash, if_neg hslash]
      exact skipPhpComment_none hhash hslash _

theorem skipPhpComment_closed {text : List Char} {n : Nat}
    (h : skipPhpComment (text ++ ['x']) = some n) (hle : n ≤ text.length) (after : List Char) :
    skipPhpComment (text ++ after) = some n ∧ 0 < n := by
  match text with
  | [] => exact absurd h (by simp [skipPhpComment])
  | [c] =>
      exfalso
      rw [List.singleton_append, skipPhpComment_two] at h
      split at h
      · simp at h
        simp at hle
        omega
      · split at h <;> simp at h
  | c :: d :: rest =>
      simp only [List.cons_append, List.length_cons] at h hle ⊢
      rw [skipPhpComment_two] at h ⊢
      split at h
      · rename_i hhash
        rw [if_pos hhash]
        split at h
        · exact absurd h (by simp)
        · rename_i hd
          have hlen := Option.some.inj h
          rw [← List.cons_append] at hlen
          rw [if_neg hd, ← List.cons_append, takeWhile_closed (by simp at hlen ⊢; omega), hlen]
          exact ⟨rfl, by omega⟩
      · rename_i hhash
        rw [if_neg hhash]
        split at h
        · rename_i hslash
          rw [if_pos hslash]
          split at h
          · rename_i hd
            have hlen := Option.some.inj h
            rw [if_pos hd, takeWhile_closed (by omega), hlen]
            exact ⟨rfl, by omega⟩
          · rename_i hd
            rw [if_neg hd]
            split at h
            · rename_i hstar
              have hlen := Option.some.inj h
              rw [if_pos hstar, blockCommentLen_closed (by omega), hlen]
              exact ⟨rfl, by omega⟩
            · exact absurd h (by simp)
        · exact absurd h (by simp)

theorem skipPhpComment_none_append {c : Char} {rest : List Char}
    (h : skipPhpComment (c :: rest ++ ['x']) = none) (hne : rest ≠ [] ∨ c ≠ '/')
    (after : List Char) : skipPhpComment (c :: rest ++ after) = none := by
  cases rest with
  | nil =>
      have hhash : c ≠ '#' := by
        rintro rfl
        exact absurd h (by decide)
      exact skipPhpComment_none hhash (hne.resolve_left (by simp)) after
  | cons d rest =>
      simp only [List.cons_append] at h ⊢
      rw [skipPhpComment_two] at h ⊢
      by_cases hhash : c = '#'
      · rw [if_pos hhash] at h ⊢
        by_cases hd : d = '['
        · rw [if_pos hd]
        · rw [if_neg hd] at h
          exact absurd h (by simp)
      · rw [if_neg hhash] at h ⊢
        by_cases hslash : c = '/'
        · rw [if_pos hslash] at h ⊢
          by_cases hd : d = '/'
          · rw [if_pos hd] at h
            exact absurd h (by simp)
          · rw [if_neg hd] at h ⊢
            by_cases hstar : d = '*'
            · rw [if_pos hstar] at h
              exact absurd h (by simp)
            · rw [if_neg hstar]
        · rw [if_neg hslash]

theorem skipStringForward_closed {quote : Char} : ∀ {rest : List Char},
    skipStringForward quote (rest ++ ['x']) ≤ rest.length → ∀ after,
      skipStringForward quote (rest ++ after) = skipStringForward quote (rest ++ ['x'])
  | [], h, _ => absurd h (by simp [skipStringForward])
  | [c], h, after => by
      have hback : c ≠ '\\' := by
        rintro rfl
        simp [skipStringForward] at h
      have hquote : c = quote := by
        by_contra hne
        simp [skipStringForward, hback, hne] at h
      rw [hquote] at hback ⊢
      cases after with
      | nil => simp [skipStringForward, hback]
      | cons d after => simp [skipStringForward, hback]
  | c :: d :: rest, h, after => by
      simp only [List.cons_append, skipStringForward, List.length_cons] at h ⊢
      by_cases hback : c = '\\'
      · rw [if_pos hback] at h
        rw [if_pos hback, if_pos hback, skipStringForward_closed (by omega) after]
      · rw [if_neg hback] at h
        rw [if_neg hback, if_neg hback]
        by_cases hquote : c = quote
        · rw [if_pos hquote, if_pos hquote]
        · rw [if_neg hquote] at h
          have hrest := @skipStringForward_closed quote (d :: rest)
            (by simp only [List.cons_append, List.length_cons]; omega) after
          rw [if_neg hquote, if_neg hquote]
          rw [List.cons_append, List.cons_append] at hrest
          rw [hrest]
  termination_by rest => rest.length

theorem closesOn_skip {before rest closers : List Char} {skip : Nat}
    (h : closesOn before rest skip closers = true) :
    ∃ skipped after, rest = skipped ++ after ∧ skipped.length = skip ∧
      closesOn (skipped.reverse ++ before) after 0 closers = true := by
  induction rest generalizing before skip with
  | nil =>
      rw [closesOn, Bool.and_eq_true, beq_iff_eq] at h
      exact ⟨[], [], rfl, h.1.symm, by rw [closesOn]; simpa using h.2⟩
  | cons c rest ih =>
      cases skip with
      | zero => exact ⟨[], c :: rest, rfl, rfl, h⟩
      | succ skip =>
          rw [closesOn] at h
          have ⟨skipped, after, hrest, hlen, hcloses⟩ := ih h
          refine ⟨c :: skipped, after, by rw [hrest]; rfl, by rw [List.length_cons, hlen], ?_⟩
          rw [List.reverse_cons, List.append_assoc]
          exact hcloses

/-- Code that ends an operand does so whatever is in front of it. -/
theorem followsOperand_append {before : List Char} (h : ∃ c ∈ before, isAsciiBlank c = false)
    (front : List Char) : followsOperand (before ++ front) = followsOperand before := by
  have hfind : (before.find? fun c => !isAsciiBlank c).isSome := by
    rw [List.find?_isSome]
    have ⟨c, hmem, hblank⟩ := h
    exact ⟨c, hmem, by rw [hblank]; rfl⟩
  rw [followsOperand, followsOperand, List.find?_append, Option.or_of_isSome hfind]

/-- Code in front that a sign would follow, or a text that starts with none. -/
def Fronted (before text : List Char) : Prop :=
  (∃ c ∈ before, isAsciiBlank c = false) ∨
    ∀ c, text.head? = some c → isAsciiBlank c = false ∧ c ≠ '+' ∧ c ≠ '-'

theorem Fronted.behind {before rest passed : List Char} {c : Char}
    (h : Fronted before (c :: rest)) (hc : c ∈ passed) (more : List Char) :
    Fronted (passed ++ before) more := by
  rcases h with ⟨d, hmem, hblank⟩ | hfirst
  · exact .inl ⟨d, List.mem_append_right _ hmem, hblank⟩
  · exact .inl ⟨c, List.mem_append_left _ hc, (hfirst c rfl).1⟩

theorem intOpAt_append {before rest : List Char} {c : Char} (hfront : Fronted before (c :: rest))
    (front : List Char) (next : Option Char) :
    intOpAt (before ++ front) c next = intOpAt before c next := by
  rcases hfront with hblank | hfirst
  · have hfollows := followsOperand_append hblank front
    unfold intOpAt
    split <;> simp only [hfollows]
  · have ⟨_, hplus, hminus⟩ := hfirst c rfl
    unfold intOpAt
    split <;> first | rfl | exact absurd rfl hplus | exact absurd rfl hminus

theorem intOpAt_next {c : Char} (hless : c ≠ '<') (hgreater : c ≠ '>') (before : List Char)
    (next : Option Char) : intOpAt before c next = intOpAt before c none := by
  unfold intOpAt
  split <;> first | rfl | exact absurd rfl hless | exact absurd rfl hgreater

/-- What is visited without an operator in the text is so with more text around it. -/
theorem visit_append {before rest : List Char} {c : Char} (hfront : Fronted before (c :: rest))
    (hpair : isPair c rest.head? = false) (hnone : intOpAt before c rest.head? = none)
    (hlast : rest = [] → c ≠ '-' ∧ c ≠ '<' ∧ c ≠ '>') (front after : List Char) (best : Best) :
    visit (before ++ front) c (rest ++ after).head? best = (1, best) := by
  have hboth : isPair c (rest ++ after).head? = false ∧
      intOpAt before c (rest ++ after).head? = none := by
    cases rest with
    | cons d rest => exact ⟨hpair, hnone⟩
    | nil =>
        have ⟨hdash, hless, hgreater⟩ := hlast rfl
        rw [List.head?_nil] at hnone
        refine ⟨?_, by rw [intOpAt_next hless hgreater, hnone]⟩
        have hops : c ≠ '|' ∧ c ≠ '&' ∧ c ≠ '*' := by
          refine ⟨?_, ?_, ?_⟩ <;> rintro rfl <;> exact absurd hnone (by simp [intOpAt])
        simp [isPair, hops.1, hops.2.1, hops.2.2, hdash]
  rw [visit, hboth.1, intOpAt_append hfront, hboth.2]
  rfl

theorem passes_of_closesOn (n : Nat) {before text closers : List Char} (hlen : text.length ≤ n)
    (h : closesOn before text 0 closers = true) (hfront : Fronted before text) :
    Passes before closers text [] := by
  induction n generalizing before text closers with
  | zero =>
      have hnil : text = [] := List.length_eq_zero_iff.mp (Nat.le_zero.mp hlen)
      rw [hnil, closesOn, Bool.and_eq_true, List.isEmpty_iff] at h
      rw [hnil, h.2]
      exact .done
  | succ n ih =>
      cases text with
      | nil =>
          rw [closesOn, Bool.and_eq_true, List.isEmpty_iff] at h
          rw [h.2]
          exact .done
      | cons c rest =>
          have hrest : rest.length ≤ n := Nat.le_of_succ_le_succ hlen
          rw [closesOn] at h
          split at h
          · -- a comment
            rename_i k hcomment
            have ⟨skipped, after, hsplit, hskip, hcloses⟩ := closesOn_skip h
            have hk : k ≤ (c :: rest).length := by
              rw [hsplit, List.length_cons, List.length_append]
              omega
            have hclosed := skipPhpComment_closed hcomment hk
            have hpos := (hclosed []).2
            rw [hsplit] at hclosed hrest ⊢
            refine .comment c skipped ?_ (ih ?_ (by simpa using hcloses) ?_)
            · intro more
              rw [(hclosed more).1]
              congr 1
              omega
            · rw [List.length_append] at hrest
              omega
            · rw [hsplit] at hfront
              exact hfront.behind (by simp) after
          · rename_i hcomment
            split at h
            · -- quoted text
              rename_i hquote
              have ⟨skipped, after, hsplit, hskip, hcloses⟩ := closesOn_skip h
              have hclosed := @skipStringForward_closed c rest (by
                rw [hsplit] at hskip ⊢
                rw [List.length_append]
                omega)
              rw [hsplit] at hclosed hrest hskip hfront ⊢
              refine .quoted c skipped hquote ?_ (ih ?_ (by simpa using hcloses) ?_)
              · intro more
                rw [hclosed more, hskip]
              · rw [List.length_append] at hrest
                omega
              · exact hfront.behind (by simp) after
            · rename_i hquote
              split at h
              · rename_i hopen
                exact .opening c hopen (ih hrest h (hfront.behind (List.mem_singleton_self c) rest))
              · rename_i hopen
                split at h
                · rename_i hclose
                  rw [Bool.and_eq_true, beq_iff_eq] at h
                  cases closers with
                  | nil => exact absurd h.1 (by simp)
                  | cons d closers =>
                      rw [List.head?_cons, Option.some.injEq] at h
                      rw [h.1]
                      exact .closing c hclose
                        (ih hrest h.2 (hfront.behind (List.mem_singleton_self c) rest))
                · rename_i hclose
                  have hplain : rest ≠ [] ∨ c ≠ '/' → Ordinary c rest := by
                    intro hne
                    exact ⟨by simpa using hquote, by simpa using hopen, by simpa using hclose,
                      skipPhpComment_none_append hcomment hne⟩
                  split at h
                  · rename_i hin
                    have hne : rest ≠ [] := by
                      rintro rfl
                      rw [closesOn, Bool.and_eq_true, List.isEmpty_iff] at h
                      exact hin h.2
                    exact .inner c hin (hplain (.inl hne))
                      (ih hrest h (hfront.behind (List.mem_singleton_self c) rest))
                  · rename_i hin
                    rw [show closers = [] from by simpa using hin]
                    split at h
                    · rename_i hpair
                      cases rest with
                      | nil => simp [isPair] at hpair
                      | cons d rest =>
                          have hbehind : Fronted ([d, c] ++ before) rest :=
                            hfront.behind (by simp) rest
                          exact .pair c d hpair (ih (Nat.le_of_succ_le hrest) h hbehind)
                    · rename_i hpair
                      simp only [Bool.and_eq_true, Option.isNone_iff_eq_none] at h
                      have ⟨⟨hnone, hlast⟩, hcloses⟩ := h
                      have hslash : c ≠ '/' := by
                        rintro rfl
                        exact absurd hnone (by simp [intOpAt])
                      refine .other c (hplain (.inr hslash)) ?_
                        (ih hrest hcloses (hfront.behind (List.mem_singleton_self c) rest))
                      apply visit_append hfront (by simpa using hpair) hnone
                      intro hnil
                      rw [hnil] at hlast
                      simpa using hlast

end PhpantomLsp.Folding
