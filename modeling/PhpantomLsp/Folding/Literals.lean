import PhpantomLsp.Folding.Expressions
import PhpantomLsp.Folding.Operands

/-!
# Integer literals are read as PHP reads them

The text of a literal is its marker and its digits with underscores between the groups.
It is read back to its value where that fits in 64 bits, in any of PHP's bases.
-/

namespace PhpantomLsp.Folding

open PhpantomLsp.Text

namespace IntLiteral

variable (lit : IntLiteral)

/-- The digits of a literal without its underscores. -/
def allDigits : List Char := lit.groups.flatten

theorem digitValue_bound {c : Char} {form : IntForm} (h : form.isDigit c = true) :
    ∃ d, digitValue c = some d ∧ d < form.base := by
  rw [IntForm.isDigit, Option.any_eq_true] at h
  have ⟨d, hd, hlt⟩ := h
  exact ⟨d, hd, by simpa using hlt⟩

theorem digitsValue_isSome {form : IntForm} {digits : List Char}
    (h : ∀ c ∈ digits, form.isDigit c = true) (acc : Nat) :
    ∃ n, digitsValue form.base acc digits = some n := by
  induction digits generalizing acc with
  | nil => exact ⟨acc, rfl⟩
  | cons c digits ih =>
      have ⟨d, hd, hlt⟩ := digitValue_bound (h c List.mem_cons_self)
      rw [digitsValue, hd]
      simp only [hlt, if_true]
      exact ih (fun c hc => h c (List.mem_cons_of_mem _ hc)) _

theorem digitsValue_eq : digitsValue lit.form.base 0 lit.allDigits = some lit.value := by
  have ⟨n, hn⟩ := digitsValue_isSome lit.digits 0
  rw [value, allDigits, hn]
  rfl

theorem isDigit_ne_underscore {form : IntForm} : form.isDigit '_' = false := by
  cases form <;> rfl

theorem filter_intercalate {groups : List (List Char)}
    (h : ∀ c ∈ groups.flatten, c ≠ '_') :
    (['_'].intercalate groups).filter (· ≠ '_') = groups.flatten := by
  induction groups with
  | nil => rfl
  | cons group groups ih =>
      have hgroup : group.filter (· ≠ '_') = group := by
        rw [List.filter_eq_self]
        intro c hc
        simpa using h c (by simp [hc])
      have hrest := ih fun c hc => h c (by simp at hc ⊢; exact .inr hc)
      cases groups with
      | nil => simpa using hgroup
      | cons next groups =>
          rw [List.intercalate_cons_cons, List.filter_append, List.filter_append, hrest, hgroup]
          simp

theorem mem_intercalate {groups : List (List Char)} {c : Char}
    (h : c ∈ ['_'].intercalate groups) : c = '_' ∨ c ∈ groups.flatten := by
  induction groups with
  | nil => exact absurd h (by simp)
  | cons group groups ih =>
      cases groups with
      | nil => exact .inr (by simpa using h)
      | cons next groups =>
          rw [List.intercalate_cons_cons, List.mem_append, List.mem_append,
            List.mem_singleton] at h
          rw [List.flatten_cons, List.mem_append]
          rcases h with (hgroup | hscore) | hrest
          · exact .inr (.inl hgroup)
          · exact .inl hscore
          · exact (ih hrest).imp id .inr

theorem isAsciiAlphanumeric_of_isDigit {form : IntForm} {c : Char} (h : form.isDigit c = true) :
    isAsciiAlphanumeric c = true := by
  have ⟨d, hd, _⟩ := digitValue_bound h
  unfold digitValue at hd
  simp only [isAsciiAlphanumeric, isAsciiDigit, isAsciiAlphabetic, Bool.or_eq_true,
    Bool.and_eq_true, decide_eq_true_eq]
  split at hd
  · exact .inl ‹_›
  · split at hd
    · exact .inr (.inl ‹_›)
    · split at hd
      · exact .inr (.inr ‹_›)
      · exact absurd hd (by simp)

/-- Below the eleventh digit there are no letters. -/
theorem isAsciiDigit_of_isDigit {form : IntForm} {c : Char} (hbase : form.base ≤ 10)
    (h : form.isDigit c = true) : isAsciiDigit c = true := by
  have ⟨d, hd, hlt⟩ := digitValue_bound h
  unfold digitValue at hd
  simp only [isAsciiDigit, Bool.and_eq_true, decide_eq_true_eq]
  split at hd
  · assumption
  · split at hd
    · rw [Option.some.injEq] at hd
      omega
    · split at hd
      · rw [Option.some.injEq] at hd
        omega
      · exact absurd hd (by simp)

theorem mem_marker {form : IntForm} {c : Char} (h : c ∈ form.marker) :
    isAsciiAlphanumeric c = true := by
  cases form with
  | decimal => exact absurd h (by simp [IntForm.marker])
  | octal => exact absurd h (by simp [IntForm.marker])
  | hexadecimal upper => cases upper <;> simp [IntForm.marker] at h <;> rcases h with rfl | rfl <;> rfl
  | explicitOctal upper => cases upper <;> simp [IntForm.marker] at h <;> rcases h with rfl | rfl <;> rfl
  | binary upper => cases upper <;> simp [IntForm.marker] at h <;> rcases h with rfl | rfl <;> rfl

/-- The characters of a literal. -/
theorem mem_text {c : Char} (h : c ∈ lit.text) : isAsciiAlphanumeric c = true ∨ c = '_' := by
  rw [text, List.mem_append] at h
  rcases h with hmarker | hgroups
  · exact .inl (mem_marker hmarker)
  · rcases mem_intercalate hgroups with hscore | hdigit
    · exact .inr hscore
    · exact .inl (isAsciiAlphanumeric_of_isDigit (lit.digits c hdigit))

/-- The digits start the text behind the marker. -/
theorem intercalate_head : ∃ c rest, ['_'].intercalate lit.groups = c :: rest ∧
    lit.allDigits.head? = some c ∧ lit.form.isDigit c = true := by
  have hdigits := lit.digits
  rw [allDigits]
  cases hgroups : lit.groups with
  | nil => exact absurd hgroups lit.groups_ne_nil
  | cons group groups =>
      cases hgroup : group with
      | nil => exact absurd hgroup (lit.group_ne_nil group (by simp [hgroups]))
      | cons c rest =>
          have hc : lit.form.isDigit c = true := hdigits c (by simp [hgroups, hgroup])
          cases groups with
          | nil => exact ⟨c, rest, by simp, by simp, hc⟩
          | cons next groups => exact ⟨c, _, by rw [List.intercalate_cons_cons]; rfl, by simp, hc⟩

theorem intercalate_last {groups : List (List Char)} (hne : groups ≠ [])
    (hgroup : ∀ group ∈ groups, group ≠ []) :
    ∃ front c, ['_'].intercalate groups = front ++ [c] ∧ c ∈ groups.flatten := by
  induction groups with
  | nil => exact absurd rfl hne
  | cons group groups ih =>
      cases groups with
      | nil =>
          have hlast := List.dropLast_append_getLast (hgroup group (by simp))
          exact ⟨group.dropLast, _, by simpa using hlast.symm, by simp⟩
      | cons next groups =>
          have ⟨front, c, hlast, hmem⟩ := ih (by simp) fun g hg => hgroup g (List.mem_cons_of_mem _ hg)
          refine ⟨group ++ ['_'] ++ front, c, ?_, by simp at hmem ⊢; exact .inr hmem⟩
          rw [List.intercalate_cons_cons, hlast]
          simp

/-- A literal starts with a digit and ends with a digit or a letter. -/
theorem head_text : ∃ c rest, lit.text = c :: rest ∧ isAsciiDigit c = true := by
  have ⟨c, rest, hhead, _, hdigit⟩ := lit.intercalate_head
  rw [text]
  cases hform : lit.form with
  | decimal => exact ⟨c, rest, hhead, isAsciiDigit_of_isDigit (by rw [hform]; decide) hdigit⟩
  | octal => exact ⟨c, rest, hhead, isAsciiDigit_of_isDigit (by rw [hform]; decide) hdigit⟩
  | hexadecimal upper => exact ⟨'0', _, rfl, rfl⟩
  | explicitOctal upper => exact ⟨'0', _, rfl, rfl⟩
  | binary upper => exact ⟨'0', _, rfl, rfl⟩

theorem last_text : ∃ front c, lit.text = front ++ [c] ∧ isAsciiAlphanumeric c = true := by
  have ⟨front, c, hlast, hmem⟩ := intercalate_last lit.groups_ne_nil lit.group_ne_nil
  refine ⟨lit.form.marker ++ front, c, ?_, isAsciiAlphanumeric_of_isDigit (lit.digits c hmem)⟩
  rw [text, hlast, List.append_assoc]

theorem isWhitespace_of_isAsciiAlphanumeric {c : Char} (h : isAsciiAlphanumeric c = true) :
    isWhitespace c = false := by
  simp only [isAsciiAlphanumeric, isAsciiDigit, isAsciiAlphabetic, Bool.or_eq_true,
    Bool.and_eq_true, decide_eq_true_eq, Char.le_def, UInt32.le_iff_toNat_le] at h
  have hn : (48 ≤ c.toNat ∧ c.toNat ≤ 57) ∨ (97 ≤ c.toNat ∧ c.toNat ≤ 122) ∨
      (65 ≤ c.toNat ∧ c.toNat ≤ 90) := h
  simp only [isWhitespace, Bool.or_eq_false_iff, Bool.and_eq_false_iff, decide_eq_false_iff_not]
  omega

theorem edged_text : Edged lit.text := by
  have ⟨c, rest, hhead, hdigit⟩ := lit.head_text
  have ⟨front, d, hlast, halpha⟩ := lit.last_text
  refine ⟨by rw [hhead]; simp, ?_, ?_⟩
  · intro c' hc
    rw [hhead, List.head?_cons, Option.some.injEq] at hc
    rw [← hc]
    exact isWhitespace_of_isAsciiAlphanumeric (by rw [isAsciiAlphanumeric, hdigit]; rfl)
  · intro c' hc
    rw [hlast, List.getLast?_append_cons, List.getLast?_singleton, Option.some.injEq] at hc
    rw [← hc]
    exact isWhitespace_of_isAsciiAlphanumeric halpha

theorem filter_text : lit.text.filter (· ≠ '_') = lit.form.marker ++ lit.allDigits := by
  have hmarker : lit.form.marker.filter (· ≠ '_') = lit.form.marker := by
    rw [List.filter_eq_self]
    intro c hc
    have halpha := mem_marker hc
    have hne : c ≠ '_' := by
      rintro rfl
      exact absurd halpha (by decide)
    simpa using hne
  rw [text, List.filter_append, hmarker, filter_intercalate]
  · rfl
  · intro c hc
    rintro rfl
    exact absurd (lit.digits '_' hc) (by rw [isDigit_ne_underscore]; simp)

theorem splitRadix_of_ne_zero {c : Char} (h : c ≠ '0') (rest : List Char) :
    splitRadix (c :: rest) = (10, c :: rest) := by
  unfold splitRadix
  split <;> simp_all

theorem octal_bounds {e : Char} (h : IntForm.octal.isDigit e = true) : '0' ≤ e ∧ e ≤ '7' := by
  have ⟨d, hd, hlt⟩ := digitValue_bound h
  unfold digitValue at hd
  have hlt8 : d < 8 := hlt
  split at hd
  · rename_i hrange
    refine ⟨hrange.1, ?_⟩
    rw [Option.some.injEq] at hd
    show e.toNat ≤ 55
    omega
  · split at hd
    · rw [Option.some.injEq] at hd
      omega
    · split at hd
      · rw [Option.some.injEq] at hd
        omega
      · exact absurd hd (by simp)

theorem splitRadix_octal {d : Char} {rest : List Char}
    (h : ∀ e ∈ d :: rest, '0' ≤ e ∧ e ≤ '7') : splitRadix ('0' :: d :: rest) = (8, d :: rest) := by
  have hall : (d :: rest).all (fun e => '0' ≤ e && e ≤ '7') = true := by
    rw [List.all_eq_true]
    intro e he
    simpa using h e he
  have hd := h d List.mem_cons_self
  unfold splitRadix
  split <;> simp_all

theorem parseU64Radix_digits {radix n : Nat} {c : Char} {rest : List Char}
    (hc : isAsciiAlphanumeric c = true) (h : digitsValue radix 0 (c :: rest) = some n) :
    parseU64Radix radix (c :: rest) = if n ≤ u64Max then some n else none := by
  have hplus : c ≠ '+' := by
    rintro rfl
    exact absurd hc (by decide)
  rw [parseU64Radix, List.isEmpty_cons]
  · simp only [Bool.false_eq_true, if_false, h]
  · exact fun _ heq => hplus (List.cons.inj heq).1

/-- The digits in their base, and what is read of them: an octal literal without its
leading zero. -/
theorem splitRadix_text : ∃ digits, splitRadix (lit.form.marker ++ lit.allDigits) =
      (lit.form.base, digits) ∧ digitsValue lit.form.base 0 digits = some lit.value ∧
    ∃ c rest, digits = c :: rest ∧ isAsciiAlphanumeric c = true := by
  have hdigits := lit.digits
  have hvalue := lit.digitsValue_eq
  have hfirst := lit.first
  have ⟨c, _, _, hhead, hdigit⟩ := lit.intercalate_head
  have ⟨rest, hrest⟩ := List.head?_eq_some_iff.mp hhead
  have halpha := isAsciiAlphanumeric_of_isDigit hdigit
  rw [← allDigits, hrest] at hdigits hfirst
  rw [hrest] at hvalue ⊢
  cases hform : lit.form with
  | hexadecimal upper =>
      rw [hform] at hvalue
      exact ⟨_, by cases upper <;> rfl, hvalue, c, rest, rfl, halpha⟩
  | explicitOctal upper =>
      rw [hform] at hvalue
      exact ⟨_, by cases upper <;> rfl, hvalue, c, rest, rfl, halpha⟩
  | binary upper =>
      rw [hform] at hvalue
      exact ⟨_, by cases upper <;> rfl, hvalue, c, rest, rfl, halpha⟩
  | decimal =>
      rw [hform] at hvalue hfirst
      refine ⟨c :: rest, ?_, hvalue, c, rest, rfl, halpha⟩
      show splitRadix (c :: rest) = (10, c :: rest)
      by_cases hzero : c = '0'
      · have hone : rest = [] := by
          have hall := hfirst (by rw [hzero]; rfl)
          exact (List.cons.inj hall).2
        rw [hzero, hone]
        rfl
      · exact splitRadix_of_ne_zero hzero rest
  | octal =>
      rw [hform] at hvalue hdigits hfirst
      have hzero : c = '0' := by simpa using hfirst.1
      cases rest with
      | nil => exact absurd hfirst.2 (by simp)
      | cons d rest =>
          have hoct : ∀ e ∈ d :: rest, '0' ≤ e ∧ e ≤ '7' := by
            intro e he
            exact octal_bounds (hdigits e (List.mem_cons_of_mem _ he))
          refine ⟨d :: rest, ?_, ?_, d, rest, rfl,
            isAsciiAlphanumeric_of_isDigit (hdigits d (by simp))⟩
          · rw [hzero]
            exact splitRadix_octal hoct
          · rw [hzero] at hvalue
            exact hvalue

theorem parsePhpIntLiteral_text :
    parsePhpIntLiteral (String.ofList lit.text) = checkI64 lit.value := by
  have ⟨c, rest, hhead, hdigit⟩ := lit.head_text
  have ⟨digits, hradix, hvalue, d, more, hdigits, halpha⟩ := lit.splitRadix_text
  have htrim : (Text.trim (String.ofList lit.text)).toList = lit.text := by
    rw [Text.trim, String.toList_ofList, String.toList_ofList]
    have hboth := @trim_eq [] lit.text [] (by simp) (by simp) lit.edged_text
    rw [List.nil_append, List.append_nil] at hboth
    exact hboth
  have hsign : splitSign lit.text = (false, lit.text) := by
    rw [hhead]
    exact splitSign_of_isAsciiDigit hdigit
  rw [parsePhpIntLiteral, htrim, hsign]
  simp only [lit.filter_text, hradix, hdigits, halpha, if_true]
  rw [hdigits] at hvalue
  rw [parseU64Radix_digits halpha hvalue]
  split
  · rfl
  · rename_i hlarge
    rw [Option.bind_none, checkI64, if_neg]
    simp only [u64Max, i64Max] at hlarge ⊢
    omega

end IntLiteral

end PhpantomLsp.Folding
