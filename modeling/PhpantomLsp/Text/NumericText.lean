import PhpantomLsp.Text.Float64
import Mathlib.Data.List.DropRight

/-!
# Numeric texts

A decimal number as PHP and Rust both spell it, without the whitespace around
it: `readSpelling` takes it apart, and `parseF64_of_spelling` says that Rust
reads the number its parts denote.
-/

namespace PhpantomLsp.Text

/-! ## Whitespace at both ends -/

/-- A text without the characters of a kind at its ends. -/
def stripBoth (p : Char → Bool) (chars : List Char) : List Char := (chars.dropWhile p).rdropWhile p

theorem stripBoth_eq {p : Char → Bool} {before core after : List Char}
    (hbefore : ∀ c ∈ before, p c = true) (hcore : ∀ c ∈ core, p c = false)
    (hafter : ∀ c ∈ after, p c = true) : stripBoth p (before ++ core ++ after) = core := by
  have hdrop : ∀ xs ys : List Char, (∀ c ∈ xs, p c = true) → (∀ c ∈ ys, p c = false) →
      (xs ++ ys).dropWhile p = ys := by
    intro xs ys hxs hys
    rw [List.dropWhile_append_of_pos hxs]
    cases ys with
    | nil => rfl
    | cons y ys => exact List.dropWhile_cons_of_neg (by simp [hys y (List.mem_cons_self ..)])
  cases core with
  | nil =>
      have hall : ∀ c ∈ before ++ [] ++ after, p c = true := by
        intro c hc
        simp only [List.append_nil, List.mem_append] at hc
        exact hc.elim (hbefore c) (hafter c)
      rw [stripBoth, List.dropWhile_eq_nil_iff.mpr hall, List.rdropWhile_nil]
  | cons c core =>
      have hfront : (before ++ (c :: core) ++ after).dropWhile p = c :: core ++ after := by
        rw [List.append_assoc, List.dropWhile_append_of_pos hbefore]
        exact List.dropWhile_cons_of_neg (by simp [hcore c (List.mem_cons_self ..)])
      rw [stripBoth, hfront, List.rdropWhile, List.reverse_append,
        hdrop _ _ (by simpa using hafter) (fun d hd => hcore d (List.mem_reverse.mp hd)),
        List.reverse_reverse]

theorem stripBoth_split (p : Char → Bool) (chars : List Char) :
    ∃ before after, chars = before ++ stripBoth p chars ++ after ∧
      (∀ c ∈ before, p c = true) ∧ ∀ c ∈ after, p c = true := by
  refine ⟨chars.takeWhile p, (chars.dropWhile p).rtakeWhile p, ?_, ?_, ?_⟩
  · rw [List.append_assoc, stripBoth, List.rdropWhile_append_rtakeWhile,
      List.takeWhile_append_dropWhile]
  · exact fun c => List.mem_takeWhile_imp
  · exact fun c => List.mem_rtakeWhile_imp

/-! ## Decimal spellings -/

/-- The parts of a decimal number. -/
structure Spelling where
  negative : Bool
  whole : List Char
  fraction : List Char
  exponent : Int
  /-- Neither a point nor an exponent is written. -/
  integer : Bool

/-- A point and the digits behind it. -/
def spanFraction : List Char → List Char × List Char
  | '.' :: rest => spanDigits rest
  | rest => ([], rest)

theorem spanFraction_of_ne {chars : List Char} (h : ∀ rest, chars ≠ '.' :: rest) :
    spanFraction chars = ([], chars) := by
  unfold spanFraction
  split
  · exact absurd rfl (h _)
  · rfl

def readSpelling (chars : List Char) : Option Spelling :=
  let (negative, body) := splitSign chars
  let (whole, rest) := spanDigits body
  let (fraction, tail) := spanFraction rest
  if whole.isEmpty && fraction.isEmpty then none
  else
    (parseExponent tail).bind fun (exponent, after) =>
      if after.isEmpty then some ⟨negative, whole, fraction, exponent, rest.isEmpty⟩ else none

namespace Spelling

/-- The value of the digits before the point. -/
def wholeValue (n : Spelling) : Nat := (digitsValue 10 0 n.whole).getD 0

/-- The double nearest to the number. -/
def toDouble (n : Spelling) : F64 :=
  F64.ofDecimal n.negative ((digitsValue 10 0 (n.whole ++ n.fraction)).getD 0)
    (n.exponent - n.fraction.length)

end Spelling

/-- The characters of a numeric text. -/
def isNumericChar (c : Char) : Bool :=
  isAsciiDigit c || c = '+' || c = '-' || c = '.' || c = 'e' || c = 'E'

theorem isAsciiDigit_iff {c : Char} : isAsciiDigit c = true ↔ 48 ≤ c.toNat ∧ c.toNat ≤ 57 := by
  simp only [isAsciiDigit, Bool.and_eq_true, decide_eq_true_eq]
  exact Iff.rfl

theorem isNumericChar_toNat {c : Char} (h : isNumericChar c = true) :
    48 ≤ c.toNat ∧ c.toNat ≤ 57 ∨ c.toNat = 43 ∨ c.toNat = 45 ∨ c.toNat = 46 ∨ c.toNat = 101 ∨
      c.toNat = 69 := by
  simp only [isNumericChar, Bool.or_eq_true, decide_eq_true_eq, isAsciiDigit_iff] at h
  obtain ((((h | rfl) | rfl) | rfl) | rfl) | rfl := h
  · exact .inl h
  all_goals decide

/-- No numeric character is `n`, in either case, so no numeric text is `inf` or
`nan`. -/
theorem toLower_ne_of_isNumericChar {c : Char} (h : isNumericChar c = true) : c.toLower ≠ 'n' := by
  intro hlower
  have hval := congrArg Char.toNat hlower
  have hrange := isNumericChar_toNat h
  have hn : 'n'.toNat = 110 := rfl
  rw [hn] at hval
  delta Char.toLower at hval
  split at hval
  · rename_i hupper
    have hsum : (c.val + ('a'.val - 'A'.val)).toNat = 110 := hval
    have hdiff : ('a'.val - 'A'.val).toNat = 32 := rfl
    have hc : c.val.toNat = c.toNat := rfl
    rw [UInt32.toNat_add, hdiff, hc] at hsum
    omega
  · omega

theorem digitValue_of_isAsciiDigit {c : Char} (h : isAsciiDigit c = true) :
    ∃ d < 10, digitValue c = some d := by
  have hrange := isAsciiDigit_iff.mp h
  refine ⟨c.toNat - 48, by omega, ?_⟩
  simp only [isAsciiDigit, Bool.and_eq_true, decide_eq_true_eq] at h
  rw [digitValue, if_pos h]

theorem digitsValue_of_digits {digits : List Char} (h : ∀ c ∈ digits, isAsciiDigit c = true)
    (acc : Nat) : ∃ n, digitsValue 10 acc digits = some n := by
  induction digits generalizing acc with
  | nil => exact ⟨acc, rfl⟩
  | cons c rest ih =>
      obtain ⟨d, hd, hvalue⟩ := digitValue_of_isAsciiDigit (h c (List.mem_cons_self ..))
      obtain ⟨n, hn⟩ := ih (fun c hc => h c (List.mem_cons_of_mem _ hc)) (acc * 10 + d)
      exact ⟨n, by rw [digitsValue, hvalue]; simp [hd, hn]⟩

theorem spanDigits_spec (chars : List Char) :
    chars = (spanDigits chars).1 ++ (spanDigits chars).2 ∧
      ∀ c ∈ (spanDigits chars).1, isAsciiDigit c = true := by
  rw [spanDigits, List.span_eq_takeWhile_dropWhile]
  exact ⟨List.takeWhile_append_dropWhile.symm, fun c => List.mem_takeWhile_imp⟩

theorem splitSign_spec (chars : List Char) :
    ∃ sign, chars = sign ++ (splitSign chars).2 ∧ ∀ c ∈ sign, c = '+' ∨ c = '-' := by
  unfold splitSign
  split
  · exact ⟨['-'], rfl, by simp⟩
  · exact ⟨['+'], rfl, by simp⟩
  · exact ⟨[], rfl, by simp⟩

theorem spanFraction_spec (chars : List Char) :
    ∃ point, chars = point ++ (spanFraction chars).1 ++ (spanFraction chars).2 ∧
      (∀ c ∈ point, c = '.') ∧ ∀ c ∈ (spanFraction chars).1, isAsciiDigit c = true := by
  unfold spanFraction
  split
  · rename_i rest
    obtain ⟨hsplit, hdigits⟩ := spanDigits_spec rest
    exact ⟨['.'], by rw [List.append_assoc, ← hsplit]; rfl, by simp, hdigits⟩
  · exact ⟨[], rfl, by simp, by simp⟩

theorem isNumericChar_of_digit {c : Char} (h : isAsciiDigit c = true) : isNumericChar c = true := by
  simp [isNumericChar, h]

theorem isNumericChar_of_sign {c : Char} (h : c = '+' ∨ c = '-') : isNumericChar c = true := by
  rcases h with rfl | rfl <;> decide

/-- An exponent that ends the text. -/
theorem parseExponent_eq_some {chars : List Char} {exponent : Int}
    (h : parseExponent chars = some (exponent, [])) :
    chars = [] ∨ ∃ c rest, chars = c :: rest ∧ (c = 'e' ∨ c = 'E') ∧
      (splitSign rest).2 ≠ [] ∧ ∀ d ∈ (splitSign rest).2, isAsciiDigit d = true := by
  cases chars with
  | nil => exact .inl rfl
  | cons c rest =>
      refine .inr ⟨c, rest, rfl, ?_⟩
      rw [parseExponent] at h
      split at h
      · rename_i he
        obtain ⟨hsplit, hdigits⟩ := spanDigits_spec (splitSign rest).2
        simp only at h
        split at h
        · cases h
        · rename_i hne
          obtain ⟨n, -, hpair⟩ := Option.map_eq_some_iff.mp h
          have hafter : (spanDigits (splitSign rest).2).2 = [] := (Prod.mk.inj hpair).2
          rw [hafter, List.append_nil] at hsplit
          rw [← hsplit] at hdigits hne
          exact ⟨he, by simpa using hne, hdigits⟩
      · simp at h

theorem isNumericChar_of_exponent {chars : List Char} {exponent : Int}
    (h : parseExponent chars = some (exponent, [])) : ∀ c ∈ chars, isNumericChar c = true := by
  obtain rfl | ⟨e, rest, rfl, he, -, hdigits⟩ := parseExponent_eq_some h
  · simp
  · obtain ⟨sign, hrest, hsign⟩ := splitSign_spec rest
    intro c hc
    rcases List.mem_cons.mp hc with rfl | hc
    · rcases he with rfl | rfl <;> decide
    · rw [hrest, List.mem_append] at hc
      exact hc.elim (fun hc => isNumericChar_of_sign (hsign c hc))
        (fun hc => isNumericChar_of_digit (hdigits c hc))

/-- The parts a spelling is read into. -/
theorem readSpelling_eq_some {chars : List Char} {n : Spelling} (h : readSpelling chars = some n) :
    n.negative = (splitSign chars).1 ∧ n.whole = (spanDigits (splitSign chars).2).1 ∧
      n.fraction = (spanFraction (spanDigits (splitSign chars).2).2).1 ∧
      (n.whole.isEmpty && n.fraction.isEmpty) = false ∧
      parseExponent (spanFraction (spanDigits (splitSign chars).2).2).2 = some (n.exponent, []) ∧
      n.integer = (spanDigits (splitSign chars).2).2.isEmpty := by
  simp only [readSpelling] at h
  split at h
  · cases h
  · rename_i hne
    obtain ⟨⟨exponent, after⟩, hexponent, hrest⟩ := Option.bind_eq_some_iff.mp h
    simp only at hrest
    split at hrest
    · rename_i hafter
      obtain rfl := Option.some.inj hrest
      obtain rfl : after = [] := List.isEmpty_iff.mp hafter
      exact ⟨rfl, rfl, rfl, by simpa using hne, hexponent, rfl⟩
    · cases hrest

theorem isNumericChar_of_spelling {chars : List Char} {n : Spelling}
    (h : readSpelling chars = some n) : ∀ c ∈ chars, isNumericChar c = true := by
  obtain ⟨-, -, -, -, hexponent, -⟩ := readSpelling_eq_some h
  obtain ⟨sign, hchars, hsign⟩ := splitSign_spec chars
  obtain ⟨hbody, hwhole⟩ := spanDigits_spec (splitSign chars).2
  obtain ⟨point, hrest, hpoint, hfraction⟩ := spanFraction_spec (spanDigits (splitSign chars).2).2
  intro c hc
  rw [hchars, hbody, hrest] at hc
  simp only [List.mem_append] at hc
  obtain hc | hc | (hc | hc) | hc := hc
  · exact isNumericChar_of_sign (hsign c hc)
  · exact isNumericChar_of_digit (hwhole c hc)
  · rw [hpoint c hc]
    decide
  · exact isNumericChar_of_digit (hfraction c hc)
  · exact isNumericChar_of_exponent hexponent c hc

/-- Rust reads the number the parts denote. -/
theorem parseF64_of_spelling {chars : List Char} {n : Spelling} (h : readSpelling chars = some n) :
    parseF64 (String.ofList chars) = some n.toDouble := by
  have hchars := isNumericChar_of_spelling h
  obtain ⟨hnegative, hwhole, hfraction, hne, hexponent, -⟩ := readSpelling_eq_some h
  obtain ⟨sign, hsplit, -⟩ := splitSign_spec chars
  have hword : 'n' ∉ (asciiLower (String.ofList (splitSign chars).2)).toList := by
    simp only [asciiLower, String.toList_ofList, List.mem_map, not_exists, not_and]
    intro c hc
    exact toLower_ne_of_isNumericChar (hchars c (by rw [hsplit]; exact List.mem_append_right _ hc))
  have hnotWord : ¬ (asciiLower (String.ofList (splitSign chars).2) = "inf" ∨
      asciiLower (String.ofList (splitSign chars).2) = "infinity") := by
    rintro (hinf | hinf) <;> exact hword (by rw [hinf]; decide)
  have hnotNan : asciiLower (String.ofList (splitSign chars).2) ≠ "nan" :=
    fun hnan => hword (by rw [hnan]; decide)
  have hwholeDigits := (spanDigits_spec (splitSign chars).2).2
  obtain ⟨-, -, -, hfractionDigits⟩ := spanFraction_spec (spanDigits (splitSign chars).2).2
  obtain ⟨value, hvalue⟩ := @digitsValue_of_digits (n.whole ++ n.fraction) (by
    rw [hwhole, hfraction]
    exact List.forall_mem_append.mpr ⟨hwholeDigits, hfractionDigits⟩) 0
  have hread : parseF64 (String.ofList chars) =
      if (n.whole.isEmpty && n.fraction.isEmpty) = true then none
      else
        (parseExponent (spanFraction (spanDigits (splitSign chars).2).2).2).bind
          fun (exponent, after) =>
            if after.isEmpty then
              (digitsValue 10 0 (n.whole ++ n.fraction)).map fun digits =>
                F64.ofDecimal n.negative digits (exponent - n.fraction.length)
            else none := by
    rw [hnegative, hwhole, hfraction]
    simp only [parseF64, String.toList_ofList, hnotWord, hnotNan, if_false]
    generalize (spanDigits (splitSign chars).2).2 = rest
    split
    · rfl
    · rename_i hpoint
      rw [spanFraction_of_ne hpoint]
  rw [hread, hne, hexponent]
  simp [hvalue, Spelling.toDouble]

end PhpantomLsp.Text
