import PhpantomLsp.PhpType.Literal
import PhpantomLsp.Text.NumericText
import PhpantomLsp.Text.PhpBytes

/-!
# Loose comparison in PHP

What PHP makes of an integer or a string when `==` compares the two.  A numeric
string is an integer where it is spelled as one that fits, and a double
otherwise; a double remembers that its text was an integer too large.
-/

namespace PhpantomLsp

open Text

namespace Text.F64

/-- `n as f64`. -/
def ofInt (z : Int) : F64 := ofRatio (decide (z < 0)) z.natAbs 1

def isInfinite (x : F64) : Bool := x.exponent = 2047 && x.fraction = 0

end Text.F64

/-- The whitespace PHP lets stand around a number. -/
def isPhpSpace (c : Char) : Bool := isAsciiWhitespace c || c.toNat = 0x0B

inductive PhpNumber where
  | long (z : Int)
  | double (x : F64) (overflowed : Bool)

namespace PhpNumber

def toDouble : PhpNumber → F64
  | long z => F64.ofInt z
  | double x _ => x

/-- Two numbers, one of them an integer of the program. -/
def equal : PhpNumber → PhpNumber → Bool
  | long x, long y => x == y
  | n, m => n.toDouble.eq m.toDouble

/-- The numbers of two strings, given whether these are the same: where doubles
cannot tell two integers apart, the strings are compared. -/
def equalStrings (same : Bool) : PhpNumber → PhpNumber → Bool
  | long x, long y => x == y
  | long _, double _ true => false
  | double _ true, long _ => false
  | long x, double y false => (F64.ofInt x).eq y
  | double x false, long y => x.eq (F64.ofInt y)
  | double x o, double y p => x.eq y && (!(o && p || x.isInfinite) || same)

end PhpNumber

/-- The digits before the point, with the sign. -/
def Text.Spelling.signedWhole (n : Spelling) : Int :=
  if n.negative then -(n.wholeValue : Int) else n.wholeValue

/-- PHP's scan gives up at twenty digits and calls the number an integer too
large, whatever stands behind them. -/
def Text.Spelling.number (n : Spelling) : PhpNumber :=
  if n.integer then
    if i64Min ≤ n.signedWhole ∧ n.signedWhole ≤ i64Max then .long n.signedWhole
    else .double n.toDouble true
  else .double n.toDouble (20 ≤ (n.whole.dropWhile (· = '0')).length)

/-- The number a string is to PHP. -/
def phpNumber (chars : List Char) : Option PhpNumber :=
  (readSpelling (stripBoth isPhpSpace chars)).map Spelling.number

/-- Bytes as characters of their number. -/
def byteChars (bytes : List UInt8) : List Char := bytes.map fun b => Char.ofNat b.toNat

inductive PhpValue where
  | int (z : Int)
  | string (bytes : List UInt8)
  deriving DecidableEq

namespace PhpValue

def number : PhpValue → Option PhpNumber
  | int z => some (.long z)
  | string bytes => phpNumber (byteChars bytes)

/-- PHP 8's `==`.  An integer written out is a number, so it differs from a
string that is none. -/
def looselyEqual : PhpValue → PhpValue → Bool
  | string s, string t =>
      match phpNumber (byteChars s), phpNumber (byteChars t) with
      | some n, some m => n.equalStrings (s == t) m
      | _, _ => s == t
  | u, v =>
      match u.number, v.number with
      | some n, some m => n.equal m
      | _, _ => false

end PhpValue

/-- Underscores stand between digits only. -/
def underscoresBetween (afterDigit : Bool) : List Char → Bool
  | [] => afterDigit
  | c :: rest =>
      if c = '_' then afterDigit && underscoresBetween false rest else underscoresBetween true rest

/-- The base of an integer literal without its sign, and its digits. -/
def phpRadix : List Char → Nat × List Char
  | '0' :: 'x' :: rest => (16, rest)
  | '0' :: 'X' :: rest => (16, rest)
  | '0' :: 'b' :: rest => (2, rest)
  | '0' :: 'B' :: rest => (2, rest)
  | '0' :: 'o' :: rest => (8, rest)
  | '0' :: 'O' :: rest => (8, rest)
  | '0' :: rest => (8, '0' :: rest)
  | digits => (10, digits)

/-- The number an integer literal spells. -/
def phpInteger (raw : String) : Option Int :=
  let (negative, body) := splitSign raw.toList
  let (radix, digits) := phpRadix body
  if underscoresBetween false digits then
    (digitsValue radix 0 (digits.filter (· ≠ '_'))).map fun n : Nat =>
      if negative then -(n : Int) else n
  else none

/-- The value of an integer or string literal. -/
def phpValue : LiteralValue → Option PhpValue
  | .int raw => ((phpInteger raw).bind checkI64).map .int
  | .string raw => (phpStringBytes raw).map .string
  | .float _ => none

/-! ## Doubles -/

namespace Text.F64

theorem ofRatio_not_isNan (negative : Bool) (num den : Nat) :
    (ofRatio negative num den).isNan = false := by
  have hsmall : ∀ f, isNan ⟨negative, 0, f⟩ = false := by simp [isNan]
  have hfields : ∀ (mant : Nat) (e : Int),
      (if 971 < e then infinity negative
        else if mant < 2 ^ 52 then ⟨negative, 0, mant⟩
        else ⟨negative, (e + 1075).toNat, mant - 2 ^ 52⟩ : F64).isNan = false := by
    intro mant e
    split
    · simp [infinity, isNan]
    · split
      · exact hsmall mant
      · have hexponent : (e + 1075).toNat ≠ 2047 := by omega
        simp [isNan, hexponent]
  unfold ofRatio
  split
  · exact hsmall 0
  · extract_lets guess tooLarge e mant
    generalize (if mant = 2 ^ 53 then (2 ^ 52, e + 1) else (mant, e)) = rounded
    obtain ⟨mant', e'⟩ := rounded
    dsimp only
    exact hfields mant' e'

theorem ofInt_not_isNan (z : Int) : (ofInt z).isNan = false := ofRatio_not_isNan _ _ _

theorem ofDecimal_not_isNan (negative : Bool) (digits : Nat) (exponent : Int) :
    (ofDecimal negative digits exponent).isNan = false := by
  unfold ofDecimal
  split
  · simp [isNan]
  · split
    · simp [infinity, isNan]
    · split
      · simp [isNan]
      · exact ofRatio_not_isNan _ _ _

/-- The same number, or both zero. -/
def SameValue (x y : F64) : Prop := x = y ∨ x.isZero = true ∧ y.isZero = true

theorem eq_congr {x x' y y' : F64} (hx : SameValue x x') (hy : SameValue y y')
    (hxn : x.isNan = false) (hx'n : x'.isNan = false) (hyn : y.isNan = false)
    (hy'n : y'.isNan = false) : x.eq y = x'.eq y' := by
  have heq : ∀ {u v : F64}, SameValue u v → u.isNan = false → v.isNan = false →
      u.eq v = true := by
    intro u v h hu hv
    rcases h with rfl | ⟨h₁, h₂⟩
    · exact eq_self hu
    · simp [eq, hu, hv, h₁, h₂]
  have hxx := heq hx hxn hx'n
  have hyy := heq hy hyn hy'n
  rw [Bool.eq_iff_iff]
  exact ⟨fun h => eq_trans (eq_trans (eq_symm hxx) h) hyy,
    fun h => eq_trans (eq_trans hxx h) (eq_symm hyy)⟩

theorem decimalDigits_length_le {n k : Nat} (h : n < 10 ^ k) (hk : 0 < k) :
    (decimalDigits n).length ≤ k := by
  induction k generalizing n with
  | zero => omega
  | succ k ih =>
      rw [decimalDigits]
      split
      · simp
      · rename_i hn
        rw [List.length_append, List.length_singleton]
        cases k with
        | zero => omega
        | succ k =>
            have hdiv : n / 10 < 10 ^ (k + 1) := by
              rw [Nat.div_lt_iff_lt_mul (by omega)]
              rw [pow_succ] at h
              omega
            have := ih hdiv (by omega)
            omega

/-- An integer spelled in decimal is the double it rounds to, up to the sign of
zero. -/
theorem sameValue_ofDecimal {negative : Bool} {n : Nat} (h : n < 10 ^ 20) :
    SameValue (ofDecimal negative n 0) (ofInt (if negative then -(n : Int) else n)) := by
  by_cases hn : n = 0
  · subst hn
    refine .inr ⟨by simp [ofDecimal, isZero], ?_⟩
    cases negative <;> simp [ofInt, ofRatio, isZero]
  · refine .inl ?_
    have hlen := decimalDigits_length_le h (by omega)
    have hlong : ¬ (400 < ((decimalDigits n).length : Int) + 0) := by omega
    have hshort : ¬ (((decimalDigits n).length : Int) + 0 < -400) := by omega
    rw [ofDecimal, if_neg hn, if_neg hlong, if_neg hshort, ofInt]
    cases negative with
    | false =>
        have hpos : ¬ (n : Int) < 0 := by omega
        simp only [Bool.false_eq_true, if_false, hpos, decide_false]
        simp
    | true =>
        have hneg : -(n : Int) < 0 := by omega
        simp only [if_true, hneg, decide_true]
        simp

end Text.F64

/-! ## Integer literals -/

theorem underscoresBetween_head {c : Char} {rest : List Char}
    (h : underscoresBetween false (c :: rest) = true) : c ≠ '_' := by
  rintro rfl
  simp [underscoresBetween] at h

theorem digitValue_eq_some {c : Char} {d : Nat} (h : digitValue c = some d) :
    48 ≤ c.toNat ∧ c.toNat ≤ 57 ∧ d = c.toNat - 48 ∨
      97 ≤ c.toNat ∧ c.toNat ≤ 122 ∧ d = c.toNat - 97 + 10 ∨
      65 ≤ c.toNat ∧ c.toNat ≤ 90 ∧ d = c.toNat - 65 + 10 := by
  have hle : ∀ x y : Char, x ≤ y ↔ x.toNat ≤ y.toNat := fun _ _ => Iff.rfl
  simp only [digitValue, hle] at h
  split at h
  · rename_i hrange
    exact .inl ⟨hrange.1, hrange.2, (Option.some.inj h).symm⟩
  · split at h
    · rename_i hrange
      exact .inr (.inl ⟨hrange.1, hrange.2, (Option.some.inj h).symm⟩)
    · split at h
      · rename_i hrange
        exact .inr (.inr ⟨hrange.1, hrange.2, (Option.some.inj h).symm⟩)
      · cases h

theorem isWhitespace_of_toNat {c : Char} (h : 33 ≤ c.toNat) (h' : c.toNat ≤ 126) :
    isWhitespace c = false := by
  simp only [isWhitespace, Bool.or_eq_false_iff, Bool.and_eq_false_iff, decide_eq_false_iff_not]
  omega

theorem isWhitespace_of_digit {c : Char} {d : Nat} (h : digitValue c = some d) :
    isWhitespace c = false := by
  have hrange := digitValue_eq_some h
  exact isWhitespace_of_toNat (by omega) (by omega)

theorem isAsciiAlphanumeric_of_digit {c : Char} {d : Nat} (h : digitValue c = some d) :
    isAsciiAlphanumeric c = true := by
  have hle : ∀ x y : Char, x ≤ y ↔ x.toNat ≤ y.toNat := fun _ _ => Iff.rfl
  have hrange := digitValue_eq_some h
  simp only [isAsciiAlphanumeric, isAsciiDigit, isAsciiAlphabetic, Bool.or_eq_true,
    Bool.and_eq_true, decide_eq_true_eq, hle]
  obtain ⟨h₁, h₂, -⟩ | ⟨h₁, h₂, -⟩ | ⟨h₁, h₂, -⟩ := hrange
  · exact .inl ⟨h₁, h₂⟩
  · exact .inr (.inl ⟨h₁, h₂⟩)
  · exact .inr (.inr ⟨h₁, h₂⟩)

theorem octal_of_digit {c : Char} {d : Nat} (h : digitValue c = some d) (hd : d < 8) :
    '0' ≤ c ∧ c ≤ '7' := by
  have hle : ∀ x y : Char, x ≤ y ↔ x.toNat ≤ y.toNat := fun _ _ => Iff.rfl
  have hrange := digitValue_eq_some h
  have h0 : '0'.toNat = 48 := rfl
  have h7 : '7'.toNat = 55 := rfl
  rw [hle, hle, h0, h7]
  omega

theorem digitsValue_forall {radix acc n : Nat} {digits : List Char}
    (h : digitsValue radix acc digits = some n) :
    ∀ c ∈ digits, ∃ d < radix, digitValue c = some d := by
  induction digits generalizing acc with
  | nil => simp
  | cons c rest ih =>
      rw [digitsValue] at h
      split at h
      · rename_i d hvalue
        split at h
        · rename_i hd
          intro e he
          rcases List.mem_cons.mp he with rfl | he
          · exact ⟨d, hd, hvalue⟩
          · exact ih h e he
        · cases h
      · cases h

theorem splitRadix_octal {d : Char} {rest : List Char}
    (h : ∀ c ∈ d :: rest, '0' ≤ c ∧ c ≤ '7') : splitRadix ('0' :: d :: rest) = (8, d :: rest) := by
  have hletter : ∀ x ∈ ['x', 'X', 'b', 'B', 'o', 'O'], ¬ ('0' ≤ x ∧ x ≤ '7') := by simp
  have hd := h d (List.mem_cons_self ..)
  have hall : (d :: rest).all (fun c => '0' ≤ c && c ≤ '7') = true := by
    simpa only [List.all_eq_true, Bool.and_eq_true, decide_eq_true_eq] using h
  unfold splitRadix
  split
  case h_7 heq =>
    obtain ⟨rfl, rfl⟩ : _ = _ ∧ _ = _ := by simpa using heq
    rw [if_pos hall]
  case h_8 hrest => exact (hrest d rest rfl).elim
  all_goals
    rename_i heq
    obtain ⟨rfl, -⟩ : d = _ ∧ _ := by simpa using heq
    exact absurd hd (hletter _ (by decide))

theorem splitRadix_decimal {c : Char} {rest : List Char} (h : c ≠ '0') :
    splitRadix (c :: rest) = (10, c :: rest) := by
  simp [splitRadix, h]

/-- The two readings agree on the base and the digits. -/
theorem splitRadix_of_phpRadix {body : List Char} {n : Nat}
    (hunder : underscoresBetween false (phpRadix body).2 = true)
    (hvalue : digitsValue (phpRadix body).1 0 ((phpRadix body).2.filter (· ≠ '_')) = some n) :
    ∃ c rest, (splitRadix (body.filter (· ≠ '_'))).2 = c :: rest ∧
      digitsValue (splitRadix (body.filter (· ≠ '_'))).1 0 (c :: rest) = some n := by
  have hfirst : ∀ digits : List Char, underscoresBetween false digits = true →
      ∃ c rest, digits = c :: rest ∧ digits.filter (· ≠ '_') = c :: rest.filter (· ≠ '_') := by
    intro digits h
    cases digits with
    | nil => simp [underscoresBetween] at h
    | cons c rest =>
        exact ⟨c, rest, rfl, List.filter_cons_of_pos (by simp [underscoresBetween_head h])⟩
  unfold phpRadix at hunder hvalue
  split at hunder
  -- a leading zero
  case h_7 rest _ _ _ _ _ _ =>
    have hzero : ('0' :: rest).filter (· ≠ '_') = '0' :: rest.filter (· ≠ '_') := rfl
    simp only at hvalue
    rw [hzero] at hvalue ⊢
    cases hrest : rest.filter (· ≠ '_') with
    | nil =>
        rw [hrest] at hvalue
        exact ⟨'0', [], rfl, hvalue⟩
    | cons d digits =>
        rw [hrest] at hvalue
        have hdigits : digitsValue 8 0 (d :: digits) = some n := hvalue
        have hoctal : ∀ c ∈ d :: digits, '0' ≤ c ∧ c ≤ '7' := by
          intro c hc
          obtain ⟨v, hv, hdigit⟩ := digitsValue_forall hdigits c hc
          exact octal_of_digit hdigit hv
        rw [splitRadix_octal hoctal]
        exact ⟨d, digits, rfl, hdigits⟩
  case h_8 _ _ _ _ _ _ hzero =>
    obtain ⟨c, rest, rfl, hfilter⟩ := hfirst body hunder
    have hc : c ≠ '0' := fun h => hzero rest (by rw [h])
    simp only at hvalue
    rw [hfilter] at hvalue ⊢
    rw [splitRadix_decimal hc]
    exact ⟨c, _, rfl, hvalue⟩
  all_goals
    rename_i rest
    obtain ⟨c, digits, -, hfilter⟩ := hfirst rest hunder
    refine ⟨c, digits.filter (· ≠ '_'), hfilter, ?_⟩
    rw [← hfilter]
    exact hvalue

theorem phpRadix_spec (body : List Char) :
    ∃ front, body = front ++ (phpRadix body).2 ∧ ∀ c ∈ front, isWhitespace c = false := by
  unfold phpRadix
  split
  case h_7 => exact ⟨[], rfl, by simp⟩
  case h_8 => exact ⟨[], rfl, by simp⟩
  all_goals exact ⟨_ :: [_], rfl, by simp; decide⟩

theorem trim_of_forall {raw : String} (h : ∀ c ∈ raw.toList, isWhitespace c = false) :
    trim raw = raw := by
  have hstrip : trim raw = String.ofList (stripBoth isWhitespace raw.toList) := rfl
  have hcore := @stripBoth_eq isWhitespace [] _ [] (by simp) h (by simp)
  rw [List.nil_append, List.append_nil] at hcore
  rw [hstrip, hcore, String.ofList_toList]

theorem parseU64Radix_of_digits {radix n : Nat} {c : Char} {rest : List Char} (hplus : c ≠ '+')
    (hread : digitsValue radix 0 (c :: rest) = some n) (hn : n ≤ u64Max) :
    parseU64Radix radix (c :: rest) = some n := by
  simp [parseU64Radix, hplus, hread, hn]

/-- An integer literal that fits is read as PHP reads it. -/
theorem parsePhpIntLiteral_of_phpInteger {raw : String} {z : Int} (h : phpInteger raw = some z)
    (hz : checkI64 z = some z) : parsePhpIntLiteral raw = some z := by
  simp only [phpInteger] at h
  split at h
  case isFalse => cases h
  rename_i hunder
  obtain ⟨n, hvalue, hsign⟩ := Option.map_eq_some_iff.mp h
  obtain ⟨sign, hraw, hsignChars⟩ := splitSign_spec raw.toList
  obtain ⟨front, hbody, hfront⟩ := phpRadix_spec (splitSign raw.toList).2
  have hchars : ∀ c ∈ raw.toList, isWhitespace c = false := by
    intro c hc
    rw [hraw, hbody] at hc
    simp only [List.mem_append] at hc
    obtain hc | hc | hc := hc
    · rcases hsignChars c hc with rfl | rfl <;> decide
    · exact hfront c hc
    · by_cases hc' : c = '_'
      · rw [hc']
        decide
      · obtain ⟨d, -, hdigit⟩ := digitsValue_forall hvalue c (by simp [hc, hc'])
        exact isWhitespace_of_digit hdigit
  obtain ⟨c, rest, hdigits, hread⟩ := splitRadix_of_phpRadix hunder hvalue
  obtain ⟨d, -, hdigit⟩ := digitsValue_forall hread c (List.mem_cons_self ..)
  have hplus : c ≠ '+' := by
    rintro rfl
    have hnone : digitValue '+' = none := by decide
    simp [hnone] at hdigit
  have hbounds := (checkI64_eq_some hz).2
  have hn : n ≤ u64Max := by
    simp only [i64Min, i64Max, u64Max] at hbounds ⊢
    split at hsign <;> omega
  have hmagnitude : parseU64Radix (splitRadix ((splitSign raw.toList).2.filter (· ≠ '_'))).1
      (c :: rest) = some n :=
    parseU64Radix_of_digits hplus hread hn
  simp only [parsePhpIntLiteral, trim_of_forall hchars, hdigits,
    isAsciiAlphanumeric_of_digit hdigit, if_true, hmagnitude, Option.bind_some]
  rw [hsign]
  exact hz

/-! ## Strings -/

theorem isAsciiWhitespace_iff {c : Char} : isAsciiWhitespace c = true ↔
    c.toNat = 32 ∨ c.toNat = 9 ∨ c.toNat = 10 ∨ c.toNat = 13 ∨ c.toNat = 12 := by
  have heq : ∀ x : Char, c = x ↔ c.toNat = x.toNat := fun x => Char.toNat_inj.symm
  simp only [isAsciiWhitespace, Bool.or_eq_true, decide_eq_true_eq, heq]
  have hspace : ' '.toNat = 32 := rfl
  have htab : '\t'.toNat = 9 := rfl
  have hline : '\n'.toNat = 10 := rfl
  have hreturn : '\r'.toNat = 13 := rfl
  omega

theorem isPhpSpace_iff {c : Char} :
    isPhpSpace c = true ↔ isAsciiWhitespace c = true ∨ c.toNat = 0x0B := by
  simp [isPhpSpace]

theorem isPhpSpace_of_numeric {c : Char} (h : isNumericChar c = true) : isPhpSpace c = false := by
  rw [Bool.eq_false_iff, ne_eq, isPhpSpace_iff, isAsciiWhitespace_iff]
  have hrange := isNumericChar_toNat h
  omega

theorem isWhitespace_of_numeric {c : Char} (h : isNumericChar c = true) : isWhitespace c = false := by
  have hrange := isNumericChar_toNat h
  exact isWhitespace_of_toNat (by omega) (by omega)

/-- A numeric string is a number with PHP's whitespace around it. -/
theorem phpNumber_eq_some {chars : List Char} {m : PhpNumber} (h : phpNumber chars = some m) :
    ∃ before core after n, chars = before ++ core ++ after ∧ readSpelling core = some n ∧
      n.number = m ∧ (∀ c ∈ before ++ after, isPhpSpace c = true) ∧
      ∀ c ∈ core, isNumericChar c = true := by
  obtain ⟨n, hread, hm⟩ := Option.map_eq_some_iff.mp h
  obtain ⟨before, after, hchars, hbefore, hafter⟩ := stripBoth_split isPhpSpace chars
  exact ⟨before, _, after, n, hchars, hread, hm, List.forall_mem_append.mpr ⟨hbefore, hafter⟩,
    isNumericChar_of_spelling hread⟩

theorem phpNumber_of_spelling {before core after : List Char} {n : Spelling}
    (hread : readSpelling core = some n) (hspace : ∀ c ∈ before ++ after, isPhpSpace c = true) :
    phpNumber (before ++ core ++ after) = some n.number := by
  have hcore := isNumericChar_of_spelling hread
  obtain ⟨hbefore, hafter⟩ := List.forall_mem_append.mp hspace
  rw [phpNumber, stripBoth_eq hbefore (fun c hc => isPhpSpace_of_numeric (hcore c hc)) hafter,
    hread, Option.map_some]

theorem phpNumber_ascii {chars : List Char} {m : PhpNumber} (h : phpNumber chars = some m) :
    ∀ c ∈ chars, c.toNat < 128 := by
  obtain ⟨before, core, after, n, rfl, -, -, hspace, hcore⟩ := phpNumber_eq_some h
  intro c hc
  rw [List.append_assoc, List.mem_append, List.mem_append] at hc
  have hsides : c ∈ before ++ after ∨ c ∈ core := by
    rw [List.mem_append]
    tauto
  rcases hsides with hc | hc
  · have := hspace c hc
    rw [isPhpSpace_iff, isAsciiWhitespace_iff] at this
    omega
  · have := isNumericChar_toNat (hcore c hc)
    omega

/-! ## Bytes -/

theorem toNat_ofNat_byte (b : UInt8) : (Char.ofNat b.toNat).toNat = b.toNat := by
  have hvalid : Nat.isValidChar b.toNat := Or.inl (by have := b.toNat_lt; omega)
  rw [Char.ofNat, dif_pos hvalid]
  rfl

theorem byteChars_mem {bytes : List UInt8} {c : Char} :
    c ∈ byteChars bytes ↔ ∃ b ∈ bytes, c.toNat = b.toNat := by
  simp only [byteChars, List.mem_map]
  constructor
  · rintro ⟨b, hb, rfl⟩
    exact ⟨b, hb, toNat_ofNat_byte b⟩
  · rintro ⟨b, hb, hc⟩
    exact ⟨b, hb, Char.toNat_inj.mp ((toNat_ofNat_byte b).trans hc.symm)⟩

theorem charBytes_ascii {c : Char} (h : c.toNat < 128) : charBytes c = [UInt8.ofNat c.toNat] := by
  rw [charBytes_eq, if_pos (by omega)]

theorem byteChars_flatMap {chars : List Char} (h : ∀ c ∈ chars, c.toNat < 128) :
    byteChars (chars.flatMap charBytes) = chars := by
  induction chars with
  | nil => rfl
  | cons c rest ih =>
      have hc := h c (List.mem_cons_self ..)
      have hrest := ih fun d hd => h d (List.mem_cons_of_mem _ hd)
      have hbyte : (UInt8.ofNat c.toNat).toNat = c.toNat := by
        rw [UInt8.toNat_ofNat']
        omega
      rw [List.flatMap_cons, charBytes_ascii hc]
      simp only [byteChars, List.singleton_append, List.map_cons, hbyte, Char.ofNat_toNat]
      exact congrArg (c :: ·) hrest

/-- A character that is not ASCII has a byte that is not. -/
theorem exists_byte_of_nonAscii {c : Char} (h : 128 ≤ c.toNat) :
    ∃ b ∈ charBytes c, 128 ≤ b.toNat := by
  rw [charBytes_eq, if_neg (by omega)]
  split
  · exact ⟨_, List.mem_cons_self .., by rw [UInt8.toNat_ofNat']; omega⟩
  · split
    · exact ⟨_, List.mem_cons_self .., by rw [UInt8.toNat_ofNat']; omega⟩
    · exact ⟨_, List.mem_cons_self .., by rw [UInt8.toNat_ofNat']; omega⟩

/-- A string that is a number is ASCII, so it is one by its characters as by
its bytes. -/
theorem phpNumber_byteChars (chars : List Char) :
    phpNumber (byteChars (chars.flatMap charBytes)) = phpNumber chars := by
  by_cases hascii : ∀ c ∈ chars, c.toNat < 128
  · rw [byteChars_flatMap hascii]
  · simp only [not_forall, not_lt] at hascii
    obtain ⟨c, hc, hlarge⟩ := hascii
    obtain ⟨b, hb, hbyte⟩ := exists_byte_of_nonAscii hlarge
    have hchars : phpNumber chars = none := by
      rw [Option.eq_none_iff_forall_ne_some]
      intro m hm
      exact absurd (phpNumber_ascii hm c hc) (by omega)
    have hbytes : phpNumber (byteChars (chars.flatMap charBytes)) = none := by
      rw [Option.eq_none_iff_forall_ne_some]
      intro m hm
      have hmem : Char.ofNat b.toNat ∈ byteChars (chars.flatMap charBytes) :=
        List.mem_map_of_mem (List.mem_flatMap.mpr ⟨c, hc, hb⟩)
      have hsmall := phpNumber_ascii hm _ hmem
      rw [toNat_ofNat_byte] at hsmall
      omega
    rw [hchars, hbytes]

theorem phpNumber_of_notUtf8 {bytes : List UInt8} (h : NotUtf8 bytes) :
    phpNumber (byteChars bytes) = none := by
  rw [Option.eq_none_iff_forall_ne_some]
  intro m hm
  refine h (byteChars bytes) ?_
  have hascii := phpNumber_ascii hm
  clear hm h
  induction bytes with
  | nil => rfl
  | cons b rest ih =>
      have hb := hascii _ (List.mem_cons_self ..)
      have hrest := ih fun c hc => hascii c (List.mem_cons_of_mem _ hc)
      simp only [byteChars, List.map_cons, List.flatMap_cons]
      rw [charBytes_ascii hb, toNat_ofNat_byte, UInt8.ofNat_toNat, List.singleton_append]
      exact congrArg (b :: ·) hrest

end PhpantomLsp
