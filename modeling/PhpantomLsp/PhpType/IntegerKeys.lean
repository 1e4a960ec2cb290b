import PhpantomLsp.PhpType.ShapeKeys

/-!
# Keys PHP stores as integers

PHP stores a string array key as an integer when it is the decimal spelling of
one: an optional minus, digits that do not start with a needless zero, no
minus on zero, and a value `i64` holds.  `is_canonical_int_key` tests the
characters and then the range, `is_decimal_int_array_key` parses the key and
prints the number again; both accept exactly these spellings
(`isCanonicalIntKey_exact`).

The step between the two is that digits without a leading zero are the ones
their number is printed with (`decimalDigits_of_digitsValue`).
-/

namespace PhpantomLsp

open Text

namespace IntegerKeys

/-! ## What PHP does -/

/-- The number a run of decimal digits spells. -/
def digitsNumber (digits : List Char) : Nat :=
  digits.foldl (fun n c => 10 * n + (c.toNat - '0'.toNat)) 0

/-- The integer spelled by digits under an optional minus. -/
def spelledInt (minus : Bool) (digits : List Char) : Int :=
  if minus then -(digitsNumber digits : Int) else digitsNumber digits

/-- The spelling PHP stores as an integer: no leading zero, no minus on zero,
and within the bounds of `i64`. -/
structure StoredSpelling (minus : Bool) (digits : List Char) : Prop where
  nonempty : digits ≠ []
  decimal : ∀ c ∈ digits, '0' ≤ c ∧ c ≤ '9'
  leadingZero : digits.head? = some '0' → digits = ['0'] ∧ minus = false
  fits : i64Min ≤ spelledInt minus digits ∧ spelledInt minus digits ≤ i64Max

/-- Whether PHP converts a string array key to an integer. -/
def StoredAsInteger (key : String) : Prop :=
  ∃ minus digits, key.toList = (if minus then '-' :: digits else digits) ∧
    StoredSpelling minus digits

/-! ## Digits and their number -/

theorem isAsciiDigit_iff {c : Char} : isAsciiDigit c = true ↔ '0' ≤ c ∧ c ≤ '9' := by
  simp [isAsciiDigit]

theorem digitValue_of_decimal {c : Char} (h : '0' ≤ c ∧ c ≤ '9') :
    digitValue c = some (c.toNat - '0'.toNat) ∧ c.toNat - '0'.toNat < 10 ∧
      digitChar (c.toNat - '0'.toNat) = c := by
  have hlow : '0'.toNat ≤ c.toNat := h.1
  have hhigh : c.toNat ≤ '9'.toNat := h.2
  have hzero : '0'.toNat = 48 := rfl
  have hnine : '9'.toNat = 57 := rfl
  refine ⟨?_, by omega, ?_⟩
  · rw [digitValue, if_pos h, hzero]
  · rw [digitChar, hzero, show 48 + (c.toNat - 48) = c.toNat by omega, Char.ofNat_toNat]

theorem digitsValue_of_decimal {digits : List Char} (h : ∀ c ∈ digits, '0' ≤ c ∧ c ≤ '9')
    (acc : Nat) :
    digitsValue 10 acc digits =
      some (digits.foldl (fun n c => 10 * n + (c.toNat - '0'.toNat)) acc) := by
  induction digits generalizing acc with
  | nil => rfl
  | cons c rest ih =>
      obtain ⟨hvalue, hlt, -⟩ := digitValue_of_decimal (h c (by simp))
      simp only [digitsValue, hvalue, hlt, if_true, List.foldl_cons]
      rw [ih (fun c hc => h c (by simp [hc])), Nat.mul_comm acc]

/-- What reads as a number in base ten is decimal digits. -/
theorem decimal_of_digitsValue {digits : List Char} {acc n : Nat}
    (h : digitsValue 10 acc digits = some n) : ∀ c ∈ digits, '0' ≤ c ∧ c ≤ '9' := by
  induction digits generalizing acc with
  | nil => simp
  | cons c rest ih =>
      simp only [digitsValue] at h
      cases hvalue : digitValue c with
      | none =>
          rw [hvalue] at h
          exact absurd h (by simp)
      | some d =>
          rw [hvalue] at h
          by_cases hd : d < 10
          · have hc : '0' ≤ c ∧ c ≤ '9' := by
              by_contra hnot
              rw [digitValue, if_neg hnot] at hvalue
              split_ifs at hvalue <;> simp only [Option.some.injEq] at hvalue <;> omega
            simp only [hd, if_true] at h
            intro c' hc'
            rcases List.mem_cons.mp hc' with rfl | hc'
            · exact hc
            · exact ih h c' hc'
          · simp [hd] at h

/-- Digits that start with no needless zero are the ones their number is
printed with. -/
theorem decimalDigits_of_digitsValue {digits : List Char} {n : Nat} (hne : digits ≠ [])
    (hzero : digits.head? = some '0' → digits = ['0'])
    (h : digitsValue 10 0 digits = some n) : decimalDigits n = digits := by
  induction digits using List.reverseRecOn generalizing n with
  | nil => exact absurd rfl hne
  | append_singleton init c ih =>
      have hc := decimal_of_digitsValue h c (by simp)
      obtain ⟨hvalue, hlt, hchar⟩ := digitValue_of_decimal hc
      rw [digitsValue_append] at h
      obtain ⟨m, hm, hlast⟩ := Option.bind_eq_some_iff.mp h
      simp only [digitsValue, hvalue, hlt, if_true, Option.some.injEq] at hlast
      by_cases hinit : init = []
      · have hm0 : m = 0 := by
          rw [hinit] at hm
          simpa [digitsValue] using hm.symm
        have hn : n = c.toNat - '0'.toNat := by omega
        rw [decimalDigits, if_pos (by omega), hinit, hn, hchar]
        rfl
      · -- the digits before the last one start with no zero at all
        have hhead : init.head? ≠ some '0' := by
          intro hhead
          have := hzero (by rw [List.head?_append, hhead]; rfl)
          have hlength := congrArg List.length this
          have hpos := List.length_pos_iff.mpr hinit
          simp only [List.length_append, List.length_singleton] at hlength
          omega
        have hprinted := ih hinit (fun hz => absurd hz hhead) hm
        have hpos : m ≠ 0 := by
          intro hm0
          rw [hm0, decimalDigits, if_pos (by omega)] at hprinted
          exact hhead (by rw [← hprinted]; rfl)
        rw [decimalDigits, if_neg (by omega), show n / 10 = m by omega,
          show n % 10 = c.toNat - '0'.toNat by omega, hprinted, hchar]

/-! ## The two tests -/

/-- Decimal digits under an optional minus parse to the integer they spell,
where `i64` holds it. -/
theorem parseI64_of_decimal {key : String} {minus : Bool} {digits : List Char}
    (hkey : key.toList = if minus then '-' :: digits else digits) (hne : digits ≠ [])
    (hdecimal : ∀ c ∈ digits, '0' ≤ c ∧ c ≤ '9') :
    parseI64 key = checkI64 (spelledInt minus digits) := by
  have hvalue : digitsValue 10 0 digits = some (digitsNumber digits) :=
    digitsValue_of_decimal hdecimal 0
  have hsplit : splitSign key.toList = (minus, digits) := by
    cases minus with
    | true =>
        rw [hkey]
        rfl
    | false =>
        obtain ⟨c, rest, hdigits⟩ := List.exists_cons_of_ne_nil hne
        rw [hkey, hdigits]
        exact splitSign_of_isAsciiDigit (isAsciiDigit_iff.mpr (hdecimal c (by simp [hdigits])))
  simp only [parseI64, hsplit, hvalue]
  rw [if_neg (by simp [hne])]
  rfl

/-- A stored spelling parses to the integer it spells, and that integer is
printed with it. -/
theorem parse_of_storedSpelling {key : String} {minus : Bool} {digits : List Char}
    (hkey : key.toList = if minus then '-' :: digits else digits)
    (h : StoredSpelling minus digits) :
    parseI64 key = some (spelledInt minus digits) ∧ intToString (spelledInt minus digits) = key := by
  have hvalue : digitsValue 10 0 digits = some (digitsNumber digits) :=
    digitsValue_of_decimal h.decimal 0
  have hprinted := decimalDigits_of_digitsValue h.nonempty (fun hz => (h.leadingZero hz).1) hvalue
  constructor
  · rw [parseI64_of_decimal hkey h.nonempty h.decimal]
    exact checkI64_of_bounds h.fits.1 h.fits.2
  cases minus with
  | false =>
      show natToString (digitsNumber digits) = key
      rw [natToString, hprinted]
      exact String.toList_inj.mp (by simp [hkey])
  | true =>
      have hpos : digitsNumber digits ≠ 0 := by
        intro hz
        rw [hz, decimalDigits, if_pos (by omega)] at hprinted
        exact absurd (h.leadingZero (by rw [← hprinted]; rfl)).2 (by simp)
      obtain ⟨m, hm⟩ := Nat.exists_eq_succ_of_ne_zero hpos
      have hint : spelledInt true digits = Int.negSucc m := by
        rw [spelledInt, if_pos rfl, hm]
        rfl
      rw [hint, intToString, ← Nat.succ_eq_add_one, ← hm, hprinted]
      exact String.toList_inj.mp (by simp [hkey])

theorem isDecimalIntArrayKey_iff {key : String} :
    isDecimalIntArrayKey key = true ↔ StoredAsInteger key := by
  constructor
  · intro h
    rw [isDecimalIntArrayKey, Bool.and_eq_true, Option.any_eq_true] at h
    obtain ⟨-, z, hparse, hprint⟩ := h
    have hbounds := parseI64_bounds hparse
    have hkey : intToString z = key := by simpa using hprint
    have hdigits (n : Nat) : digitsNumber (decimalDigits n) = n := by
      have hdecimal := decimal_of_digitsValue (digitsValue_decimalDigits n)
      have := digitsValue_of_decimal hdecimal 0
      rw [digitsValue_decimalDigits] at this
      exact (Option.some.inj this).symm
    have hspelling (minus : Bool) (n : Nat) (hminus : minus = true → n ≠ 0)
        (hfits : i64Min ≤ spelledInt minus (decimalDigits n) ∧
          spelledInt minus (decimalDigits n) ≤ i64Max) :
        StoredSpelling minus (decimalDigits n) := by
      refine ⟨decimalDigits_ne_nil n, decimal_of_digitsValue (digitsValue_decimalDigits n), ?_, hfits⟩
      intro hhead
      obtain ⟨c, rest, hc, -, hzero⟩ := decimalDigits_head n
      have hn : n = 0 := by
        apply hzero
        rw [hc] at hhead
        simpa using hhead
      constructor
      · rw [hn]
        decide +kernel
      · cases minus with
        | false => rfl
        | true => exact absurd hn (hminus rfl)
    cases z with
    | ofNat n =>
        refine ⟨false, decimalDigits n, ?_, hspelling false n (by simp) ?_⟩
        · rw [← hkey]
          simp [intToString, natToString]
        · simpa [spelledInt, hdigits] using hbounds
    | negSucc n =>
        refine ⟨true, decimalDigits (n + 1), ?_, hspelling true (n + 1) (by simp) ?_⟩
        · rw [← hkey]
          simp [intToString]
        · have hz : spelledInt true (decimalDigits (n + 1)) = Int.negSucc n := by
            rw [spelledInt, if_pos rfl, hdigits]
            rfl
          rw [hz]
          exact hbounds
  · rintro ⟨minus, digits, hkey, h⟩
    obtain ⟨hparse, hprint⟩ := parse_of_storedSpelling hkey h
    have hplus : key.toList.head? ≠ some '+' := by
      rw [hkey]
      cases minus with
      | true => simp
      | false =>
          intro hhead
          exact absurd (h.decimal '+' (List.mem_of_mem_head? hhead)) (by decide)
    simp [isDecimalIntArrayKey, hparse, hprint, hplus]

/-- A key is its digits under the minus it has, if it has one. -/
theorem exists_sign_split (key : String) :
    ∃ minus digits, key.toList = (if minus then '-' :: digits else digits) ∧
      (minus = false → digits.head? ≠ some '-') := by
  by_cases hhead : key.toList.head? = some '-'
  · obtain ⟨rest, hrest⟩ := List.head?_eq_some_iff.mp hhead
    exact ⟨true, rest, by simpa using hrest, by simp⟩
  · exact ⟨false, key.toList, by simp, fun _ => hhead⟩

/-- The test of the characters, read on the digits. -/
theorem isCanonicalIntKey_of_split {key : String} {minus : Bool} {digits : List Char}
    (hkey : key.toList = if minus then '-' :: digits else digits)
    (hplain : minus = false → digits.head? ≠ some '-') :
    isCanonicalIntKey key = true ↔ digits ≠ [] ∧ (∀ c ∈ digits, '0' ≤ c ∧ c ≤ '9') ∧
      (digits.head? = some '0' → digits = ['0'] ∧ minus = false) ∧
        (parseI64 key).isSome = true := by
  have hdigits : (stripPrefixChar '-' key).getD key = String.ofList digits := by
    cases minus with
    | true => simp [stripPrefixChar, hkey]
    | false =>
        rw [if_neg (by simp)] at hkey
        have hlist : key = String.ofList digits := by rw [← hkey, String.ofList_toList]
        cases digits with
        | nil => simp [stripPrefixChar, hlist]
        | cons c rest =>
            have hc : c ≠ '-' := by
              intro hc
              exact hplain rfl (by rw [hc]; rfl)
            simp [stripPrefixChar, hc, hlist]
  have hzero : (String.ofList digits == "0" && key == "0") = true ↔
      digits = ['0'] ∧ minus = false := by
    have hspell : ∀ text : String, text = "0" ↔ text.toList = ['0'] := fun text =>
      String.toList_inj.symm
    rw [Bool.and_eq_true, beq_iff_eq, beq_iff_eq, hspell, hspell key, hkey, String.toList_ofList]
    cases minus with
    | true => simp
    | false => simp
  have hempty : String.ofList digits ≠ "" ↔ digits ≠ [] := by
    rw [Ne, ← String.toList_inj, String.toList_ofList]
    rfl
  simp only [isCanonicalIntKey, hdigits, String.toList_ofList, Bool.and_eq_true, Bool.or_eq_true,
    decide_eq_true_eq, hempty, List.all_eq_true, isAsciiDigit_iff, Bool.not_eq_true',
    beq_eq_false_iff_ne, and_assoc]
  rw [← Bool.and_eq_true, hzero]
  refine and_congr_right fun _ => and_congr_right fun _ => and_congr_left fun _ => ?_
  constructor
  · rintro (h | h) hhead
    · exact h
    · exact absurd hhead h
  · intro h
    by_cases hhead : digits.head? = some '0'
    · exact .inl (h hhead)
    · exact .inr hhead

theorem isCanonicalIntKey_iff {key : String} :
    isCanonicalIntKey key = true ↔ StoredAsInteger key := by
  constructor
  · intro h
    obtain ⟨minus, digits, hkey, hplain⟩ := exists_sign_split key
    obtain ⟨hne, hdecimal, hzero, hparse⟩ := (isCanonicalIntKey_of_split hkey hplain).mp h
    rw [parseI64_of_decimal hkey hne hdecimal] at hparse
    obtain ⟨z, hz⟩ := Option.isSome_iff_exists.mp hparse
    obtain ⟨hvalue, hbounds⟩ := checkI64_eq_some hz
    rw [hvalue] at hbounds
    exact ⟨minus, digits, hkey, hne, hdecimal, hzero, hbounds⟩
  · rintro ⟨minus, digits, hkey, h⟩
    have hplain : minus = false → digits.head? ≠ some '-' := by
      intro _ hhead
      exact absurd (h.decimal '-' (List.mem_of_mem_head? hhead)) (by decide)
    have hparse := (parse_of_storedSpelling hkey h).1
    rw [isCanonicalIntKey_of_split hkey hplain]
    exact ⟨h.nonempty, h.decimal, h.leadingZero, by rw [hparse]; rfl⟩

/-- The two tests agree, and hold exactly of the keys PHP stores as
integers. -/
theorem isCanonicalIntKey_exact (key : String) :
    isCanonicalIntKey key = isDecimalIntArrayKey key ∧
      (isCanonicalIntKey key = true ↔ StoredAsInteger key) := by
  refine ⟨?_, isCanonicalIntKey_iff⟩
  rw [Bool.eq_iff_iff, isCanonicalIntKey_iff, isDecimalIntArrayKey_iff]

end IntegerKeys

end PhpantomLsp
