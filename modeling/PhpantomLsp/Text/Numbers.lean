import PhpantomLsp.Text.Ascii
import Mathlib.Data.Int.Basic
import Mathlib.Tactic.IntervalCases

/-!
# Decimal numbers as text

`i64` and `usize` printed and parsed the way Rust's `to_string` and
`str::parse` do.  A parsed number is an `Int` within the bounds of its
machine type; arithmetic on it is bounded by the code that does it.

The main results are the two directions of the round trip: what is printed
parses back to the number printed (`parseI64_intToString`,
`parseUsize_natToString`), and two numbers that print alike are equal.
-/

namespace PhpantomLsp.Text

/-- `i64::MAX`. -/
def i64Max : Int := 9223372036854775807

/-- `i64::MIN`. -/
def i64Min : Int := -9223372036854775808

/-- `u64::MAX`, which is also `usize::MAX` on the platforms the server is
built for. -/
def u64Max : Nat := 18446744073709551615

/-- The digit character of a number below ten. -/
def digitChar (d : Nat) : Char := Char.ofNat (48 + d)

/-- The number a digit character stands for, in any base up to 36. -/
def digitValue (c : Char) : Option Nat :=
  if '0' ≤ c ∧ c ≤ '9' then some (c.toNat - 48)
  else if 'a' ≤ c ∧ c ≤ 'z' then some (c.toNat - 97 + 10)
  else if 'A' ≤ c ∧ c ≤ 'Z' then some (c.toNat - 65 + 10)
  else none

/-- The decimal digits of a natural number, most significant first. -/
def decimalDigits (n : Nat) : List Char :=
  if n < 10 then [digitChar n] else decimalDigits (n / 10) ++ [digitChar (n % 10)]
termination_by n

/-- `to_string` of an unsigned integer. -/
def natToString (n : Nat) : String := String.ofList (decimalDigits n)

/-- `to_string` of a signed integer. -/
def intToString : Int → String
  | .ofNat n => natToString n
  | .negSucc n => String.ofList ('-' :: decimalDigits (n + 1))

/-- The value of a nonempty run of digits in base `radix`, continuing from
`acc`; `none` on any other character. -/
def digitsValue (radix acc : Nat) : List Char → Option Nat
  | [] => some acc
  | c :: rest =>
      match digitValue c with
      | some d => if d < radix then digitsValue radix (acc * radix + d) rest else none
      | none => none

/-- `u64::from_str_radix`: an optional `+`, then at least one digit, and no
overflow. -/
def parseU64Radix (radix : Nat) (digits : List Char) : Option Nat :=
  let body := match digits with
    | '+' :: rest => rest
    | _ => digits
  if body.isEmpty then none
  else
    match digitsValue radix 0 body with
    | some n => if n ≤ u64Max then some n else none
    | none => none

/-- `str::parse::<usize>`. -/
def parseUsize (s : String) : Option Nat := parseU64Radix 10 s.toList

/-- A value that fits in `i64`. -/
def checkI64 (z : Int) : Option Int := if i64Min ≤ z ∧ z ≤ i64Max then some z else none

/-- Whether a number text is negative, and what follows its sign. -/
def splitSign : List Char → Bool × List Char
  | '-' :: rest => (true, rest)
  | '+' :: rest => (false, rest)
  | digits => (false, digits)

/-- `str::parse::<i64>`: an optional sign, then at least one digit, and no
overflow. -/
def parseI64 (s : String) : Option Int :=
  let (negative, body) := splitSign s.toList
  if body.isEmpty then none
  else
    match digitsValue 10 0 body with
    | some n => checkI64 (if negative then -(n : Int) else n)
    | none => none

/-! ## Digits -/

theorem digitValue_digitChar {d : Nat} (hd : d < 10) : digitValue (digitChar d) = some d := by
  interval_cases d <;> decide

theorem isAsciiDigit_digitChar {d : Nat} (hd : d < 10) : isAsciiDigit (digitChar d) = true := by
  interval_cases d <;> decide

theorem digitChar_eq_zero {d : Nat} (hd : d < 10) (h : digitChar d = '0') : d = 0 := by
  interval_cases d <;> first | rfl | exact absurd h (by decide)

theorem decimalDigits_ne_nil (n : Nat) : decimalDigits n ≠ [] := by
  rw [decimalDigits]
  split <;> simp

theorem digitsValue_append {radix acc : Nat} {xs ys : List Char} :
    digitsValue radix acc (xs ++ ys) =
      (digitsValue radix acc xs).bind (fun m => digitsValue radix m ys) := by
  induction xs generalizing acc with
  | nil => simp [digitsValue]
  | cons c rest ih =>
      simp only [List.cons_append, digitsValue]
      cases digitValue c with
      | none => rfl
      | some d =>
          by_cases hd : d < radix
          · simp [hd, ih]
          · simp [hd]

/-- Reading the digits of `n` after a prefix worth `acc` shifts the prefix
past them. -/
theorem digitsValue_decimalDigits (n : Nat) : digitsValue 10 0 (decimalDigits n) = some n := by
  induction n using decimalDigits.induct with
  | case1 n h =>
      rw [decimalDigits, if_pos h]
      simp [digitsValue, digitValue_digitChar h, h]
  | case2 n h ih =>
      rw [decimalDigits, if_neg h, digitsValue_append, ih]
      have hd : n % 10 < 10 := Nat.mod_lt _ (by omega)
      have hn : n / 10 * 10 + n % 10 = n := by omega
      simp [digitsValue, digitValue_digitChar hd, hd, hn]

theorem decimalDigits_isAsciiDigit (n : Nat) : ∀ c ∈ decimalDigits n, isAsciiDigit c = true := by
  induction n using decimalDigits.induct with
  | case1 n h =>
      rw [decimalDigits, if_pos h]
      simp [isAsciiDigit_digitChar h]
  | case2 n h ih =>
      rw [decimalDigits, if_neg h]
      intro c hc
      rcases List.mem_append.mp hc with hc | hc
      · exact ih c hc
      · rw [List.mem_singleton.mp hc]
        exact isAsciiDigit_digitChar (Nat.mod_lt _ (by omega))

/-- The first digit of a positive number is not `0`. -/
theorem decimalDigits_head (n : Nat) :
    ∃ c rest, decimalDigits n = c :: rest ∧ isAsciiDigit c = true ∧ (c = '0' → n = 0) := by
  induction n using decimalDigits.induct with
  | case1 n h =>
      rw [decimalDigits, if_pos h]
      exact ⟨digitChar n, [], rfl, isAsciiDigit_digitChar h, digitChar_eq_zero h⟩
  | case2 n h ih =>
      obtain ⟨c, rest, hc, hdigit, hzero⟩ := ih
      rw [decimalDigits, if_neg h, hc]
      refine ⟨c, rest ++ [digitChar (n % 10)], rfl, hdigit, fun h0 => ?_⟩
      have := hzero h0
      omega

theorem decimalDigits_injective {m n : Nat} (h : decimalDigits m = decimalDigits n) : m = n := by
  have hm := digitsValue_decimalDigits m
  rw [h, digitsValue_decimalDigits n] at hm
  simpa using hm.symm

theorem not_sign_of_isAsciiDigit {c : Char} (h : isAsciiDigit c = true) : c ≠ '-' ∧ c ≠ '+' := by
  constructor <;> rintro rfl <;> exact absurd h (by decide)

/-! ## Round trips -/

theorem natToString_injective {m n : Nat} (h : natToString m = natToString n) : m = n :=
  decimalDigits_injective (by simpa [natToString] using congrArg String.toList h)

theorem parseUsize_natToString {n : Nat} (hn : n ≤ u64Max) :
    parseUsize (natToString n) = some n := by
  obtain ⟨c, rest, hc, hdigit, -⟩ := decimalDigits_head n
  have hsign := not_sign_of_isAsciiDigit hdigit
  have hvalue := digitsValue_decimalDigits n
  rw [hc] at hvalue
  simp only [parseUsize, parseU64Radix, natToString, String.toList_ofList, hc]
  split
  · rename_i heq
    exact absurd (List.cons.inj heq).1 hsign.2
  · simp [hvalue, hn]

theorem splitSign_of_isAsciiDigit {c : Char} {rest : List Char} (h : isAsciiDigit c = true) :
    splitSign (c :: rest) = (false, c :: rest) := by
  have hsign := not_sign_of_isAsciiDigit h
  unfold splitSign
  split
  · rename_i heq
    exact absurd (List.cons.inj heq).1 hsign.1
  · rename_i heq
    exact absurd (List.cons.inj heq).1 hsign.2
  · rfl

theorem checkI64_of_bounds {z : Int} (hmin : i64Min ≤ z) (hmax : z ≤ i64Max) :
    checkI64 z = some z :=
  if_pos ⟨hmin, hmax⟩

theorem checkI64_eq_some {z w : Int} (h : checkI64 z = some w) :
    w = z ∧ i64Min ≤ w ∧ w ≤ i64Max := by
  simp only [checkI64] at h
  split at h
  · rename_i hbounds
    obtain rfl : z = w := by simpa using h
    exact ⟨rfl, hbounds⟩
  · exact absurd h (by simp)

theorem parseI64_natToString {n : Nat} (hn : (n : Int) ≤ i64Max) :
    parseI64 (natToString n) = some (n : Int) := by
  obtain ⟨c, rest, hc, hdigit, -⟩ := decimalDigits_head n
  have hvalue := digitsValue_decimalDigits n
  rw [hc] at hvalue
  have hmin : i64Min ≤ (n : Int) := by simp only [i64Min]; omega
  simp [parseI64, natToString, hc, splitSign_of_isAsciiDigit hdigit, hvalue,
    checkI64_of_bounds hmin hn]

theorem parseI64_intToString {z : Int} (hmin : i64Min ≤ z) (hmax : z ≤ i64Max) :
    parseI64 (intToString z) = some z := by
  cases z with
  | ofNat n => exact parseI64_natToString hmax
  | negSucc n =>
      have hvalue := digitsValue_decimalDigits (n + 1)
      have hne := decimalDigits_ne_nil (n + 1)
      have hz : -((n + 1 : Nat) : Int) = Int.negSucc n := rfl
      have hcheck := checkI64_of_bounds hmin hmax
      simp only [parseI64, intToString, String.toList_ofList, splitSign, hvalue, if_true, hz, hcheck]
      simp [hne]

/-- A text that parses is within the bounds of `i64`. -/
theorem parseI64_bounds {s : String} {z : Int} (h : parseI64 s = some z) :
    i64Min ≤ z ∧ z ≤ i64Max := by
  simp only [parseI64] at h
  split at h
  · exact absurd h (by simp)
  · split at h
    · exact (checkI64_eq_some h).2
    · exact absurd h (by simp)

theorem intToString_injective {y z : Int} (h : intToString y = intToString z) : y = z := by
  have hdash : ∀ m n : Nat, natToString m ≠ String.ofList ('-' :: decimalDigits n) := by
    intro m n heq
    obtain ⟨c, rest, hc, hdigit, -⟩ := decimalDigits_head m
    have hlist := congrArg String.toList heq
    simp only [natToString, hc, String.toList_ofList] at hlist
    exact (not_sign_of_isAsciiDigit hdigit).1 (List.cons.inj hlist).1
  cases y with
  | ofNat m =>
      cases z with
      | ofNat n => exact congrArg Int.ofNat (natToString_injective h)
      | negSucc n => exact absurd h (hdash m (n + 1))
  | negSucc m =>
      cases z with
      | ofNat n => exact absurd h.symm (hdash n (m + 1))
      | negSucc n =>
          have hlist : decimalDigits (m + 1) = decimalDigits (n + 1) := by
            simpa [intToString] using congrArg String.toList h
          have := decimalDigits_injective hlist
          rw [Nat.succ.inj this]

end PhpantomLsp.Text
