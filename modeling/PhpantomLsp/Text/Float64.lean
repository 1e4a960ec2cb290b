import PhpantomLsp.Text.Numbers

/-!
# Binary floating-point numbers

As much of `f64` as the reading of a PHP float literal needs: the number a
decimal text denotes, rounded to nearest with ties to even, `==`, and the
bits.  A number is kept as its three bit fields, so `to_bits` loses nothing
and structural equality is equality of bits.
-/

namespace PhpantomLsp.Text

/-- The fields of an `f64`: its sign, its 11 exponent bits and its 52
fraction bits. -/
structure F64 where
  negative : Bool
  exponent : Nat
  fraction : Nat
  deriving DecidableEq, Repr

namespace F64

/-- `f64::is_nan`. -/
def isNan (x : F64) : Bool := x.exponent = 2047 && x.fraction ≠ 0

/-- Either zero. -/
def isZero (x : F64) : Bool := x.exponent = 0 && x.fraction = 0

/-- `f64`'s `==`: a NaN equals nothing, and the two zeros are equal. -/
def eq (x y : F64) : Bool := !x.isNan && !y.isNan && (x == y || (x.isZero && y.isZero))

/-- The bits a float is hashed by: `0` for both zeros, `to_bits` else. -/
def hashBits (x : F64) : Nat :=
  if x.isZero then 0
  else (if x.negative then 2 ^ 63 else 0) + x.exponent * 2 ^ 52 + x.fraction

def infinity (negative : Bool) : F64 := ⟨negative, 2047, 0⟩

def nan (negative : Bool) : F64 := ⟨negative, 2047, 2 ^ 51⟩

/-- `num / den` rounded to the nearest natural number, ties to even. -/
def roundHalfEven (num den : Nat) : Nat :=
  let q := num / den
  let r := num % den
  if 2 * r < den then q
  else if den < 2 * r then q + 1
  else if q % 2 = 0 then q else q + 1

/-- The float nearest to `num / den`, for `den ≠ 0`.

`e` is the exponent of the unit in the last place: the quotient is scaled by
`2 ^ (-e)` before it is rounded to at most 53 bits, and `e` never goes below
the exponent of the subnormal numbers. -/
def ofRatio (negative : Bool) (num den : Nat) : F64 :=
  if num = 0 then ⟨negative, 0, 0⟩
  else
    let guess : Int := (Nat.log2 num : Int) - (Nat.log2 den : Int) - 52
    -- the guess is one too large when the quotient is below its power of two
    let tooLarge : Bool :=
      num * 2 ^ (-guess).toNat < den * 2 ^ guess.toNat * 2 ^ 52
    let e : Int := max (if tooLarge then guess - 1 else guess) (-1074)
    let mant := roundHalfEven (num * 2 ^ (-e).toNat) (den * 2 ^ e.toNat)
    let (mant, e) := if mant = 2 ^ 53 then (2 ^ 52, e + 1) else (mant, e)
    if 971 < e then infinity negative
    else if mant < 2 ^ 52 then ⟨negative, 0, mant⟩
    else ⟨negative, (e + 1075).toNat, mant - 2 ^ 52⟩

/-- The float nearest to `digits × 10 ^ exponent`.  A decimal exponent far out
of range settles the answer, and is not computed with. -/
def ofDecimal (negative : Bool) (digits : Nat) (exponent : Int) : F64 :=
  if digits = 0 then ⟨negative, 0, 0⟩
  else if 400 < (decimalDigits digits).length + exponent then infinity negative
  else if (decimalDigits digits).length + exponent < -400 then ⟨negative, 0, 0⟩
  else ofRatio negative (digits * 10 ^ exponent.toNat) (10 ^ (-exponent).toNat)

end F64

/-- The decimal digits a text begins with, and what follows them. -/
def spanDigits (chars : List Char) : List Char × List Char := chars.span isAsciiDigit

/-- An optional exponent: its value and what follows it, or `none` where an
`e` is not followed by digits. -/
def parseExponent : List Char → Option (Int × List Char)
  | c :: rest =>
      if c = 'e' ∨ c = 'E' then
        let (negative, body) := splitSign rest
        let (digits, after) := spanDigits body
        if digits.isEmpty then none
        else
          (digitsValue 10 0 digits).map fun n => (if negative then -(n : Int) else n, after)
      else some (0, c :: rest)
  | [] => some (0, [])

/-- `str::parse::<f64>`. -/
def parseF64 (s : String) : Option F64 :=
  let (negative, body) := splitSign s.toList
  let word := asciiLower (String.ofList body)
  if word = "inf" ∨ word = "infinity" then some (F64.infinity negative)
  else if word = "nan" then some (F64.nan negative)
  else
    let (whole, rest) := spanDigits body
    let (fraction, rest) := match rest with
      | '.' :: rest => spanDigits rest
      | _ => ([], rest)
    if whole.isEmpty && fraction.isEmpty then none
    else
      (parseExponent rest).bind fun (exponent, after) =>
        if after.isEmpty then
          (digitsValue 10 0 (whole ++ fraction)).map fun digits =>
            F64.ofDecimal negative digits (exponent - fraction.length)
        else none

/-! ## Equality of floats -/

namespace F64

theorem eq_symm {x y : F64} (h : x.eq y = true) : y.eq x = true := by
  simp only [eq, Bool.and_eq_true, Bool.or_eq_true, beq_iff_eq] at h ⊢
  obtain ⟨⟨hx, hy⟩, hxy⟩ := h
  exact ⟨⟨hy, hx⟩, hxy.imp Eq.symm And.symm⟩

theorem eq_trans {x y z : F64} (hxy : x.eq y = true) (hyz : y.eq z = true) : x.eq z = true := by
  simp only [eq, Bool.and_eq_true, Bool.or_eq_true, beq_iff_eq] at hxy hyz ⊢
  obtain ⟨⟨hx, -⟩, hxy⟩ := hxy
  obtain ⟨⟨-, hz⟩, hyz⟩ := hyz
  refine ⟨⟨hx, hz⟩, ?_⟩
  rcases hxy with rfl | ⟨hx0, hy0⟩
  · exact hyz
  · rcases hyz with rfl | ⟨-, hz0⟩
    · exact .inr ⟨hx0, hy0⟩
    · exact .inr ⟨hx0, hz0⟩

/-- Equal floats are hashed by the same bits. -/
theorem hashBits_of_eq {x y : F64} (h : x.eq y = true) : x.hashBits = y.hashBits := by
  simp only [eq, Bool.and_eq_true, Bool.or_eq_true, beq_iff_eq] at h
  rcases h.2 with rfl | ⟨hx, hy⟩
  · rfl
  · simp [hashBits, hx, hy]

theorem not_isNan_of_eq {x y : F64} (h : x.eq y = true) : x.isNan = false ∧ y.isNan = false := by
  simp only [eq, Bool.and_eq_true, Bool.not_eq_true'] at h
  exact h.1

theorem eq_self {x : F64} (h : x.isNan = false) : x.eq x = true := by
  simp [eq, h]

end F64

end PhpantomLsp.Text
