import PhpantomLsp.Text.Float64
import PhpantomLsp.Text.PhpString

/-!
# Literal values

A literal keeps the text it was written with.  What it is worth at runtime is
read off that text: an integer in any of PHP's bases, a float, or the content
of a quoted string.  Two literals are equal when they are worth the same, and
a literal whose worth cannot be read is only equal to its own spelling.
-/

namespace PhpantomLsp

open Text

/-- The spelling of a literal, by its kind. -/
inductive LiteralValue where
  | int (raw : String)
  | float (raw : String)
  | string (raw : String)
  deriving DecidableEq, Repr

/-- The radix of an integer literal without its sign and underscores, and the
digits that follow the prefix. -/
def splitRadix : List Char → Nat × List Char
  | '0' :: 'x' :: rest => (16, rest)
  | '0' :: 'X' :: rest => (16, rest)
  | '0' :: 'b' :: rest => (2, rest)
  | '0' :: 'B' :: rest => (2, rest)
  | '0' :: 'o' :: rest => (8, rest)
  | '0' :: 'O' :: rest => (8, rest)
  | '0' :: c :: rest =>
      if (c :: rest).all (fun d => '0' ≤ d && d ≤ '7') then (8, c :: rest)
      else (10, '0' :: c :: rest)
  | clean => (10, clean)

/-- `parse_php_int_literal`.  The magnitude is read unsigned, so the smallest
integer is within range. -/
def parsePhpIntLiteral (raw : String) : Option Int :=
  let (negative, body) := splitSign (trim raw).toList
  let (radix, digits) := splitRadix (body.filter (· ≠ '_'))
  match digits with
  | c :: _ =>
      if isAsciiAlphanumeric c then
        (parseU64Radix radix digits).bind fun magnitude =>
          checkI64 (if negative then -(magnitude : Int) else magnitude)
      else none
  | [] => none

/-- `parse_php_float_literal`. -/
def parsePhpFloatLiteral (raw : String) : Option F64 :=
  let clean := String.ofList ((trim raw).toList.filter (· ≠ '_'))
  if clean = "" then none else parseF64 clean

/-- `u8::is_ascii_whitespace`. -/
def isAsciiWhitespace (c : Char) : Bool :=
  c = ' ' || c = '\t' || c = '\n' || c = '\r' || c.toNat = 0x0C

/-- The exponent of a numeric string, and nothing after it. -/
def isNumericTail : List Char → Bool
  | [] => true
  | c :: rest =>
      if c = 'e' ∨ c = 'E' then
        let digits := (splitSign rest).2
        !digits.isEmpty && digits.all isAsciiDigit
      else false

/-- `is_php_numeric_string`: PHP 8's grammar, which lets whitespace stand
around the number. -/
def isPhpNumericString (content : String) : Bool :=
  let chars := content.toList.dropWhile isAsciiWhitespace
  let chars := (chars.reverse.dropWhile isAsciiWhitespace).reverse
  let (whole, rest) := spanDigits (splitSign chars).2
  let (fraction, rest) := match rest with
    | '.' :: rest => spanDigits rest
    | _ => ([], rest)
  !(whole.isEmpty && fraction.isEmpty) && isNumericTail rest

namespace LiteralValue

/-- The literal of an already quoted value. -/
def stringValue (value : String) : LiteralValue := .string (quotePhpString value)

def stringContent : LiteralValue → Option String
  | .string raw =>
      some ((decodePhpStringLiteral raw).getD ((unquotePhpString raw).getD raw))
  | _ => none

def parseInt : LiteralValue → Option Int
  | .int raw => parsePhpIntLiteral raw
  | _ => none

def parseFloat : LiteralValue → Option F64
  | .float raw => parsePhpFloatLiteral raw
  | _ => none

def isNumericString (value : LiteralValue) : Bool :=
  value.stringContent.any isPhpNumericString

end LiteralValue

/-- `literals_equal`. -/
def literalsEqual (left right : LiteralValue) : Bool :=
  left == right ||
    match left, right with
    | .int leftRaw, .int rightRaw =>
        match left.parseInt, right.parseInt with
        | some left, some right => left == right
        | _, _ => leftRaw == rightRaw
    | .float leftRaw, .float rightRaw =>
        match left.parseFloat, right.parseFloat with
        | some left, some right => left.eq right
        | _, _ => leftRaw == rightRaw
    | .string leftRaw, .string rightRaw =>
        match left.stringContent, right.stringContent with
        | some left, some right => left == right
        | _, _ => leftRaw == rightRaw
    | _, _ => false

/-! ## What equality of literals means -/

attribute [local simp] literalsEqual

@[simp] theorem literalsEqual_self (value : LiteralValue) : literalsEqual value value = true := by
  simp [literalsEqual]

@[simp] theorem literalsEqual_int {a b : String} :
    literalsEqual (.int a) (.int b) = true ↔
      a = b ∨ (∃ z, parsePhpIntLiteral a = some z ∧ parsePhpIntLiteral b = some z) := by
  simp only [literalsEqual, LiteralValue.parseInt, Bool.or_eq_true, beq_iff_eq,
    LiteralValue.int.injEq]
  cases ha : parsePhpIntLiteral a <;> cases hb : parsePhpIntLiteral b <;> simp
  rename_i y z
  exact ⟨fun h => h.imp id Eq.symm, fun h => h.imp id Eq.symm⟩

@[simp] theorem literalsEqual_float {a b : String} :
    literalsEqual (.float a) (.float b) = true ↔
      a = b ∨ (∃ x y, parsePhpFloatLiteral a = some x ∧ parsePhpFloatLiteral b = some y ∧
        x.eq y = true) := by
  simp only [literalsEqual, LiteralValue.parseFloat, Bool.or_eq_true, beq_iff_eq,
    LiteralValue.float.injEq]
  cases parsePhpFloatLiteral a <;> cases parsePhpFloatLiteral b <;> simp

@[simp] theorem literalsEqual_string {a b : String} :
    literalsEqual (.string a) (.string b) = true ↔
      (LiteralValue.string a).stringContent = (LiteralValue.string b).stringContent := by
  simp only [literalsEqual, LiteralValue.stringContent, Bool.or_eq_true, beq_iff_eq,
    LiteralValue.string.injEq, Option.some.injEq]
  constructor
  · rintro (rfl | h)
    · rfl
    · exact h
  · exact .inr

theorem literalsEqual_symm {a b : LiteralValue} (h : literalsEqual a b = true) :
    literalsEqual b a = true := by
  cases a <;> cases b <;> try (simp [literalsEqual] at h; done)
  case int.int a b =>
      rw [literalsEqual_int] at *
      rcases h with rfl | ⟨z, ha, hb⟩
      · exact .inl rfl
      · exact .inr ⟨z, hb, ha⟩
  case float.float a b =>
      rw [literalsEqual_float] at *
      rcases h with rfl | ⟨x, y, hx, hy, hxy⟩
      · exact .inl rfl
      · exact .inr ⟨y, x, hy, hx, F64.eq_symm hxy⟩
  case string.string a b =>
      rw [literalsEqual_string] at *
      exact h.symm

theorem literalsEqual_trans {a b c : LiteralValue} (hab : literalsEqual a b = true)
    (hbc : literalsEqual b c = true) : literalsEqual a c = true := by
  cases a <;> cases b <;> try (simp [literalsEqual] at hab; done)
  case int.int a b =>
      cases c <;> try (simp [literalsEqual] at hbc; done)
      rw [literalsEqual_int] at *
      rcases hab with rfl | ⟨z, ha, hb⟩
      · exact hbc
      · rcases hbc with rfl | ⟨z', hb', hc⟩
        · exact .inr ⟨z, ha, hb⟩
        · obtain rfl : z = z' := by simpa using hb.symm.trans hb'
          exact .inr ⟨z, ha, hc⟩
  case float.float a b =>
      cases c <;> try (simp [literalsEqual] at hbc; done)
      rw [literalsEqual_float] at *
      rcases hab with rfl | ⟨x, y, hx, hy, hxy⟩
      · exact hbc
      · rcases hbc with rfl | ⟨y', z, hy', hz, hyz⟩
        · exact .inr ⟨x, y, hx, hy, hxy⟩
        · obtain rfl : y = y' := by simpa using hy.symm.trans hy'
          exact .inr ⟨x, z, hx, hz, F64.eq_trans hxy hyz⟩
  case string.string a b =>
      cases c <;> try (simp [literalsEqual] at hbc; done)
      rw [literalsEqual_string] at *
      exact hab.trans hbc

theorem stringContent_stringValue (value : String) :
    (LiteralValue.stringValue value).stringContent = some value := by
  simp [LiteralValue.stringValue, LiteralValue.stringContent,
    decodePhpStringLiteral_quotePhpString]

end PhpantomLsp
