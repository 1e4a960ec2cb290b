import PhpantomLsp.Folding.ConstFold

/-!
# Constant expressions and their values

A constant expression as PHP's grammar reads its text: operators by their level, with
the text between the tokens kept, so that every tree has one text.  Its value is
defined where integers decide it; what the rest of the language does (the value of a
name, the result of an operator on anything but integers, floats) is left open
(`Php`), since nothing that is folded depends on it.
-/

namespace PhpantomLsp.Folding

open PhpantomLsp.Text

/-! ## Integer literals -/

/-- How an integer literal is written; `upper` is the case of its marker. -/
inductive IntForm where
  | decimal
  /-- A leading zero. -/
  | octal
  | hexadecimal (upper : Bool)
  | explicitOctal (upper : Bool)
  | binary (upper : Bool)
  deriving DecidableEq

namespace IntForm

def marker : IntForm → List Char
  | .decimal | .octal => []
  | .hexadecimal upper => ['0', if upper then 'X' else 'x']
  | .explicitOctal upper => ['0', if upper then 'O' else 'o']
  | .binary upper => ['0', if upper then 'B' else 'b']

def base : IntForm → Nat
  | .decimal => 10
  | .octal | .explicitOctal _ => 8
  | .hexadecimal _ => 16
  | .binary _ => 2

def isDigit (form : IntForm) (c : Char) : Bool := (digitValue c).any (· < form.base)

/-- A leading zero makes a literal octal. -/
def FirstDigit (form : IntForm) (digits : List Char) : Prop :=
  match form with
  | .decimal => digits.head? = some '0' → digits = ['0']
  | .octal => digits.head? = some '0' ∧ 1 < digits.length
  | _ => True

end IntForm

/-- An integer literal: groups of digits, with an underscore between two of them. -/
structure IntLiteral where
  form : IntForm
  groups : List (List Char)
  groups_ne_nil : groups ≠ []
  group_ne_nil : ∀ group ∈ groups, group ≠ []
  digits : ∀ c ∈ groups.flatten, form.isDigit c = true
  first : form.FirstDigit groups.flatten

namespace IntLiteral

def text (lit : IntLiteral) : List Char := lit.form.marker ++ ['_'].intercalate lit.groups

def value (lit : IntLiteral) : Nat := (digitsValue lit.form.base 0 lit.groups.flatten).getD 0

end IntLiteral

/-! ## Operators -/

inductive UnaryOp where
  | bitNot
  | neg
  | plus
  | not
  | cast (type : List Char)

inductive BinaryOp where
  | int (op : IntOp)
  | pow
  | instanceOf
  | concat
  | less
  | lessEqual
  | greater
  | greaterEqual
  | equal
  | notEqual
  | lessGreater
  | identical
  | notIdentical
  | spaceship
  | booleanAnd
  | booleanOr
  | coalesce
  | wordAnd
  | wordXor
  | wordOr

def IntOp.text : IntOp → List Char
  | .bitwise .and => ['&']
  | .bitwise .or => ['|']
  | .bitwise .xor => ['^']
  | .bitwise .leftShift => ['<', '<']
  | .bitwise .rightShift => ['>', '>']
  | .add => ['+']
  | .sub => ['-']
  | .mul => ['*']
  | .div => ['/']
  | .mod => ['%']

def UnaryOp.text : UnaryOp → List Char
  | .bitNot => ['~']
  | .neg => ['-']
  | .plus => ['+']
  | .not => ['!']
  | .cast type => ['('] ++ type ++ [')']

def BinaryOp.text : BinaryOp → List Char
  | .int op => op.text
  | .pow => "**".toList
  | .instanceOf => "instanceof".toList
  | .concat => ".".toList
  | .less => "<".toList
  | .lessEqual => "<=".toList
  | .greater => ">".toList
  | .greaterEqual => ">=".toList
  | .equal => "==".toList
  | .notEqual => "!=".toList
  | .lessGreater => "<>".toList
  | .identical => "===".toList
  | .notIdentical => "!==".toList
  | .spaceship => "<=>".toList
  | .booleanAnd => "&&".toList
  | .booleanOr => "||".toList
  | .coalesce => "??".toList
  | .wordAnd => "and".toList
  | .wordXor => "xor".toList
  | .wordOr => "or".toList

/-- How tightly an operator binds; a conditional expression is at 3, a term at 20. -/
def IntOp.level : IntOp → Nat
  | .bitwise .or => 7
  | .bitwise .xor => 8
  | .bitwise .and => 9
  | .bitwise .leftShift | .bitwise .rightShift => 13
  | .add | .sub => 14
  | .mul | .div | .mod => 15

def UnaryOp.level : UnaryOp → Nat
  | .not => 16
  | _ => 18

def BinaryOp.level : BinaryOp → Nat
  | .wordOr => 0
  | .wordXor => 1
  | .wordAnd => 2
  | .coalesce => 4
  | .booleanOr => 5
  | .booleanAnd => 6
  | .int op => op.level
  | .equal | .notEqual | .lessGreater | .identical | .notIdentical | .spaceship => 10
  | .less | .lessEqual | .greater | .greaterEqual => 11
  | .concat => 12
  | .instanceOf => 17
  | .pow => 19

/-- The least level an operand may have on the left, and on the right. -/
def BinaryOp.operandLevels : BinaryOp → Nat × Nat
  | .pow => (20, 19)
  | .coalesce => (5, 4)
  | op@(.equal) | op@(.notEqual) | op@(.lessGreater) | op@(.identical) | op@(.notIdentical)
  | op@(.spaceship) | op@(.less) | op@(.lessEqual) | op@(.greater) | op@(.greaterEqual)
  | op@(.instanceOf) => (op.level + 1, op.level + 1)
  | op => (op.level, op.level + 1)

/-! ## Trees -/

/-- A constant expression, with the text between its tokens. -/
inductive Expr where
  | int (lit : IntLiteral)
  /-- What PHP reads as one operand: a name, a member access, a call, quoted text. -/
  | term (text : List Char)
  | paren (before : List Char) (inner : Expr) (after : List Char)
  | unary (op : UnaryOp) (gap : List Char) (operand : Expr)
  | binary (left : Expr) (before : List Char) (op : BinaryOp) (after : List Char) (right : Expr)
  | conditional (condition : Expr) (gap₁ gap₂ : List Char) (yes : Expr) (gap₃ gap₄ : List Char)
      (no : Expr)
  | elvis (condition : Expr) (before after : List Char) (no : Expr)
  /-- With comments around it. -/
  | commented (before : List Char) (inner : Expr) (after : List Char)

namespace Expr

def text : Expr → List Char
  | .int lit => lit.text
  | .term text => text
  | .paren before inner after => '(' :: (before ++ inner.text ++ after) ++ [')']
  | .unary op gap operand => op.text ++ gap ++ operand.text
  | .binary left before op after right => left.text ++ before ++ op.text ++ after ++ right.text
  | .conditional condition gap₁ gap₂ yes gap₃ gap₄ no =>
      condition.text ++ gap₁ ++ ['?'] ++ gap₂ ++ yes.text ++ gap₃ ++ [':'] ++ gap₄ ++ no.text
  | .elvis condition before after no => condition.text ++ before ++ ['?', ':'] ++ after ++ no.text
  | .commented before inner after => before ++ inner.text ++ after

def level : Expr → Nat
  | .int _ | .term _ | .paren .. => 20
  | .unary op _ _ => op.level
  | .binary _ _ op _ _ => op.level
  | .conditional .. | .elvis .. => 3
  | .commented _ inner _ => inner.level

/-- A prefix operator takes what follows it, however loosely it binds itself. -/
def isUnary : Expr → Bool
  | .unary .. => true
  | .commented _ inner _ => inner.isUnary
  | _ => false

/-- The tree is the one PHP's levels give. -/
def Grouped : Expr → Prop
  | .int _ | .term _ => True
  | .paren _ inner _ => inner.Grouped
  | .commented _ inner _ => inner.Grouped
  | .unary op _ operand => operand.Grouped ∧ (op.level ≤ operand.level ∨ operand.isUnary)
  | .binary left _ op _ right =>
      left.Grouped ∧ right.Grouped ∧ op.operandLevels.1 ≤ left.level ∧
        (op.operandLevels.2 ≤ right.level ∨ right.isUnary)
  | .conditional condition _ _ yes _ _ no =>
      condition.Grouped ∧ yes.Grouped ∧ no.Grouped ∧ 3 < condition.level ∧
        (3 < no.level ∨ no.isUnary)
  | .elvis condition _ _ no =>
      condition.Grouped ∧ no.Grouped ∧ 3 < condition.level ∧ (3 < no.level ∨ no.isUnary)

end Expr

/-! ## Values -/

/-- A value: an integer, or anything else. -/
inductive Value (α : Type) where
  | int (n : Int)
  | other (a : α)
  deriving DecidableEq

/-- What the language does beyond integers. -/
structure Php (α : Type) where
  /-- The value of an operand. -/
  term : List Char → Option (Value α)
  /-- An integer literal that is too large is a float. -/
  float : Nat → α
  /-- What an operator gives for integers where that is not an integer; none for an error. -/
  inexact : IntOp → Int → Int → Option α
  /-- The negative of the least integer. -/
  overflow : Int → α
  unary : UnaryOp → Value α → Option (Value α)
  binary : BinaryOp → Option (Value α) → Option (Value α) → Option (Value α)
  conditional : Option (Value α) → Option (Value α) → Option (Value α) → Option (Value α)
  elvis : Option (Value α) → Option (Value α) → Option (Value α)

/-- The integer an operator gives for two integers, in 64 bits. -/
def IntOp.result (op : IntOp) (lhs rhs : Int) : Option Int :=
  match op with
  | .bitwise .and => some (bits lhs &&& bits rhs).toInt
  | .bitwise .or => some (bits lhs ||| bits rhs).toInt
  | .bitwise .xor => some (bits lhs ^^^ bits rhs).toInt
  | .bitwise .leftShift => if rhs < 0 then none else some (bits (lhs * 2 ^ rhs.toNat)).toInt
  | .bitwise .rightShift => if rhs < 0 then none else some (lhs / 2 ^ rhs.toNat)
  | .add => checkI64 (lhs + rhs)
  | .sub => checkI64 (lhs - rhs)
  | .mul => checkI64 (lhs * rhs)
  | .div => if rhs ≠ 0 ∧ rhs ∣ lhs then checkI64 (lhs / rhs) else none
  | .mod => if rhs = 0 then none else some (lhs.tmod rhs)

namespace Php

variable {α : Type} (php : Php α)

def intValue (z : Option Int) (other : Option α) : Option (Value α) :=
  match z with
  | some n => some (.int n)
  | none => other.map .other

def applyUnary (op : UnaryOp) : Option (Value α) → Option (Value α)
  | none => none
  | some (.int n) =>
      match op with
      | .bitNot => some (.int (-n - 1))
      | .neg => intValue (checkI64 (-n)) (some (php.overflow n))
      | .plus => some (.int n)
      | op => php.unary op (.int n)
  | some value => php.unary op value

def applyBinary (op : BinaryOp) (lhs rhs : Option (Value α)) : Option (Value α) :=
  match op, lhs, rhs with
  | .int op, some (.int a), some (.int b) => intValue (op.result a b) (php.inexact op a b)
  | op, lhs, rhs => php.binary op lhs rhs

/-- The value of an expression; none where evaluating it is an error. -/
def eval : Expr → Option (Value α)
  | .int lit => intValue (checkI64 lit.value) (some (php.float lit.value))
  | .term text => php.term text
  | .paren _ inner _ => eval inner
  | .commented _ inner _ => eval inner
  | .unary op _ operand => php.applyUnary op (eval operand)
  | .binary left _ op _ right => php.applyBinary op (eval left) (eval right)
  | .conditional condition _ _ yes _ _ no => php.conditional (eval condition) (eval yes) (eval no)
  | .elvis condition _ _ no => php.elvis (eval condition) (eval no)

end Php

end PhpantomLsp.Folding
