import PhpantomLsp.PhpType.Basic
import Mathlib.Data.Int.Bitwise

/-!
# Folding a constant expression

A constant expression is folded on its text.  The text is split at the last
occurrence of the loosest operator in it, the two sides are folded on their own, and
a text without an operator is a sign, an integer literal or a term that a resolver
is asked about.  What the scan for an operator passes over is quoted text, comments
and anything in brackets.
-/

namespace PhpantomLsp.Folding

open PhpantomLsp.Text

/-! ## Text that is passed over -/

/-- How many characters the comment has that the text starts with (`skip_php_comment`). -/
def blockCommentLen : List Char → Nat
  | '*' :: '/' :: _ => 2
  | _ :: rest => 1 + blockCommentLen rest
  | [] => 0

def skipPhpComment : List Char → Option Nat
  | '#' :: '[' :: _ => none
  | '#' :: rest => some (1 + (rest.takeWhile (· ≠ '\n')).length)
  | '/' :: '/' :: rest => some (2 + (rest.takeWhile (· ≠ '\n')).length)
  | '/' :: '*' :: rest => some (2 + blockCommentLen rest)
  | _ => none

def isQuote (c : Char) : Bool := c == '\'' || c == '"'

def isOpening (c : Char) : Bool := c == '(' || c == '[' || c == '{'

def isClosing (c : Char) : Bool := c == ')' || c == ']' || c == '}'

/-- `u8::is_ascii_whitespace` -/
def isAsciiBlank (c : Char) : Bool := [' ', '\t', '\n', '\r', '\x0c'].contains c

def trim (text : List Char) : List Char :=
  ((text.dropWhile isWhitespace).reverse.dropWhile isWhitespace).reverse

/-- `find_unmatched_close_bytes` for parentheses: where the one that is still open
closes, counted from `pos`; `skip` characters are passed over first. -/
def findUnmatchedClose : (pos : Nat) → List Char → (skip depth : Nat) → Option Nat
  | _, [], _, _ => none
  | pos, _ :: rest, skip + 1, depth => findUnmatchedClose (pos + 1) rest skip depth
  | pos, c :: rest, 0, depth =>
      match skipPhpComment (c :: rest) with
      | some n => findUnmatchedClose (pos + 1) rest (n - 1) depth
      | none =>
          if isQuote c then findUnmatchedClose (pos + 1) rest (skipStringForward c rest) depth
          else if c = '(' then findUnmatchedClose (pos + 1) rest 0 (depth + 1)
          else if c = ')' then
            if depth = 0 then some pos else findUnmatchedClose (pos + 1) rest 0 (depth - 1)
          else findUnmatchedClose (pos + 1) rest 0 depth

/-- A pair of parentheses wraps the whole text. -/
def isWrapped : List Char → Bool
  | '(' :: rest => findUnmatchedClose 1 rest 0 0 == some rest.length
  | _ => false

/-- The loop of `strip_wrapping_parens`; no text has more pairs than characters. -/
def stripWrapping : Nat → List Char → List Char
  | 0, text => text
  | n + 1, text =>
      if isWrapped text then stripWrapping n (trim (text.drop 1).dropLast) else text

def stripWrappingParens (text : List Char) : List Char := stripWrapping text.length text

/-! ## Operators -/

inductive BitwiseOp where
  | and
  | or
  | xor
  | leftShift
  | rightShift
  deriving DecidableEq

/-- An operator an expression is split at. -/
inductive IntOp where
  | bitwise (op : BitwiseOp)
  | add
  | sub
  | mul
  | div
  | mod
  deriving DecidableEq

/-- The 64 bits of an integer. -/
def bits (z : Int) : BitVec 64 := BitVec.ofInt 64 z

def applyBitwise (op : BitwiseOp) (lhs rhs : Int) : Option Int :=
  match op with
  | .and => some (bits lhs &&& bits rhs).toInt
  | .or => some (bits lhs ||| bits rhs).toInt
  | .xor => some (bits lhs ^^^ bits rhs).toInt
  | .leftShift =>
      if rhs < 0 then none
      else if 64 ≤ rhs then some 0
      else some (bits lhs <<< rhs.toNat).toInt
  | .rightShift =>
      if rhs < 0 then none
      else if 64 ≤ rhs then some (if lhs < 0 then -1 else 0)
      else some ((bits lhs).sshiftRight rhs.toNat).toInt

/-- `i64::checked_rem` -/
def checkedRem (lhs rhs : Int) : Option Int :=
  if rhs = 0 ∨ (lhs = i64Min ∧ rhs = -1) then none else some (lhs.tmod rhs)

/-- `i64::checked_div` -/
def checkedDiv (lhs rhs : Int) : Option Int :=
  if rhs = 0 then none else checkI64 (lhs.tdiv rhs)

namespace IntOp

def precedence : IntOp → Nat
  | .bitwise .or => 0
  | .bitwise .xor => 1
  | .bitwise .and => 2
  | .bitwise .leftShift | .bitwise .rightShift => 3
  | .add | .sub => 4
  | .mul | .div | .mod => 5

def apply (op : IntOp) (lhs rhs : Int) : Option Int :=
  match op with
  | .bitwise op => applyBitwise op lhs rhs
  | .add => checkI64 (lhs + rhs)
  | .sub => checkI64 (lhs - rhs)
  | .mul => checkI64 (lhs * rhs)
  | .div => (checkedRem lhs rhs).bind fun r => if r = 0 then checkedDiv lhs rhs else none
  | .mod => checkedRem lhs rhs

end IntOp

/-! ## Where an expression is split -/

/-- The code in front, last character first, ends an operand (`follows_operand`). -/
def followsOperand (before : List Char) : Bool :=
  match before.find? fun c => !isAsciiBlank c with
  | some c =>
      isAsciiAlphanumeric c || ['_', '$', '\\', ')', ']', '}', '\'', '"'].contains c
  | none => false

/-- The operator at a character, with its length. -/
def intOpAt (before : List Char) (c : Char) (next : Option Char) : Option (Nat × IntOp) :=
  match c with
  | '|' => some (1, .bitwise .or)
  | '^' => some (1, .bitwise .xor)
  | '&' => some (1, .bitwise .and)
  | '<' => if next = some '<' then some (2, .bitwise .leftShift) else none
  | '>' => if next = some '>' then some (2, .bitwise .rightShift) else none
  | '+' => if followsOperand before then some (1, .add) else none
  | '-' => if followsOperand before then some (1, .sub) else none
  | '*' => some (1, .mul)
  | '/' => some (1, .div)
  | '%' => some (1, .mod)
  | _ => none

/-- The split found so far: the index of the operator, its length, and the operator. -/
abbrev Best := Option (Nat × Nat × IntOp)

/-- `||`, `&&`, `**` and `->` are none of the operators. -/
def isPair (c : Char) (next : Option Char) : Bool :=
  ((c == '|' || c == '&' || c == '*') && next == some c) || (c == '-' && next == some '>')

/-- What the visitor of `split_point` makes of a character: how far it steps, and the
split. -/
def visit (before : List Char) (c : Char) (next : Option Char) (best : Best) : Nat × Best :=
  if isPair c next then (2, best)
  else
    match intOpAt before c next with
    | none => (1, best)
    | some (opLen, op) =>
        if best.all fun (_, _, found) => op.precedence ≤ found.precedence then
          (opLen, some (before.length, opLen, op))
        else (opLen, best)

/-- `scan_top_level` with the visitor of `split_point`; `before` is what is passed,
last character first. -/
def scanTopLevel : (before : List Char) → List Char → (skip depth : Nat) → Best → Best
  | _, [], _, _, best => best
  | before, c :: rest, skip + 1, depth, best => scanTopLevel (c :: before) rest skip depth best
  | before, c :: rest, 0, depth, best =>
      match skipPhpComment (c :: rest) with
      | some n => scanTopLevel (c :: before) rest (n - 1) depth best
      | none =>
          if isQuote c then scanTopLevel (c :: before) rest (skipStringForward c rest) depth best
          else if isOpening c then scanTopLevel (c :: before) rest 0 (depth + 1) best
          else if isClosing c then scanTopLevel (c :: before) rest 0 (depth - 1) best
          else if 0 < depth then scanTopLevel (c :: before) rest 0 depth best
          else
            let (step, best) := visit before c rest.head? best
            scanTopLevel (c :: before) rest (step - 1) 0 best

def splitPoint (text : List Char) : Best := scanTopLevel [] text 0 0 none

/-! ## The fold -/

/-- `literal_int_value` -/
def literalIntValue (ty : PhpType) : Option Int := ty.asLiteral.bind LiteralValue.parseInt

section

variable (resolve : List Char → Option PhpType)

/-- A single operand, with what its operand folds to. -/
def foldTerm (fold : List Char → Option Int) (text : List Char) : Option Int :=
  match text with
  | [] => none
  | '~' :: rest => (fold rest).map fun value => -value - 1
  | '-' :: rest => (fold rest).bind fun value => checkI64 (-value)
  | '+' :: rest => fold rest
  | text =>
      match parsePhpIntLiteral (String.ofList text) with
      | some value => some value
      | none => (resolve text).bind literalIntValue

/-- `fold_int_expression`, as deep as `fuel`. -/
def foldWith : (fuel : Nat) → List Char → Option Int
  | 0, _ => none
  | fuel + 1, text =>
      let text := stripWrappingParens (trim text)
      match splitPoint text with
      | some (index, opLen, op) =>
          (foldWith fuel (text.take index)).bind fun lhs =>
            (foldWith fuel (text.drop (index + opLen))).bind fun rhs => op.apply lhs rhs
      | none => foldTerm resolve (foldWith fuel) text

/-- `fold_int_expression`: each call is on a shorter text. -/
def foldIntExpression (text : List Char) : Option Int := foldWith resolve (text.length + 1) text

end

example : foldIntExpression (fun _ => none) "1 << 2 | (9 - 2 - 3) / 2".toList = some 6 := by
  decide +kernel

end PhpantomLsp.Folding
