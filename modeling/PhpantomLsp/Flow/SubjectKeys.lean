import PhpantomLsp.Flow.KeyReads

/-!
# The keys of subjects

An expression that is the same read each time it is written has a subject key, a
text under which what a check proved about it is kept.  A key is built from the
keys of the parts: a chain from its base outward, a call with its arguments, an
element with its index.
-/

namespace PhpantomLsp.Flow

open Text

/-! ## Expressions -/

/-- A piece of source text all of whose characters are allowed. -/
structure Written (allowed : Char → Bool) where
  text : String
  isWritten : text.toList.all allowed = true
  deriving DecidableEq

def isQualifiedChar (c : Char) : Bool := isNameChar c || c == '\\'

def isNumberChar (c : Char) : Bool := isNameChar c || c == '.' || c == '+' || c == '-'

/-- An identifier. -/
abbrev Name := Written isNameChar

/-- An identifier in a namespace. -/
abbrev QualifiedName := Written isQualifiedChar

/-- A variable that is named, `$name`. -/
structure VariableName where
  name : Name
  nonempty : name.text ≠ ""
  deriving DecidableEq

def VariableName.text (v : VariableName) : String := "$" ++ v.name.text

/-- A variable that is not `direct` is named by an expression. -/
inductive Variable where
  | direct (name : VariableName)
  | computed
  deriving DecidableEq

/-- What stands after `->` or `::`; a selector that is no identifier is computed. -/
inductive MemberSelector where
  | identifier (name : Name)
  | computed
  deriving DecidableEq

/-- A string literal.  The parser may have decoded it to bytes, which need not be
UTF-8. -/
structure StringLiteral where
  raw : String
  value : Option (Option String)
  deriving DecidableEq

/-- An integer literal, without a value where it is too large. -/
structure IntegerLiteral where
  raw : Name
  value : Option Nat
  deriving DecidableEq

inductive Literal where
  | string (s : StringLiteral)
  | integer (i : IntegerLiteral)
  | float (raw : Written isNumberChar)
  | true
  | false
  | null
  deriving DecidableEq

inductive UnaryPrefixOperator where
  | negation
  | plus
  | stringCast
  | binaryCast
  | intCast
  | integerCast
  | floatCast
  | doubleCast
  | realCast
  | boolCast
  | booleanCast
  | other
  deriving DecidableEq

inductive BinaryOperator where
  | addition
  | subtraction
  | multiplication
  | division
  | modulo
  | exponentiation
  | other
  deriving DecidableEq

mutual

/-- The expressions the key functions tell apart. -/
inductive Expression where
  | variable (v : Variable)
  | property (object : Expression) (nullSafe : Bool) (property : MemberSelector)
  | methodCall (object : Expression) (nullSafe : Bool) (method : MemberSelector)
      (arguments : ArgumentList)
  | staticProperty (cls : Expression) (property : Variable)
  | classConstant (cls : Expression) (constant : MemberSelector)
  | staticCall (cls : Expression) (method : MemberSelector) (arguments : ArgumentList)
  | functionCall (function : Expression) (arguments : ArgumentList)
  | arrayAccess (array index : Expression)
  | identifier (name : QualifiedName)
  | self
  | static
  | parent
  | constantAccess (name : QualifiedName)
  | unaryPrefix (operator : UnaryPrefixOperator) (operand : Expression)
  | binary (lhs : Expression) (operator : BinaryOperator) (rhs : Expression)
  | parenthesized (expression : Expression)
  | assignment (lhs rhs : Expression)
  | literal (value : Literal)
  | other

inductive ArgumentList where
  | nil
  | positional (ellipsis : Bool) (value : Expression) (rest : ArgumentList)
  | named (name : Name) (value : Expression) (rest : ArgumentList)

end

/-! ## Literals -/

/-- `skip_string_forward`: how many characters there are up to the closing quote,
that one included. -/
def skipStringForward (quote : Char) : List Char → Nat
  | [] => 0
  | c :: rest =>
      if c = '\\' then
        match rest with
        | [] => 2
        | _ :: rest => 2 + skipStringForward quote rest
      else if c = quote then 1
      else 1 + skipStringForward quote rest

/-- `is_escaped`, of the character that comes after `before`. -/
def isEscaped (before : List Char) : Bool :=
  (before.reverse.takeWhile (· = '\\')).length % 2 = 1

def isWholeStringLiteral (text : String) : Bool :=
  match text.toList with
  | [] => false
  | quote :: rest =>
      rest ≠ [] ∧ (quote = '\'' ∨ quote = '"') ∧ skipStringForward quote rest = rest.length ∧
        rest.getLast? = some quote ∧ isEscaped (quote :: rest.dropLast) = false

def unquotePhpString (raw : String) : Option String :=
  if isWholeStringLiteral raw then some (String.ofList raw.toList.tail.dropLast) else none

/-- The text of a string literal: its decoded value, or what its quotes enclose. -/
def StringLiteral.content (s : StringLiteral) : Option String :=
  match s.value with
  | some decoded => decoded
  | none => some ((unquotePhpString s.raw).getD s.raw)

def IntegerLiteral.text (i : IntegerLiteral) : String :=
  (i.value.map natToString).getD i.raw.text

/-- The escapes of a string argument: two strings never render alike. -/
def escapeArgument : List Char → List Char
  | [] => []
  | c :: rest =>
      if c = '\\' ∨ c = '\'' then '\\' :: c :: escapeArgument rest else c :: escapeArgument rest

def arrayIndexLiteralKey : Expression → Option String
  | .literal (.string s) => s.content
  | .literal (.integer i) => some i.text
  | _ => none

/-! ## Operators and functions -/

def arithmeticOperatorText : BinaryOperator → Option String
  | .addition => some "+"
  | .subtraction => some "-"
  | .multiplication => some "*"
  | .division => some "/"
  | .modulo => some "%"
  | .exponentiation => some "**"
  | .other => none

def nonDeterministicFunctions : List String :=
  ["fgetc", "fgetcsv", "fgets", "fgetss", "fread", "fscanf", "fpassthru", "feof", "ftell",
    "readline", "stream_get_contents", "stream_get_line", "readdir", "socket_read", "curl_exec",
    "curl_multi_getcontent", "array_pop", "array_shift", "array_splice", "current", "each", "end",
    "key", "next", "pos", "prev", "reset", "iterator_to_array", "mysqli_fetch_array",
    "mysqli_fetch_assoc", "mysqli_fetch_object", "mysqli_fetch_row", "pg_fetch_array",
    "pg_fetch_assoc", "pg_fetch_object", "pg_fetch_row", "ob_get_clean", "ob_get_contents",
    "ob_get_flush", "session_id", "date", "getdate", "gettimeofday", "gmdate", "hrtime", "idate",
    "localtime", "microtime", "mktime", "gmmktime", "strtotime", "time", "lcg_value", "mt_rand",
    "rand", "random_bytes", "random_int", "shuffle", "str_shuffle", "uniqid", "array_rand"]

def isDeterministicFunction (name : String) : Bool :=
  !nonDeterministicFunctions.any fun candidate => eqIgnoreAsciiCase candidate name

/-- The conversion function a scalar cast stands for. -/
def conversionFunction : UnaryPrefixOperator → Option String
  | .stringCast | .binaryCast => some "strval"
  | .intCast | .integerCast => some "intval"
  | .floatCast | .doubleCast | .realCast => some "floatval"
  | .boolCast | .booleanCast => some "boolval"
  | .negation | .plus | .other => none

/-- The sign an index may write before an operand. -/
def signText : UnaryPrefixOperator → Option String
  | .negation => some "-"
  | .plus => some "+"
  | _ => none

/-! ## Keys -/

mutual

/-- `expr_to_subject_key`: the links of a chain stand after the key of its base. -/
def exprToSubjectKey (expr : Expression) : Option String :=
  match expr with
  | .property _ _ .computed => none
  | .property object _ (.identifier name) => do
      let key ← exprToSubjectKey object
      return key ++ "->" ++ name.text
  | .methodCall _ _ .computed _ => none
  | .methodCall object _ (.identifier name) arguments => do
      let key ← exprToSubjectKey object
      let arguments ← argumentListKey arguments
      return key ++ "->" ++ name.text ++ "(" ++ arguments ++ ")"
  | expr => nonChainSubjectKey expr
termination_by (sizeOf expr, 2)

def nonChainSubjectKey (expr : Expression) : Option String :=
  match expr with
  | .variable (.direct dv) => some dv.text
  | .staticProperty cls property => do
      let cls ← staticClassKey cls
      match property with
      | .direct dv => return cls ++ "::" ++ dv.text
      | .computed => none
  | .arrayAccess array index => arrayAccessSubjectKey array index
  | .staticCall cls method arguments => do
      let cls ← staticClassKey cls
      match method with
      | .identifier name =>
          let arguments ← argumentListKey arguments
          return cls ++ "::" ++ name.text ++ "(" ++ arguments ++ ")"
      | .computed => none
  | .functionCall (.identifier ident) arguments => do
      let name := stripFqnPrefix ident.text
      if !isDeterministicFunction name then none
      else
        let arguments ← argumentListKey arguments
        return asciiLower name ++ "(" ++ arguments ++ ")"
  | .unaryPrefix operator operand => do
      let function ← conversionFunction operator
      conversionCallKey function operand
  | .parenthesized inner => exprToSubjectKey inner
  | .assignment lhs _ => exprToSubjectKey lhs
  | _ => none
termination_by (sizeOf expr, 1)

/-- `array_access_subject_key`: a computed index has to name a variable. -/
def arrayAccessSubjectKey (array index : Expression) : Option String := do
  let base ← exprToSubjectKey array
  match arrayIndexLiteralKey index with
  | some key => return base ++ "[\"" ++ key ++ "\"]"
  | none =>
      let index ← arrayIndexKey index
      if index.toList.contains '$' then return base ++ "[" ++ index ++ "]" else none
termination_by (1 + sizeOf array + sizeOf index, 0)

def arrayIndexKey (expr : Expression) : Option String :=
  match expr with
  | .binary lhs operator rhs => do
      let operator ← arithmeticOperatorText operator
      let lhs ← arrayIndexKey lhs
      let rhs ← arrayIndexKey rhs
      return lhs ++ operator ++ rhs
  | .unaryPrefix operator operand => do
      let sign ← signText operator
      let operand ← arrayIndexKey operand
      return sign ++ operand
  | .parenthesized inner => do
      let rendered ← arrayIndexKey inner
      match inner with
      | .binary _ _ _ => return "(" ++ rendered ++ ")"
      | _ => return rendered
  | .literal (.integer i) => some i.text
  | expr => exprToSubjectKey expr
termination_by (sizeOf expr, 3)

def staticClassKey (cls : Expression) : Option String :=
  match cls with
  | .identifier ident => some (stripFqnPrefix ident.text)
  | .self => some "self"
  | .static => some "static"
  | .parent => some "parent"
  | expr => exprToSubjectKey expr
termination_by (sizeOf cls, 3)

/-- The loop of `argument_list_key`; a comma stands before every argument but the
first. -/
def argumentsKeyFrom (first : Bool) (arguments : ArgumentList) : Option String :=
  match arguments with
  | .nil => some ""
  | .positional ellipsis value rest => do
      if ellipsis then none
      else
        let value ← argumentValueKey value
        let rest ← argumentsKeyFrom false rest
        return (if first then "" else ",") ++ value ++ rest
  | .named name value rest => do
      let value ← argumentValueKey value
      let rest ← argumentsKeyFrom false rest
      return (if first then "" else ",") ++ name.text ++ ":" ++ value ++ rest
termination_by (sizeOf arguments, 3)

def argumentListKey (arguments : ArgumentList) : Option String := argumentsKeyFrom true arguments
termination_by (sizeOf arguments, 4)

def conversionCallKey (function : String) (operand : Expression) : Option String := do
  let value ← argumentValueKey operand
  return function ++ "(" ++ value ++ ")"
termination_by (sizeOf operand, 4)

def argumentValueKey (expr : Expression) : Option String :=
  match expr with
  | .literal (.string s) => do
      let value ← s.content
      return "'" ++ String.ofList (escapeArgument value.toList) ++ "'"
  | .literal (.integer i) => some i.text
  | .literal (.float raw) => some raw.text
  | .literal .true => some "true"
  | .literal .false => some "false"
  | .literal .null => some "null"
  | .constantAccess name => some (stripFqnPrefix name.text)
  | .classConstant cls constant => do
      let cls ← staticClassKey cls
      match constant with
      | .identifier name => return cls ++ "::" ++ name.text
      | .computed => none
  | .parenthesized inner => argumentValueKey inner
  | expr => exprToSubjectKey expr
termination_by (sizeOf expr, 3)

end

end PhpantomLsp.Flow
