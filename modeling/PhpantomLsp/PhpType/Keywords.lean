import PhpantomLsp.Text.Ascii

/-!
# Keywords and builtin type names

The classifiers of type names.  PHP's own type keywords are matched in any
casing, while the pseudo-types only a docblock knows are matched in lowercase
alone, so that a class of such a name stays a class; `keywordLower` is where
that difference is made.
-/

namespace PhpantomLsp

open Text

/-- PHPStan's refinements of `int`. -/
def intRefinements : List String :=
  ["positive-int", "negative-int", "non-positive-int", "non-negative-int", "non-zero-int"]

/-- PHPStan's refinements of `string`. -/
def stringRefinements : List String :=
  ["non-empty-string", "numeric-string", "class-string", "interface-string", "literal-string",
    "callable-string", "truthy-string", "non-falsy-string", "trait-string", "enum-string",
    "lowercase-string", "uppercase-string", "non-empty-lowercase-string",
    "non-empty-uppercase-string", "non-empty-literal-string"]

/-- Names that are a pseudo-type in lowercase, and a class in any other
casing. -/
def isLowercaseOnlyPseudoType (lower : String) : Bool :=
  lower ∈ ["number", "real", "integer", "boolean", "double", "resource", "scalar", "numeric"]

/-- `with_ascii_lowercase`: a name longer than 48 bytes is longer than every
keyword and is read as the empty string. -/
def cappedLower (name : String) : String :=
  if 48 < byteLen name then "" else asciiLower name

/-- `with_keyword_lowercase`: the casing of a lowercase-only pseudo-type is
left as it is. -/
def keywordLower (name : String) : String :=
  let lower := cappedLower name
  if lower ≠ name ∧ isLowercaseOnlyPseudoType lower then name else lower

/-- `is_array_like_name`. -/
def isArrayLikeName (name : String) : Bool :=
  asciiLower name ∈ ["array", "list", "non-empty-array", "non-empty-list", "iterable"]

/-- `is_non_empty_array_name`. -/
def isNonEmptyArrayName (name : String) : Bool :=
  asciiLower name ∈ ["non-empty-array", "non-empty-list"]

/-- `is_list_name`. -/
def isListName (name : String) : Bool := asciiLower name ∈ ["list", "non-empty-list"]

/-- `is_scalar_name_lower`. -/
def isScalarNameLower (name lower : String) : Bool :=
  if lower ∈ ["integer", "boolean", "double", "resource", "scalar", "numeric"] then
    name == lower
  else
    lower ∈ ["int", "float", "string", "bool", "void", "never", "null", "false", "true", "array",
      "callable", "iterable", "object", "self", "static", "parent", "$this"] ++
      stringRefinements ++ ["model-property", "view-string", "array-key", "scalar", "numeric"] ++
      intRefinements ++
      ["non-empty-array", "non-empty-list", "list", "associative-array", "callable-array",
        "callable-object", "open-resource", "closed-resource"]

/-- `is_scalar_name`. -/
def isScalarName (name : String) : Bool :=
  name == "number" || isScalarNameLower name (cappedLower name)

/-- `is_class_like_name`. -/
def isClassLikeName (name : String) : Bool :=
  '\\' ∈ name.toList ||
    (!isScalarName name &&
      match name.toList with
      | c :: _ => isAsciiAlphabetic c || c = '_'
      | [] => false)

/-- `normalize_alias`. -/
def normalizeAlias (name : String) : String :=
  if name = "integer" then "int"
  else if name ∈ ["double", "real"] then "float"
  else if name = "boolean" then "bool"
  else if name ∈ ["no-return", "noreturn", "never-return", "never-returns"] then "never"
  else if name = "non-empty-mixed" then "mixed"
  else name

/-- `is_self_ref_name`. -/
def isSelfRefName (name : String) : Bool :=
  eqIgnoreAsciiCase name "self" || eqIgnoreAsciiCase name "static" ||
    eqIgnoreAsciiCase name "$this"

/-- The name a `non-empty-` type refines, or `none` for anything else. -/
def nonEmptyBaseName (name : String) : Option String :=
  let chars := name.toList
  if eqIgnoreAsciiCase (String.ofList (chars.take 10)) "non-empty-" ∧ 10 < chars.length then
    some (String.ofList (chars.drop 10))
  else none

end PhpantomLsp
