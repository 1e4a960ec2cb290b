import PhpantomLsp.PhpType.Keywords
import PhpantomLsp.PhpType.Literal

/-!
# The lattice of named types

Subtyping between names, and between a literal or an integer range and a
name, as far as the names alone decide it.
-/

namespace PhpantomLsp

open Text

/-! ## Integer ranges -/

/-- `refined_int_to_range`. -/
def refinedIntToRange (name : String) : Option (String × String) :=
  if name = "positive-int" then some ("1", "max")
  else if name = "negative-int" then some ("min", "-1")
  else if name = "non-negative-int" then some ("0", "max")
  else if name = "non-positive-int" then some ("min", "0")
  else none

/-- `parse_range_bound`: a bound that is not a number is read as `0`. -/
def parseRangeBound (s : String) : Int :=
  let v := asciiLower (trim s)
  if v = "min" then i64Min else if v = "max" then i64Max else (parseI64 v).getD 0

/-- `int_range_is_subrange`. -/
def intRangeIsSubrange (subMin subMax supMin supMax : String) : Bool :=
  parseRangeBound supMin ≤ parseRangeBound subMin &&
    parseRangeBound subMax ≤ parseRangeBound supMax

/-- `int_literal_is_within_range`: a bound that is not a number admits
nothing. -/
def intLiteralIsWithinRange (value : Int) (min max : String) : Bool :=
  let min := asciiLower (trim min)
  let max := asciiLower (trim max)
  (min == "min" || (parseI64 min).any (· ≤ value)) &&
    (max == "max" || (parseI64 max).any (value ≤ ·))

/-! ## Names -/

/-- The table of `is_named_subtype`, on two different names that are
lowercase and without aliases; `sub` is the name as written. -/
def namedSubtypeTable (sub subN supN : String) : Bool :=
  if supN = "bool" then subN ∈ ["true", "false"]
  else if supN = "int" then subN ∈ intRefinements
  else if supN ∈ ["positive-int", "negative-int", "non-positive-int", "non-negative-int"] then
    match refinedIntToRange subN, refinedIntToRange supN with
    | some (subMin, subMax), some (supMin, supMax) =>
        intRangeIsSubrange subMin subMax supMin supMax
    | _, _ => false
  else if supN = "non-zero-int" then subN ∈ ["positive-int", "negative-int"]
  else if supN = "float" then subN ∈ "int" :: intRefinements
  else if supN = "string" then subN ∈ stringRefinements ++ ["view-string"]
  else if supN = "class-string" then subN ∈ ["interface-string", "enum-string"]
  else if supN = "non-empty-string" then
    subN ∈ ["numeric-string", "non-empty-literal-string", "non-empty-lowercase-string",
      "non-empty-uppercase-string", "callable-string", "class-string", "interface-string",
      "trait-string", "enum-string", "truthy-string", "non-falsy-string"]
  else if supN ∈ ["truthy-string", "non-falsy-string"] then
    subN ∈ ["callable-string", "class-string", "interface-string", "trait-string", "enum-string",
      "truthy-string", "non-falsy-string"]
  else if supN = "literal-string" then subN = "non-empty-literal-string"
  else if supN = "lowercase-string" then subN = "non-empty-lowercase-string"
  else if supN = "uppercase-string" then subN = "non-empty-uppercase-string"
  else if supN = "numeric" then subN ∈ ["int", "float"] ++ intRefinements ++ ["numeric-string"]
  else if supN = "number" then subN ∈ ["int", "float"] ++ intRefinements
  else if supN = "scalar" then
    subN ∈ ["int", "float", "string", "bool", "true", "false"] ++ intRefinements ++
      stringRefinements ++ ["numeric", "number"]
  else if supN = "array-key" then
    subN ∈ ["int", "string"] ++ intRefinements ++ stringRefinements
  else if supN = "array" then
    subN ∈ ["list", "non-empty-list", "non-empty-array", "associative-array"]
  else if supN = "non-empty-array" then subN = "non-empty-list"
  else if supN = "iterable" then
    subN ∈ ["array", "list", "non-empty-array", "non-empty-list", "associative-array"]
  else if supN = "object" then subN = "callable-object" || isClassLikeName sub
  else if supN = "callable" then
    subN ∈ ["callable-string", "callable-array", "callable-object", "closure"]
  else if supN = "resource" then subN ∈ ["closed-resource", "open-resource"]
  else false

/-- A pseudo-type name in a casing that makes it a class. -/
def isPseudoClass (raw : String) : Bool :=
  isLowercaseOnlyPseudoType (asciiLower raw) && raw ≠ asciiLower raw

/-- `is_named_subtype`. -/
def isNamedSubtype (sub sup : String) : Bool :=
  let subRaw := stripFqnPrefix sub
  let supRaw := stripFqnPrefix sup
  let subL := asciiLower subRaw
  let supL := asciiLower supRaw
  if subL = supL then isPseudoClass subRaw == isPseudoClass supRaw
  else if isPseudoClass subRaw || isPseudoClass supRaw then false
  else
    let subN := normalizeAlias subL
    let supN := normalizeAlias supL
    if subN = supN then true
    else if subN = "never" then true
    else if supN = "mixed" then true
    else if subN = "void" ∨ supN = "void" then false
    else namedSubtypeTable sub subN supN

/-! ## Literals -/

/-- The string refinements a literal of this content belongs to. -/
def stringContentIsSubtypeOfNamed (content supL : String) : Bool :=
  supL ∈ ["string", "literal-string", "scalar", "array-key"] ||
    supL == "view-string" ||
    (content ≠ "" && supL ∈ ["non-empty-string", "non-empty-literal-string"]) ||
    (content ≠ "" && content ≠ "0" && supL ∈ ["truthy-string", "non-falsy-string"]) ||
    (supL ∈ ["numeric-string", "numeric"] && isPhpNumericString content) ||
    (supL ∈ ["lowercase-string", "non-empty-lowercase-string"] &&
      !content.toList.any (fun c => 'A' ≤ c && c ≤ 'Z') &&
      (supL ≠ "non-empty-lowercase-string" || content ≠ "")) ||
    (supL ∈ ["uppercase-string", "non-empty-uppercase-string"] &&
      !content.toList.any (fun c => 'a' ≤ c && c ≤ 'z') &&
      (supL ≠ "non-empty-uppercase-string" || content ≠ "")) ||
    supL == "callable-string"

/-- `literal_is_subtype_of_named`. -/
def literalIsSubtypeOfNamed (lit : LiteralValue) (supL : String) : Bool :=
  match lit with
  | .int raw =>
      if supL ∈ ["int", "integer", "float", "double", "numeric", "number", "scalar", "array-key"]
      then true
      else
        match refinedIntToRange supL with
        | some (min, max) =>
            (parsePhpIntLiteral raw).any (fun value => intLiteralIsWithinRange value min max)
        | none => supL = "non-zero-int" && (parsePhpIntLiteral raw).any (· ≠ 0)
  | .float _ => supL ∈ ["float", "double", "real", "numeric", "number", "scalar"]
  | .string _ =>
      match lit.stringContent with
      | some content => stringContentIsSubtypeOfNamed content supL
      | none => false

end PhpantomLsp
