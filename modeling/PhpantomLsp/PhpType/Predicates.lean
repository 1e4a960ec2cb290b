import PhpantomLsp.Lib.GuardedRecursion
import PhpantomLsp.PhpType.Basic
import PhpantomLsp.PhpType.NamedLattice

/-!
# Questions about a type

What a type is, asked of the node its handle points at.  Several questions are
about a name alone, some of these also look through `?T`, and a few about the
members of a union as well; each group is one definition with the question as
its parameter.
-/

namespace PhpantomLsp.PhpType

open Text Lib

/-! ## Questions about a name -/

/-- The node is a name with the property `p`. -/
def isNamedWhere (p : Atom → Bool) (t : PhpType) : Bool :=
  match t.kind with
  | .named name => p name
  | _ => false

def isMixed : PhpType → Bool := isNamedWhere fun name => eqIgnoreAsciiCase name "mixed"

def isNull : PhpType → Bool := isNamedWhere fun name => eqIgnoreAsciiCase name "null"

def isNever : PhpType → Bool :=
  isNamedWhere fun name =>
    asciiLower name ∈ ["never", "no-return", "noreturn", "never-return", "never-returns"]

/-! ## Questions that look through `?T` -/

/-- One round of `namedThroughNullable`. -/
def namedThroughNullableBody (p : Atom → Bool) (ask : PhpType → Bool) (t : PhpType) : Bool :=
  match t.kind with
  | .named name => p name
  | .nullable inner => ask inner
  | _ => false

/-- The node is a name with the property `p`, or a `?T` of one. -/
def namedThroughNullable (p : Atom → Bool) (t : PhpType) : Bool :=
  guardedFix weight false (namedThroughNullableBody p) t

def isBool : PhpType → Bool :=
  namedThroughNullable fun name => keywordLower name ∈ ["bool", "boolean"]

def isTrue : PhpType → Bool := namedThroughNullable fun name => eqIgnoreAsciiCase name "true"

def isFalse : PhpType → Bool := namedThroughNullable fun name => eqIgnoreAsciiCase name "false"

def isInt : PhpType → Bool :=
  namedThroughNullable fun name => keywordLower name ∈ ["int", "integer"]

def isStringType : PhpType → Bool :=
  namedThroughNullable fun name => eqIgnoreAsciiCase name "string"

def isFloat : PhpType → Bool :=
  namedThroughNullable fun name => keywordLower name ∈ ["float", "double", "real"]

def isArrayKey : PhpType → Bool :=
  namedThroughNullable fun name => eqIgnoreAsciiCase name "array-key"

/-! ## Questions about every member -/

/-- One round of `isIntSubtype`. -/
def isIntSubtypeBody (ask : PhpType → Bool) (t : PhpType) : Bool :=
  match t.kind with
  | .named name => keywordLower name ∈ ["int", "integer"] ++ intRefinements
  | .intRange _ _ => true
  | .literal (.int _) => true
  | .nullable inner => ask inner
  | .union members => !members.isEmpty && members.all ask
  | _ => false

/-- `is_int_subtype`. -/
def isIntSubtype (t : PhpType) : Bool := guardedFix weight false isIntSubtypeBody t

/-- One round of `isFloatSubtype`. -/
def isFloatSubtypeBody (ask : PhpType → Bool) (t : PhpType) : Bool :=
  match t.kind with
  | .literal value =>
      match value with
      | .float _ => true
      | _ => false
  | .union members => !members.isEmpty && members.all ask
  | _ => t.isFloat

/-- `is_float_subtype`. -/
def isFloatSubtype (t : PhpType) : Bool := guardedFix weight false isFloatSubtypeBody t

/-! ## Arrays -/

def isEmptyArrayShape (t : PhpType) : Bool :=
  match t.kind with
  | .arrayShape entries => entries.isEmpty
  | _ => false

def acceptsEmptyArray (t : PhpType) : Bool :=
  let accepts (name : Atom) : Bool := keywordLower name ∈ ["array", "list", "iterable"]
  match t.kind with
  | .array _ => true
  | .named name => accepts name
  | .generic name _ => accepts name
  | _ => false

/-- One round of `isArrayLike`. -/
def isArrayLikeBody (ask : PhpType → Bool) (t : PhpType) : Bool :=
  match t.kind with
  | .named name => isArrayLikeName name
  | .generic name _ => isArrayLikeName name
  | .array _ => true
  | .arrayShape _ => true
  | .nullable inner => ask inner
  | _ => false

/-- `is_array_like`. -/
def isArrayLike (t : PhpType) : Bool := guardedFix weight false isArrayLikeBody t

/-- A `non-empty-` name, or the generic type of one. -/
def isNonEmptyRefinement (t : PhpType) : Bool :=
  match t.kind with
  | .named name => (nonEmptyBaseName name).isSome
  | .generic name _ => (nonEmptyBaseName name).isSome
  | _ => false

/-- `is_non_empty_array_refinement`. -/
def isNonEmptyArrayRefinement (t : PhpType) : Bool := t.isNonEmptyRefinement && t.isArrayLike

/-- `unrefined_base`: the type a `non-empty-` type refines. -/
def unrefinedBase (t : PhpType) : Option PhpType :=
  match t.kind with
  | .named name => (nonEmptyBaseName name).map .named
  | .generic name args => (nonEmptyBaseName name).map fun base => .generic base args
  | _ => none

/-! ## The recursion equations -/

theorem weight_lt_of_kind_nullable {t inner : PhpType} (h : t.kind = .nullable inner) :
    inner.weight < t.weight := by
  have := t.weight_kind_le
  rw [h] at this
  simp only [weight] at this
  omega

theorem weight_lt_of_kind_union {t m : PhpType} {members : List PhpType}
    (h : t.kind = .union members) (hm : m ∈ members) : m.weight < t.weight := by
  have := t.weight_kind_le
  have := weight_le_of_mem hm
  rw [h] at *
  simp only [weight] at *
  omega

theorem namedThroughNullable_eq (p : Atom → Bool) (t : PhpType) :
    namedThroughNullable p t = namedThroughNullableBody p (namedThroughNullable p) t := by
  refine guardedFix_eq ?_ t
  intro f g a h
  unfold namedThroughNullableBody
  split
  · rfl
  · rename_i inner hkind
    exact h inner (weight_lt_of_kind_nullable hkind)
  · rfl

theorem isIntSubtype_eq (t : PhpType) : isIntSubtype t = isIntSubtypeBody isIntSubtype t := by
  refine guardedFix_eq ?_ t
  intro f g a h
  unfold isIntSubtypeBody
  split
  case h_4 inner hkind => exact h inner (weight_lt_of_kind_nullable hkind)
  case h_5 members hkind =>
      rw [all_congr_of_mem fun m hm => h m (weight_lt_of_kind_union hkind hm)]
  all_goals rfl

theorem isFloatSubtype_eq (t : PhpType) :
    isFloatSubtype t = isFloatSubtypeBody isFloatSubtype t := by
  refine guardedFix_eq ?_ t
  intro f g a h
  unfold isFloatSubtypeBody
  split
  case h_2 members hkind =>
      rw [all_congr_of_mem fun m hm => h m (weight_lt_of_kind_union hkind hm)]
  all_goals rfl

theorem isArrayLike_eq (t : PhpType) : isArrayLike t = isArrayLikeBody isArrayLike t := by
  refine guardedFix_eq ?_ t
  intro f g a h
  unfold isArrayLikeBody
  split
  case h_5 inner hkind => exact h inner (weight_lt_of_kind_nullable hkind)
  all_goals rfl

end PhpantomLsp.PhpType
