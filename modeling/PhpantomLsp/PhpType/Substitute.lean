import PhpantomLsp.Flow.Disjoint
import PhpantomLsp.PhpType.TypeOperators

/-!
# Substituting template parameters

`PhpType::substitute` replaces the names of template parameters by what they are
bound to.  A node that was rebuilt goes through its constructor, so a union
absorbs what the substitution made redundant and a type operator is evaluated
once its operand is known.
-/

namespace PhpantomLsp.PhpType

open Text Lib

/-- What each template parameter is bound to; the latest binding of a name holds. -/
abbrev Substitution := List (Atom × PhpType)

namespace Substitution

def get (subs : Substitution) (name : Atom) : Option PhpType := List.lookup name subs

def insert (subs : Substitution) (name : Atom) (t : PhpType) : Substitution := (name, t) :: subs

def containsKey (subs : Substitution) (name : Atom) : Bool := (subs.get name).isSome

end Substitution

section

variable [DedupHasher]

/-! ## Members one of which contains the other -/

/-- Whether the member at `index` goes because of the one at `other`; of two
equivalent spellings the first one stays. -/
def valueContained (keepWider : Bool) (index : Nat) (ty : PhpType) (other : Nat)
    (otherTy : PhpType) : Bool :=
  let contains (wider narrower : PhpType) : Bool := isRuntimeValueSubtype narrower wider
  let (wider, narrower) := if keepWider then (otherTy, ty) else (ty, otherTy)
  other ≠ index && contains wider narrower && (other < index || !contains narrower wider)

/-- `retain_by_value_containment` -/
def retainByValueContainment (keepWider : Bool) (types : List PhpType) : List PhpType :=
  retainUndominated (fun _ _ => List.range types.length) (valueContained keepWider) types

def absorbUnionValueSubtypes (types : List PhpType) : List PhpType :=
  retainByValueContainment true types

def absorbIntersectionSupertypes (types : List PhpType) : List PhpType :=
  retainByValueContainment false types

/-! ## Unsealed shapes -/

/-- The type of the key an entry stands under. -/
def iterableEntryKey (entry : ShapeEntry) : PhpType :=
  match entry.key with
  | none => PhpType.int
  | some key =>
      match classNameKey key with
      | some className => mkClassString (some (.named className))
      | none =>
          if containsText "::" key then mkUnion [PhpType.int, PhpType.string]
          else if isDecimalIntArrayKey key then PhpType.int
          else PhpType.string

/-- One round of `iterableKeyType`. -/
def iterableKeyTypeBody (keyOf : PhpType → Option PhpType) (t : PhpType) : Option PhpType :=
  match t.kind with
  | .array _ => some PhpType.int
  | .arrayShape entries => oneOrJoined joinRuntimeValueTypes (entries.map iterableEntryKey)
  | .objectShape entries => if entries.isEmpty then none else some PhpType.string
  | .generic name args =>
      match args with
      | key :: _ :: _ => some key
      | [_] =>
          if asciiLower name ∈ ["list", "non-empty-list"] then some (.intRange "0" "max")
          else if asciiLower name ∈ ["array", "non-empty-array"] then some PhpType.int
          else none
      | [] => none
  | .nullable inner => keyOf inner
  | .union members => oneOrJoined joinRuntimeValueTypes (members.filterMap keyOf)
  | _ => none

/-- `iterable_key_type` -/
def iterableKeyType (t : PhpType) : Option PhpType := guardedFix weight none iterableKeyTypeBody t

/-- What is known of the listed entries, joined with what the tail holds. -/
def joinKnown (known : Option PhpType) (rest : PhpType) : PhpType :=
  match known with
  | some known => joinRuntimeValueTypes [known, rest]
  | none => rest

/-- The entries a shape lists, none where it is no shape. -/
def listedEntries (shape : PhpType) : List ShapeEntry :=
  match shape.kind with
  | .arrayShape entries => entries
  | _ => []

def widenedArrayName (isList nonEmpty : Bool) : Atom :=
  if isList then if nonEmpty then "non-empty-list" else "list"
  else if nonEmpty then "non-empty-array" else "array"

def widenedArrayArgs (shape key value : PhpType) : List PhpType :=
  let widenedValue := joinKnown shape.iterableElementType value
  if shape.isListShape then [widenedValue]
  else [joinKnown shape.iterableKeyType key, widenedValue]

/-- `PhpType::unsealed_shape` -/
def mkUnsealedShape (shape key value : PhpType) : PhpType :=
  let entries := listedEntries shape
  let name := widenedArrayName shape.isListShape (entries.any fun entry => !entry.optional)
  if entries.isEmpty then .generic name (widenedArrayArgs shape key value)
  else
    .unsealedShape shape (if shape.isListShape then PhpType.int else key) value name
      (widenedArrayArgs shape key value)

/-! ## Rebuilding one node -/

/-- `?T` of what `T` was replaced by: something nullable already is not wrapped
again. -/
def renullable (resolved : PhpType) : PhpType :=
  match resolved.kind with
  | .nullable _ => resolved
  | .union members => if members.any isNull then resolved else .nullable resolved
  | _ => .nullable resolved

/-- The members of a union after substitution, with the unions among them
flattened. -/
def flatUnion (substituted : List PhpType) : List PhpType :=
  substituted.flatMap fun t =>
    match t.kind with
    | .union inner => inner
    | _ => [t]

def flatIntersection (substituted : List PhpType) : List PhpType :=
  substituted.flatMap fun t =>
    match t.kind with
    | .intersection inner => inner
    | _ => [t]

def reunion (original substituted : List PhpType) : PhpType :=
  let flat := flatUnion substituted
  mkUnion (if substituted = original then flat else absorbUnionValueSubtypes flat)

def reintersection (original substituted : List PhpType) : PhpType :=
  let flat := flatIntersection substituted
  match if substituted = original then flat else absorbIntersectionSupertypes flat with
  | [member] => member
  | members => .intersection members

/-- A generic whose base name was itself replaced keeps its own arguments. -/
def regeneric (replacement : Option PhpType) (name : Atom) (args : List PhpType) : PhpType :=
  match replacement with
  | none => .generic name args
  | some replacement =>
      match replacement.kind with
      | .named n => .generic n args
      | .generic base _ => .generic base args
      | _ => replacement

/-- `Foo::class` once `class-string<Foo>` was mapped. -/
def reclassName (mapped : PhpType) : PhpType :=
  match mapped.kind with
  | .classString (some cls) =>
      match cls.kind with
      | .named name => .classNameLiteral name
      | _ => mapped
  | _ => mapped

/-- A marker that stays on a name, and goes with anything else. -/
def remarked (mark : Atom → PhpType) (mapped : PhpType) : PhpType :=
  match mapped with
  | .named name => mark name
  | _ => mapped

/-! ## Substitution -/

mutual

/-- `substitute` with a substitution that is not empty. -/
def substituteNode (subs : Substitution) : PhpType → PhpType
  | .named name => (subs.get name).getD (.named name)
  | .templateParam name bound =>
      (subs.get name).getD (mkTemplateParam name (substituteNode subs bound))
  | .raw text => (subs.get text).getD (.raw text)
  | .nullable inner => renullable (substituteNode subs inner)
  | .union members => reunion members (substituteList subs members)
  | .intersection members => reintersection members (substituteList subs members)
  | .generic name args => regeneric (subs.get name) name (substituteList subs args)
  | .keyOf inner => evaluateKeyOf (substituteNode subs inner)
  | .valueOf inner => evaluateValueOf (substituteNode subs inner)
  | .indexAccess base index =>
      evaluateIndexAccess (substituteNode subs base) (substituteNode subs index)
  | .benevolent inner => mkBenevolent (substituteNode subs inner)
  | .classNameLiteral className =>
      reclassName (mkClassString (some ((subs.get className).getD (.named className))))
  | .enumCase enumName caseName =>
      remarked (.enumCase · caseName) ((subs.get enumName).getD (.named enumName))
  | .dqlBuilder className state =>
      remarked (.dqlBuilder · state) ((subs.get className).getD (.named className))
  | .listShape entries => .listShape (substituteEntries subs entries)
  | .unsealedShape shape key value _ _ =>
      mkUnsealedShape (substituteNode subs shape) (substituteNode subs key)
        (substituteNode subs value)
  | .array elem => .array (substituteNode subs elem)
  | .arrayShape entries => .arrayShape (substituteEntries subs entries)
  | .objectShape entries => .objectShape (substituteEntries subs entries)
  | .callable kind params returnType =>
      .callable kind (substituteParams subs params) (substituteOption subs returnType)
  | .conditional param negated condition thenType elseType undecided =>
      .conditional param negated (substituteNode subs condition) (substituteNode subs thenType)
        (substituteNode subs elseType) undecided
  | .classString inner => mkClassString (substituteOption subs inner)
  | .interfaceString inner => mkInterfaceString (substituteOption subs inner)
  | .staticType bound => .staticType bound
  | .thisType bound => .thisType bound
  | .intRange min max => .intRange min max
  | .literal value => .literal value
termination_by structural t => t

def substituteList (subs : Substitution) : List PhpType → List PhpType
  | [] => []
  | t :: ts => substituteNode subs t :: substituteList subs ts
termination_by structural ts => ts

def substituteOption (subs : Substitution) : Option PhpType → Option PhpType
  | none => none
  | some t => some (substituteNode subs t)
termination_by structural t => t

def substituteEntries (subs : Substitution) :
    List (ShapeEntryOf PhpType) → List (ShapeEntryOf PhpType)
  | [] => []
  | ⟨key, valueType, optional⟩ :: rest =>
      ⟨key, substituteNode subs valueType, optional⟩ :: substituteEntries subs rest
termination_by structural entries => entries

def substituteParams (subs : Substitution) :
    List (CallableParamOf PhpType) → List (CallableParamOf PhpType)
  | [] => []
  | ⟨typeHint, optional, variadic⟩ :: rest =>
      ⟨substituteNode subs typeHint, optional, variadic⟩ :: substituteParams subs rest
termination_by structural params => params

end

/-- `PhpType::substitute` -/
def substitute (subs : Substitution) (t : PhpType) : PhpType :=
  if subs.isEmpty then t else substituteNode subs t

end

end PhpantomLsp.PhpType
