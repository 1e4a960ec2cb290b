import PhpantomLsp.PhpType.RuntimeJoin
import PhpantomLsp.PhpType.Subtype

/-!
# Types that share no value

Whether two type lists can describe one value, as a join of two paths asks it.
Unions are compared member by member and `?T` as `T|null`; two arrays share the
empty one unless one of them is never empty, and are otherwise compared by
their elements; everything else counts as apart when neither is a subtype of
the other and they are not both objects.

Two unions are compared with their literals hashed, and so is a list that is
asked about many times.
-/

namespace PhpantomLsp

open Text Lib

namespace PhpType

/-! ## What the comparison asks of a type -/

/-- One round of `acceptsNull`. -/
def acceptsNullBody (ask : PhpType → Bool) (t : PhpType) : Bool :=
  match t.kind with
  | .nullable _ => true
  | .union members => members.any ask
  | .named name => eqIgnoreAsciiCase name "null" || eqIgnoreAsciiCase name "mixed"
  | _ => false

/-- `accepts_null`. -/
def acceptsNull (t : PhpType) : Bool := guardedFix weight false acceptsNullBody t

/-- One round of `isObjectLike`. -/
def isObjectLikeBody (ask : PhpType → Bool) (t : PhpType) : Bool :=
  match t.kind with
  | .named name => eqIgnoreAsciiCase name "object" || !isScalarName name
  | .generic name _ => !isScalarName name
  | .objectShape _ => true
  | .staticType bound => !isScalarName bound
  | .thisType bound => !isScalarName bound
  | .nullable inner => ask inner
  | _ => false

/-- `is_object_like`. -/
def isObjectLike (t : PhpType) : Bool := guardedFix weight false isObjectLikeBody t

/-- One round of `isProvablyNonEmpty`. -/
def isProvablyNonEmptyBody (ask : PhpType → Bool) (t : PhpType) : Bool :=
  match t.kind with
  | .named name => isNonEmptyArrayName name
  | .generic name _ => isNonEmptyArrayName name
  | .arrayShape entries => entries.any fun entry => !entry.optional
  | .union members => members.all ask
  | _ => false

/-- `is_provably_non_empty`. -/
def isProvablyNonEmpty (t : PhpType) : Bool := guardedFix weight false isProvablyNonEmptyBody t

/-- One round of `extractValueType`. -/
def extractValueTypeBody (extract : PhpType → Option PhpType) (t : PhpType) : Option PhpType :=
  match t.kind with
  | .array inner => some inner
  | .generic _ args => if 2 ≤ args.length then args[1]? else args.getLast?
  | .nullable inner => extract inner
  | .union members => members.findSome? extract
  | _ => none

/-- `extract_value_type`, scalars included. -/
def extractValueType (t : PhpType) : Option PhpType :=
  guardedFix weight none extractValueTypeBody t

/-- The distinct value types of the entries, in order. -/
def distinctValues (entries : List ShapeEntry) : List PhpType :=
  entries.foldl (fun values entry =>
    if entry.valueType ∈ values then values else values ++ [entry.valueType]) []

/-- `unwrap_nullable`. -/
def unwrapNullable (t : PhpType) : PhpType :=
  match t.kind with
  | .nullable inner => inner
  | _ => t

/-- `class_name`. -/
def className (t : PhpType) : Option Atom :=
  match t.kind with
  | .named name => if isClassLikeName name then some name else none
  | _ => none

section

variable [DedupHasher]

/-- One type for what several values are, and none for no value. -/
def oneOrJoined (join : List PhpType → PhpType) : List PhpType → Option PhpType
  | [] => none
  | [value] => some value
  | values => some (join values)

/-- One round of `iterableElementType`. -/
def iterableElementTypeBody (elementOf : PhpType → Option PhpType) (t : PhpType) :
    Option PhpType :=
  match t.kind with
  | .arrayShape entries => oneOrJoined mkUnion (distinctValues entries)
  | .objectShape entries => oneOrJoined mkUnion (distinctValues entries)
  | .nullable inner => elementOf inner
  | .union members => oneOrJoined joinRuntimeValueTypes (members.filterMap elementOf)
  | _ => t.extractValueType

/-- `iterable_element_type`. -/
def iterableElementType (t : PhpType) : Option PhpType :=
  guardedFix weight none iterableElementTypeBody t

end

/-! ## The recursion equations -/

theorem weight_null_lt_of_kind_nullable {t inner : PhpType} (h : t.kind = .nullable inner) :
    PhpType.null.weight < t.weight := by
  have hinner := weight_lt_of_kind_nullable h
  have hpos := inner.weight_pos
  rw [weight_null]
  omega

theorem acceptsNull_eq (t : PhpType) : acceptsNull t = acceptsNullBody acceptsNull t := by
  refine guardedFix_eq ?_ t
  intro f g a h
  unfold acceptsNullBody
  split
  case h_2 members hkind =>
      rw [any_congr_of_mem fun m hm => h m (weight_lt_of_kind_union hkind hm)]
  all_goals rfl

theorem isObjectLike_eq (t : PhpType) : isObjectLike t = isObjectLikeBody isObjectLike t := by
  refine guardedFix_eq ?_ t
  intro f g a h
  unfold isObjectLikeBody
  split
  case h_6 inner hkind => exact h inner (weight_lt_of_kind_nullable hkind)
  all_goals rfl

theorem isProvablyNonEmpty_eq (t : PhpType) :
    isProvablyNonEmpty t = isProvablyNonEmptyBody isProvablyNonEmpty t := by
  refine guardedFix_eq ?_ t
  intro f g a h
  unfold isProvablyNonEmptyBody
  split
  case h_4 members hkind =>
      rw [all_congr_of_mem fun m hm => h m (weight_lt_of_kind_union hkind hm)]
  all_goals rfl

theorem extractValueType_eq (t : PhpType) :
    extractValueType t = extractValueTypeBody extractValueType t := by
  refine guardedFix_eq ?_ t
  intro f g a h
  unfold extractValueTypeBody
  split
  case h_3 inner hkind => exact h inner (weight_lt_of_kind_nullable hkind)
  case h_4 members hkind =>
      exact findSome?_congr_of_mem fun m hm => h m (weight_lt_of_kind_union hkind hm)
  all_goals rfl

/-- An element type weighs less than what it is an element of. -/
theorem weight_extractValueType_lt {t value : PhpType} (h : t.extractValueType = some value) :
    value.weight < t.weight := by
  induction t using measure_induction weight with
  | step t ih =>
      have hkind := t.weight_kind_le
      rw [extractValueType_eq] at h
      unfold extractValueTypeBody at h
      split at h
      · rename_i inner heq
        rw [heq] at hkind
        rw [Option.some.inj h] at hkind
        simp only [weight] at hkind
        omega
      · rename_i name args heq
        have hmem : value ∈ args := by
          split at h
          · exact List.mem_of_getElem? h
          · exact List.mem_of_getLast? h
        have hweight := weight_le_of_mem hmem
        rw [heq] at hkind
        simp only [weight] at hkind
        omega
      · rename_i inner heq
        have hinner := weight_lt_of_kind_nullable heq
        exact Nat.lt_trans (ih inner hinner h) hinner
      · rename_i members heq
        obtain ⟨m, hm, hvalue⟩ := List.exists_of_findSome?_eq_some h
        have hmember := weight_lt_of_kind_union heq hm
        exact Nat.lt_trans (ih m hmember hvalue) hmember
      · exact absurd h (by simp)

/-- The values weigh less than their entries, by six for each value. -/
theorem weightList_distinctValues_le (entries : List ShapeEntry) :
    weightList (distinctValues entries) + 6 * (distinctValues entries).length ≤
      weightEntries entries := by
  have hgrow (values : List PhpType) :
      let all := entries.foldl (fun values entry =>
        if entry.valueType ∈ values then values else values ++ [entry.valueType]) values
      weightList all + 6 * all.length ≤
        weightList values + 6 * values.length + weightEntries entries := by
    induction entries generalizing values with
    | nil => simp [weightEntries]
    | cons entry rest ih =>
        obtain ⟨key, valueType, optional⟩ := entry
        simp only [List.foldl_cons, weightEntries]
        by_cases hseen : valueType ∈ values
        · simp only [hseen, if_true]
          have hrest := ih values
          omega
        · simp only [hseen, if_false]
          have hrest := ih (values ++ [valueType])
          simp only [weightList_append, weightList, List.length_append, List.length_singleton]
            at hrest
          omega
  have hall := hgrow []
  simp only [weightList, List.length_nil] at hall
  unfold distinctValues
  omega

section

variable [DedupHasher]

theorem iterableElementType_eq (t : PhpType) :
    iterableElementType t = iterableElementTypeBody iterableElementType t := by
  refine guardedFix_eq ?_ t
  intro f g a h
  unfold iterableElementTypeBody
  split
  case h_3 inner hkind => exact h inner (weight_lt_of_kind_nullable hkind)
  case h_4 members hkind =>
      rw [List.filterMap_congr fun m hm => h m (weight_lt_of_kind_union hkind hm)]
  all_goals rfl

theorem weight_lt_of_oneOrJoined {entries : List ShapeEntry} {value : PhpType}
    (h : oneOrJoined mkUnion (distinctValues entries) = some value) :
    value.weight < weightEntries entries := by
  have hvalues := weightList_distinctValues_le entries
  cases hall : distinctValues entries with
  | nil => simp [hall, oneOrJoined] at h
  | cons first rest =>
      rw [hall, List.length_cons] at hvalues
      rw [hall] at h
      cases rest with
      | nil =>
          rw [← Option.some.inj h]
          simp only [weightList] at hvalues
          omega
      | cons second rest =>
          rw [← Option.some.inj h]
          have hunion := weight_mkUnion_le (first :: second :: rest)
          omega

/-- What an array or a shape holds weighs less than it does. -/
theorem weight_iterableElementType_lt {t value : PhpType}
    (hunion : ∀ members, t.kind ≠ .union members) (hnull : ∀ inner, t.kind ≠ .nullable inner)
    (h : t.iterableElementType = some value) : value.weight < t.weight := by
  have hkind := t.weight_kind_le
  rw [iterableElementType_eq] at h
  unfold iterableElementTypeBody at h
  split at h
  case h_1 entries heq =>
      have hentries := weight_lt_of_oneOrJoined h
      rw [heq] at hkind
      simp only [weight] at hkind
      omega
  case h_2 entries heq =>
      have hentries := weight_lt_of_oneOrJoined h
      rw [heq] at hkind
      simp only [weight] at hkind
      omega
  case h_3 inner heq => exact absurd heq (hnull inner)
  case h_4 members heq => exact absurd heq (hunion members)
  case h_5 => exact weight_extractValueType_lt h

end

/-! ## Disjointness -/

/-- `is_array_value`: an array type, as opposed to `iterable`. -/
def isArrayValue (t : PhpType) : Bool :=
  match t.kind with
  | .named name => t.isArrayLike && !eqIgnoreAsciiCase name "iterable"
  | .generic name _ => t.isArrayLike && !eqIgnoreAsciiCase name "iterable"
  | _ => t.isArrayLike

section

variable [DedupHasher]

/-- `arrays_disjoint`, with the comparison of two element types. -/
def arraysDisjoint (disjoint : PhpType → PhpType → Bool) (x y : PhpType) : Bool :=
  if !x.isProvablyNonEmpty && !y.isProvablyNonEmpty then false
  else if x.isEmptyArrayShape || y.isEmptyArrayShape then true
  else if isShape x && isShape y then !isSubtypeOf x y && !isSubtypeOf y x
  else
    match x.iterableElementType, y.iterableElementType with
    | some xValues, some yValues => disjoint xValues yValues
    | _, _ => false

/-- One round of `disjoint`.  Where only the second type is a union or a
`?T`, its members are the ones to go through. -/
def disjointBody (disjoint : PhpType → PhpType → Bool) (x y : PhpType) : Bool :=
  match x.kind, y.kind with
  | .union members, _ => members.all fun m => disjoint m y
  | .nullable inner, _ => disjoint inner y && disjoint PhpType.null y
  | _, .union members => members.all fun m => disjoint m x
  | _, .nullable inner => disjoint inner x && disjoint PhpType.null x
  | _, _ =>
      if x.isArrayValue && y.isArrayValue then arraysDisjoint disjoint x y
      else !isSubtypeOf x y && !isSubtypeOf y x && !(x.isObjectLike && y.isObjectLike)

/-- `disjoint`. -/
def disjoint (x y : PhpType) : Bool := guardedFixPair weight false disjointBody x y

theorem disjoint_eq (x y : PhpType) : disjoint x y = disjointBody disjoint x y := by
  refine guardedFixPair_eq ?_ x y
  intro f g a b h
  have hwa := a.weight_pos
  have hwb := b.weight_pos
  unfold disjointBody
  split
  case h_1 members hkind =>
      apply all_congr_of_mem
      intro m hm
      have hmember := weight_lt_of_kind_union hkind hm
      exact h m b (by omega)
  case h_2 inner hkind =>
      have hinner := weight_lt_of_kind_nullable hkind
      have hnull := weight_null_lt_of_kind_nullable hkind
      rw [h inner b (by omega), h PhpType.null b (by omega)]
  case h_3 members hkind hunion hnullable =>
      apply all_congr_of_mem
      intro m hm
      have hmember := weight_lt_of_kind_union hkind hm
      exact h m a (by omega)
  case h_4 inner hkind hunion hnullable =>
      have hinner := weight_lt_of_kind_nullable hkind
      have hnull := weight_null_lt_of_kind_nullable hkind
      rw [h inner a (by omega), h PhpType.null a (by omega)]
  case h_5 hunionA hnullA hunionB hnullB =>
      have harrays : arraysDisjoint f a b = arraysDisjoint g a b := by
        unfold arraysDisjoint
        split
        · rfl
        · split
          · rfl
          · split
            · rfl
            · split
              · rename_i aValues bValues ha hb
                have haValues := weight_iterableElementType_lt (fun _ => hunionA _)
                  (fun _ => hnullA _) ha
                have hbValues := weight_iterableElementType_lt (fun _ => hunionB _)
                  (fun _ => hnullB _) hb
                exact h aValues bValues (by omega)
              · rfl
      rw [harrays]

end

end PhpType

open PhpType

/-! ## Type lists -/

/-- One alternative of what a value may be: its type, and the allocation of
the class the type was resolved to. -/
structure ResolvedType where
  typeString : PhpType
  classInfo : Option Nat
  deriving DecidableEq

/-- The alternatives `disjoint` ends up comparing a type by. -/
def alternatives (ty : PhpType) : List PhpType := flatten ty

/-- `all_alternatives`. -/
def allAlternatives (ty : PhpType) (test : PhpType → Bool) : Bool := (alternatives ty).all test

/-- The alternatives that are literals. -/
def literalsOf (types : List PhpType) : List PhpType := types.filter fun ty => ty.asLiteral.isSome

/-- The alternatives that are not. -/
def restOf (types : List PhpType) : List PhpType := types.filter fun ty => ty.asLiteral.isNone

/-- `LITERAL_SET_FROM_PAIRS`: how many literal pairs two unions have to make
before they are hashed. -/
def literalSetFromPairs : Nat := 64

def isUnion (ty : PhpType) : Bool :=
  match ty.kind with
  | .union _ => true
  | _ => false

section

variable [DedupHasher]

/-- Whether no literal of one list is a literal of the other: pair by pair for
short lists, and by the hashes of the shorter one for long ones. -/
def literalsDisjoint (xLiterals yLiterals : List PhpType) : Bool :=
  if xLiterals.length * yLiterals.length < literalSetFromPairs then
    xLiterals.all fun p => yLiterals.all fun q => disjoint p q
  else
    let fewer := if xLiterals.length ≤ yLiterals.length then xLiterals else yLiterals
    let more := if xLiterals.length ≤ yLiterals.length then yLiterals else xLiterals
    !more.any fun q =>
      (fewer.map dedupHash).contains (dedupHash q) && fewer.any fun p => !disjoint p q

/-- `disjoint_alternatives`. -/
def disjointAlternatives (x y : PhpType) : Bool :=
  if !isUnion x || !isUnion y then disjoint x y
  else
    let xLiterals := literalsOf (alternatives x)
    let yLiterals := literalsOf (alternatives y)
    let xRest := restOf (alternatives x)
    let yRest := restOf (alternatives y)
    let restDisjoint := (xRest.all fun p => (yRest ++ yLiterals).all fun q => disjoint p q) &&
      xLiterals.all fun p => yRest.all fun q => disjoint p q
    if !restDisjoint then false else literalsDisjoint xLiterals yLiterals

/-- `types_are_disjoint`. -/
def typesAreDisjoint (a b : List ResolvedType) : Bool :=
  if a.isEmpty || b.isEmpty then false
  else a.all fun x => b.all fun y => disjointAlternatives x.typeString y.typeString

/-- `DisjointFrom::disjoint_from`: the same question of one list, asked of
many.  A literal is only compared with the literals of its own hash. -/
def disjointFrom (types other : List ResolvedType) : Bool :=
  if types.isEmpty || other.isEmpty then false
  else
    let mine := types.flatMap fun rt => alternatives rt.typeString
    let disjointFromMine (q : PhpType) : Bool :=
      (restOf mine).all (fun p => disjoint p q) &&
        if q.asLiteral.isSome then
          (bucket dedupHash (literalsOf mine) (dedupHash q)).all fun p => disjoint p q
        else (literalsOf mine).all fun p => disjoint p q
    other.all fun rt => allAlternatives rt.typeString disjointFromMine

end

end PhpantomLsp
