import PhpantomLsp.PhpType.Constructors
import PhpantomLsp.PhpType.RuntimeSubtype

/-!
# Joining what the branches of an expression produce

The join flattens its alternatives, merges the ones that are written twice,
and drops each one whose values another one already takes in.  The last step
compares positions pairwise, and two shortcuts spare most comparisons: two
literals are never compared, and an index names the shapes a shape could nest
in.  `JoinShortcuts` is what they decide, so that the join with every
comparison made is the same procedure under `noShortcuts`.
-/

namespace PhpantomLsp

open Text Lib PhpType

namespace PhpType

def float : PhpType := .named "float"

end PhpType

/-! ## Alternatives -/

/-- One round of `flatten`. -/
def flattenBody (flatten : PhpType → List PhpType) (member : PhpType) : List PhpType :=
  match member.kind with
  | .union members => members.flatMap flatten
  | .nullable inner => flatten inner ++ [PhpType.null]
  | _ => [member]

/-- `flatten`: the alternatives of a member, `?T` read as `T` and `null`. -/
def flatten (member : PhpType) : List PhpType := guardedFix weight [] flattenBody member

/-- `simplify_bool_union`. -/
def simplifyBoolUnion (types : List PhpType) : List PhpType :=
  let isTrueName := isNamedWhere fun name => eqIgnoreAsciiCase name "true"
  let isFalseName := isNamedWhere fun name => eqIgnoreAsciiCase name "false"
  if types.any isTrueName && types.any isFalseName then
    (types.filter fun ty => !(isTrueName ty || isFalseName ty)) ++ [PhpType.bool]
  else types

/-- `simplify_empty_string_union`. -/
def simplifyEmptyStringUnion (types : List PhpType) : List PhpType :=
  let isEmptyLiteral (ty : PhpType) : Bool :=
    ty.asLiteral.any fun value => value.stringContent == some ""
  let isNonEmpty := isNamedWhere fun name => eqIgnoreAsciiCase name "non-empty-string"
  if types.any isEmptyLiteral && types.any isNonEmpty then
    (types.filter fun ty => !isEmptyLiteral ty && !isNonEmpty ty) ++ [PhpType.string]
  else types

section

variable [DedupHasher]

/-- The alternatives of a union, each of them widened. -/
def widenedMembers (widen : PhpType → PhpType) (members : List PhpType) : List PhpType :=
  firstOccurrences (fun a b => decide (a = b))
    (members.flatMap fun member => (widen member).unionMembers)

/-- The widening of a type without a marker to carry over. -/
def widenScalarNode (widen : PhpType → PhpType) (t : PhpType) : PhpType :=
  match t.kind with
  | .literal (.int _) => PhpType.int
  | .literal (.float _) => PhpType.float
  | .literal (.string _) => PhpType.string
  | .union members =>
      match widenedMembers widen members with
      | [member] => member
      | widened => mkUnion widened
  | .nullable inner => .nullable (widen inner)
  | _ => t

/-- One round of `widen_scalar_literals`. -/
def widenScalarLiteralsBody (widen : PhpType → PhpType) (t : PhpType) : PhpType :=
  match t with
  | .benevolent inner => mkBenevolent (widen inner)
  | .templateParam name bound => mkTemplateParam name (widen bound)
  | t => widenScalarNode widen t

/-- `widen_scalar_literals`. -/
def widenScalarLiterals (t : PhpType) : PhpType :=
  guardedFix weight PhpType.never widenScalarLiteralsBody t

end

/-! ## Oversized shapes -/

/-- `sealed_entries`: the entries of a sealed shape that lists at least one. -/
def sealedEntries (ty : PhpType) : Option (List ShapeEntry) :=
  if ty.asUnsealedShape.isSome then none
  else
    match ty.kind with
    | .arrayShape entries => if entries.isEmpty then none else some entries
    | _ => none

/-- The sealed shapes of a list, with the entries they list. -/
def sealedShapes (types : List PhpType) : List (PhpType × List ShapeEntry) :=
  types.filterMap fun ty => (sealedEntries ty).map fun entries => (ty, entries)

/-- `SHAPE_JOIN_VALUE_LIMIT`. -/
def shapeJoinValueLimit : Nat := 256

section

variable [DedupHasher]

/-- The type of the keys an entry stands for, past its literal. -/
def generalKey (entry : ShapeEntry) : PhpType :=
  match entry.key with
  | some key => widenScalarLiterals (shapeKeyType key)
  | none => PhpType.int

variable (join : List PhpType → PhpType)

/-- The array type the keys and values of some shapes widen to. -/
def generalArray (shapes : List (PhpType × List ShapeEntry)) : PhpType :=
  let entries := shapes.flatMap (·.2)
  let list := shapes.all fun (ty, entries) =>
    ty.isListShape || entries.all fun entry => entry.key.isNone
  let nonEmpty := shapes.all fun (_, entries) => entries.any fun entry => !entry.optional
  let value := join (entries.map fun entry => widenScalarLiterals entry.valueType)
  if list then .generic (if nonEmpty then "non-empty-list" else "list") [value]
  else
    .generic (if nonEmpty then "non-empty-array" else "array")
      [join (entries.map generalKey), value]

/-- `generalize_oversized_shapes`: one general array in the place of the first
shape, once the shapes spell out too many values between them. -/
def generalizeOversizedShapes (types : List PhpType) : List PhpType :=
  let shapes := sealedShapes types
  if shapes.length < 2 || (shapes.flatMap (·.2)).length ≤ shapeJoinValueLimit then types
  else
    let first := types.findIdx fun ty => (sealedEntries ty).isSome
    types.take first ++ generalArray join shapes ::
      (types.drop (first + 1)).filter fun ty => (sealedEntries ty).isNone

end

/-! ## The join -/

/-- What spares a join some of its comparisons. -/
structure JoinShortcuts where
  /-- Two shapes told apart by their keys. -/
  keysRuleOut : List ShapeEntry → List ShapeEntry → Bool
  /-- The positions a member is compared with. -/
  candidates : List PhpType → Nat → PhpType → List Nat
  /-- The pass of the constructor that drops shapes. -/
  absorbShapes : List PhpType → List PhpType

/-- The positions the join compares a member with: the non-literals for a
literal, and what the index names for a shape. -/
def joinCandidates (types : List PhpType) (_ : Nat) (ty : PhpType) : List Nat :=
  let positions := List.range types.length
  if ty.asLiteral.isSome then
    positions.filter fun candidate => (types[candidate]?).any fun other => other.asLiteral.isNone
  else ((ShapeKeyIndex.new types).candidates ty).getD positions

/-- The shortcuts the join takes. -/
def joinShortcuts : JoinShortcuts := ⟨keysRuleOutNesting, joinCandidates, absorbSubsumedShapes⟩

section

variable [DedupHasher] (shortcuts : JoinShortcuts)

/-- Whether the member at `index` is a part of the one at `candidate`; of two
that are a part of each other the first one stays. -/
def joinSubsumed (index : Nat) (ty : PhpType) (candidate : Nat) (other : PhpType) : Bool :=
  index ≠ candidate && isRuntimeValueSubtypeBy shortcuts.keysRuleOut ty other &&
    (candidate < index || !isRuntimeValueSubtypeBy shortcuts.keysRuleOut other ty)

variable (join : List PhpType → PhpType)

/-- The alternatives a join compares, after they were flattened and none of
them is `mixed`. -/
def settleAlternatives (flattened : List PhpType) : List PhpType :=
  generalizeOversizedShapes join (simplifyEmptyStringUnion (simplifyBoolUnion
    (dedupTypes (flattened.filter fun member => !member.isNever))))

/-- One round of `join_runtime_value_types`. -/
def joinRuntimeValueTypesBody (members : List PhpType) : PhpType :=
  let flattened := members.flatMap flatten
  if flattened.any isMixed then PhpType.mixed
  else
    let settled := settleAlternatives join flattened
    let kept := retainUndominated (shortcuts.candidates settled) (joinSubsumed shortcuts) settled
    if kept.isEmpty then PhpType.never else mkUnionBy shortcuts.absorbShapes kept

end

section

variable [DedupHasher]

/-- `join_runtime_value_types`, with shortcuts for its comparisons. -/
def joinRuntimeValueTypesBy (shortcuts : JoinShortcuts) (members : List PhpType) : PhpType :=
  guardedFix weightList PhpType.never (joinRuntimeValueTypesBody shortcuts) members

/-- `join_runtime_value_types`. -/
def joinRuntimeValueTypes (members : List PhpType) : PhpType :=
  joinRuntimeValueTypesBy joinShortcuts members

end

/-! ## The recursion equations -/

theorem flatten_eq (member : PhpType) : flatten member = flattenBody flatten member := by
  refine guardedFix_eq ?_ member
  intro f g a h
  unfold flattenBody
  split
  · rename_i members hkind
    exact List.flatMap_congr fun m hm => h m (weight_lt_of_kind_union hkind hm)
  · rename_i inner hkind
    rw [h inner (weight_lt_of_kind_nullable hkind)]
  · rfl

theorem weightList_flatMap_le {f : PhpType → List PhpType} {types : List PhpType}
    (h : ∀ ty ∈ types, weightList (f ty) ≤ ty.weight) :
    weightList (types.flatMap f) ≤ weightList types := by
  induction types with
  | nil => simp [weightList]
  | cons ty rest ih =>
      have hty := h ty (by simp)
      have hrest := ih (fun u hu => h u (List.mem_cons_of_mem _ hu))
      simp only [List.flatMap_cons, weightList_append, weightList]
      omega

theorem weightList_flatten_le (member : PhpType) :
    weightList (flatten member) ≤ member.weight := by
  induction member using measure_induction weight with
  | step member ih =>
      have hkind := member.weight_kind_le
      rw [flatten_eq, flattenBody]
      split
      · rename_i members heq
        have hmembers := weightList_flatMap_le
          (fun m hm => ih m (weight_lt_of_kind_union heq hm))
        rw [heq] at hkind
        simp only [weight] at hkind
        omega
      · rename_i inner heq
        have hinner := ih inner (weight_lt_of_kind_nullable heq)
        rw [heq] at hkind
        simp only [weight, weightList_append, weightList, weight_null] at *
        omega
      · simp [weightList]

theorem weightList_unionMembers_le (t : PhpType) : weightList t.unionMembers ≤ t.weight := by
  have hkind := t.weight_kind_le
  unfold unionMembers
  split
  · rename_i members heq
    rw [heq] at hkind
    simp only [weight] at hkind
    omega
  · simp [weightList]

theorem weight_mkBenevolent_le (inner : PhpType) :
    (mkBenevolent inner).weight ≤ 1 + inner.weight := by
  have htagged : (PhpType.benevolent inner).weight = 1 + inner.weight := rfl
  unfold mkBenevolent
  split
  · omega
  · split <;> omega

theorem weight_mkTemplateParam_le (name : Atom) (bound : PhpType) :
    (mkTemplateParam name bound).weight ≤ 1 + bound.weight := by
  cases bound <;> simp only [mkTemplateParam, asTemplateParam, weight] <;> omega

section

variable [DedupHasher]

theorem widenScalarNode_congr {f g : PhpType → PhpType} {t : PhpType}
    (h : ∀ u, u.weight < t.weight → f u = g u) : widenScalarNode f t = widenScalarNode g t := by
  unfold widenScalarNode
  split
  case h_4 members heq =>
      have hmembers : widenedMembers f members = widenedMembers g members := by
        unfold widenedMembers
        rw [List.flatMap_congr fun m hm => by rw [h m (weight_lt_of_kind_union heq hm)]]
      rw [hmembers]
  case h_5 inner heq => rw [h inner (weight_lt_of_kind_nullable heq)]
  all_goals rfl

theorem widenScalarLiterals_eq (t : PhpType) :
    widenScalarLiterals t = widenScalarLiteralsBody widenScalarLiterals t := by
  refine guardedFix_eq ?_ t
  intro f g a h
  unfold widenScalarLiteralsBody
  split
  · rw [h _ (by simp only [weight]; omega)]
  · rw [h _ (by simp only [weight]; omega)]
  · exact widenScalarNode_congr h

theorem weight_widenScalarNode_le {widen : PhpType → PhpType} {t : PhpType}
    (h : ∀ u, u.weight < t.weight → (widen u).weight ≤ u.weight) :
    (widenScalarNode widen t).weight ≤ t.weight := by
  have hpos := t.weight_pos
  have hkind := t.weight_kind_le
  unfold widenScalarNode
  split
  case h_4 members heq =>
      have hmembers : weightList (members.flatMap fun m => (widen m).unionMembers) ≤
          weightList members :=
        weightList_flatMap_le fun m hm =>
          le_trans (weightList_unionMembers_le _) (h m (weight_lt_of_kind_union heq hm))
      have hfirst : weightList (widenedMembers widen members) ≤ weightList members :=
        le_trans (weightList_sublist (firstOccurrences_sublist _ _)) hmembers
      rw [heq] at hkind
      simp only [weight] at hkind
      split
      · rename_i member hone
        rw [hone] at hfirst
        simp only [weightList] at hfirst
        omega
      · have hunion := weight_mkUnion_le (widenedMembers widen members)
        omega
  case h_5 inner heq =>
      have hinner := h inner (weight_lt_of_kind_nullable heq)
      rw [heq] at hkind
      simp only [weight] at *
      omega
  case h_6 => exact le_refl _
  all_goals exact hpos

/-- Widening never grows a type. -/
theorem weight_widenScalarLiterals_le (t : PhpType) :
    (widenScalarLiterals t).weight ≤ t.weight := by
  induction t using measure_induction weight with
  | step t ih =>
      rw [widenScalarLiterals_eq]
      unfold widenScalarLiteralsBody
      split
      · rename_i inner
        have hinner := ih inner (by simp only [weight]; omega)
        have hmk := weight_mkBenevolent_le (widenScalarLiterals inner)
        simp only [weight]
        omega
      · rename_i name bound
        have hbound := ih bound (by simp only [weight]; omega)
        have hmk := weight_mkTemplateParam_le name (widenScalarLiterals bound)
        simp only [weight]
        omega
      · exact weight_widenScalarNode_le ih

end

/-! ## The alternatives only get lighter -/

theorem weightList_add_length_le {as bs : List PhpType} (h : as.Sublist bs) :
    weightList as + (bs.length - as.length) ≤ weightList bs := by
  induction h with
  | slnil => simp
  | @cons as bs b hsub ih =>
      have := weight_pos b
      have := hsub.length_le
      simp only [weightList, List.length_cons]
      omega
  | @cons_cons as bs b hsub ih =>
      simp only [weightList, List.length_cons]
      omega

/-- A pass that drops an alternative may push a name in its place. -/
theorem weightList_filter_push_le {p : PhpType → Bool} {types : List PhpType} {extra : PhpType}
    (hextra : extra.weight = 1) (hdropped : types.any (fun ty => !p ty) = true) :
    weightList (types.filter p ++ [extra]) ≤ weightList types := by
  obtain ⟨ty, hty, hp⟩ := List.any_eq_true.mp hdropped
  have hlength : (types.filter p).length < types.length :=
    List.length_filter_lt_length_iff_exists.mpr ⟨ty, hty, by simpa using hp⟩
  have hkept := weightList_add_length_le (List.filter_sublist (p := p) (l := types))
  simp only [weightList_append, weightList, hextra]
  omega

theorem weightList_simplifyBoolUnion_le (types : List PhpType) :
    weightList (simplifyBoolUnion types) ≤ weightList types := by
  unfold simplifyBoolUnion
  dsimp only
  split
  · rename_i h
    have hbool : PhpType.bool.weight = 1 := by decide
    refine weightList_filter_push_le hbool ?_
    obtain ⟨ty, hty, htrue⟩ := List.any_eq_true.mp (Bool.and_eq_true_iff.mp h).1
    exact List.any_eq_true.mpr ⟨ty, hty, by simp [htrue]⟩
  · exact le_refl _

theorem weightList_simplifyEmptyStringUnion_le (types : List PhpType) :
    weightList (simplifyEmptyStringUnion types) ≤ weightList types := by
  unfold simplifyEmptyStringUnion
  dsimp only
  split
  · rename_i h
    refine weightList_filter_push_le weight_string ?_
    obtain ⟨ty, hty, hempty⟩ := List.any_eq_true.mp (Bool.and_eq_true_iff.mp h).1
    exact List.any_eq_true.mpr ⟨ty, hty, by simp only [hempty]; rfl⟩
  · exact le_refl _

theorem weightEntries_append (as bs : List ShapeEntry) :
    weightEntries (as ++ bs) = weightEntries as + weightEntries bs := by
  induction as with
  | nil => simp [weightEntries]
  | cons a as ih =>
      cases a
      simp only [List.cons_append, weightEntries, ih]
      omega

theorem weightList_map_entries_le {f : ShapeEntry → PhpType} {entries : List ShapeEntry}
    (h : ∀ entry, (f entry).weight ≤ 6 + entry.valueType.weight) :
    weightList (entries.map f) ≤ weightEntries entries := by
  induction entries with
  | nil => simp [weightList]
  | cons entry rest ih =>
      have hentry := h entry
      cases entry
      simp only [List.map_cons, weightList, weightEntries] at *
      omega

theorem kind_of_sealedEntries {ty : PhpType} {entries : List ShapeEntry}
    (h : sealedEntries ty = some entries) : ty.kind = .arrayShape entries := by
  unfold sealedEntries at h
  split at h
  · exact absurd h (by simp)
  · split at h
    · rename_i heq
      split at h
      · exact absurd h (by simp)
      · rw [heq, Option.some.inj h]
    · exact absurd h (by simp)

/-- The entries of the shapes of a list weigh less than the list. -/
theorem weightEntries_sealedShapes_le (types : List PhpType) :
    weightEntries ((sealedShapes types).flatMap (·.2)) + (sealedShapes types).length ≤
      weightList types := by
  unfold sealedShapes
  induction types with
  | nil => simp [weightEntries]
  | cons ty rest ih =>
      cases h : sealedEntries ty with
      | none =>
          simp only [List.filterMap_cons, h, Option.map_none, weightList]
          omega
      | some entries =>
          have hkind := ty.weight_kind_le
          rw [kind_of_sealedEntries h] at hkind
          simp only [weight] at hkind
          simp only [List.filterMap_cons, h, Option.map_some, List.flatMap_cons, List.length_cons,
            weightEntries_append, weightList]
          omega

section

variable [DedupHasher]

theorem weight_generalKey_le (entry : ShapeEntry) :
    (generalKey entry).weight ≤ 6 + entry.valueType.weight := by
  unfold generalKey
  split
  · rename_i key _
    have := weight_widenScalarLiterals_le (shapeKeyType key)
    have := weight_shapeKeyType_le key
    omega
  · rw [weight_int]
    omega

theorem generalArray_congr {f g : List PhpType → PhpType}
    {shapes : List (PhpType × List ShapeEntry)}
    (h : ∀ types, weightList types ≤ weightEntries (shapes.flatMap (·.2)) → f types = g types) :
    generalArray f shapes = generalArray g shapes := by
  have hvalues := h ((shapes.flatMap (·.2)).map fun entry => widenScalarLiterals entry.valueType)
    (weightList_map_entries_le fun entry =>
      le_trans (weight_widenScalarLiterals_le entry.valueType) (Nat.le_add_left _ 6))
  have hkeys := h ((shapes.flatMap (·.2)).map generalKey)
    (weightList_map_entries_le weight_generalKey_le)
  simp only [generalArray, hvalues, hkeys]

theorem generalizeOversizedShapes_congr {f g : List PhpType → PhpType} {types : List PhpType}
    (h : ∀ lighter, weightList lighter < weightList types → f lighter = g lighter) :
    generalizeOversizedShapes f types = generalizeOversizedShapes g types := by
  have hshapes := weightEntries_sealedShapes_le types
  by_cases hfew : (sealedShapes types).length < 2
  · simp [generalizeOversizedShapes, hfew]
  · have hgeneral : generalArray f (sealedShapes types) = generalArray g (sealedShapes types) :=
      generalArray_congr fun lighter hlighter => h lighter (by omega)
    simp only [generalizeOversizedShapes, hgeneral]

theorem weightList_settled_le (flattened : List PhpType) :
    weightList (simplifyEmptyStringUnion (simplifyBoolUnion
      (dedupTypes (flattened.filter fun member => !member.isNever)))) ≤ weightList flattened :=
  calc
    _ ≤ weightList (simplifyBoolUnion
        (dedupTypes (flattened.filter fun member => !member.isNever))) :=
      weightList_simplifyEmptyStringUnion_le _
    _ ≤ weightList (dedupTypes (flattened.filter fun member => !member.isNever)) :=
      weightList_simplifyBoolUnion_le _
    _ ≤ weightList (flattened.filter fun member => !member.isNever) :=
      weightList_sublist (dedupTypes_sublist _)
    _ ≤ weightList flattened := weightList_filter_le _ _

theorem joinRuntimeValueTypesBody_decreases (shortcuts : JoinShortcuts) :
    Decreases weightList (joinRuntimeValueTypesBody shortcuts) := by
  intro f g members h
  have hflat : weightList (members.flatMap flatten) ≤ weightList members :=
    weightList_flatMap_le fun m _ => weightList_flatten_le m
  have hsettle : settleAlternatives f (members.flatMap flatten) =
      settleAlternatives g (members.flatMap flatten) := by
    unfold settleAlternatives
    refine generalizeOversizedShapes_congr (fun lighter hlt => h lighter ?_)
    have := weightList_settled_le (members.flatMap flatten)
    omega
  simp only [joinRuntimeValueTypesBody, hsettle]

theorem joinRuntimeValueTypesBy_eq (shortcuts : JoinShortcuts) (members : List PhpType) :
    joinRuntimeValueTypesBy shortcuts members =
      joinRuntimeValueTypesBody shortcuts (joinRuntimeValueTypesBy shortcuts) members :=
  guardedFix_eq (joinRuntimeValueTypesBody_decreases shortcuts) members

end

end PhpantomLsp
