import PhpantomLsp.PhpType.Subtype

/-!
# Containment of produced values

Whether every value one type describes is also described by another, as far
as it can be told without following a coercion: `int` is no part of `float`
here, whatever a parameter accepts.

`keysRuleOut` is the shortcut by which two shapes are told apart from their
keys alone; the containment is defined for any such shortcut, and the source's
is `keysRuleOutNesting`.
-/

namespace PhpantomLsp

open Text Lib PhpType

/-- `is_runtime_scalar_value_domain`. -/
def isRuntimeScalarValueDomain (ty : PhpType) : Bool :=
  match ty.kind with
  | .literal _ => true
  | .intRange _ _ => true
  | .classString _ => true
  | .interfaceString _ => true
  | .named name =>
      name == "number" ||
        keywordLower name ∈ ["int", "integer"] ++ intRefinements ++
          ["float", "double", "real", "string"] ++ stringRefinements ++
          ["bool", "boolean", "true", "false", "null", "numeric", "scalar", "array-key"]
  | _ => false

/-- An array type spelled by its key and value types. -/
structure GenericArrayParts where
  list : Bool
  nonEmpty : Bool
  key : Option PhpType
  value : PhpType

/-- What the name of an array promises: being a list, and being non-empty. -/
def arrayNamePromises (name : Atom) : Option (Bool × Bool) :=
  match keywordLower name with
  | "array" => some (false, false)
  | "non-empty-array" => some (false, true)
  | "list" => some (true, false)
  | "non-empty-list" => some (true, true)
  | _ => none

/-- `generic_array_parts`. -/
def genericArrayParts (ty : PhpType) : Option GenericArrayParts :=
  match ty.kind with
  | .array value => some ⟨false, false, none, value⟩
  | .generic name [value] =>
      (arrayNamePromises name).map fun (list, nonEmpty) => ⟨list, nonEmpty, none, value⟩
  | .generic name [key, value] =>
      (arrayNamePromises name).map fun (list, nonEmpty) => ⟨list, nonEmpty, some key, value⟩
  | _ => none

section

variable (rvs : PhpType → PhpType → Bool)

/-- `generic_array_contained_in`. -/
def genericArrayContainedIn (sub sup : GenericArrayParts) : Bool :=
  let keysFit := match sub.key, sup.key with
    | _, none => true
    | subKey, some supKey =>
        if supKey.isMixed || supKey.isArrayKey then true
        else
          match subKey with
          | none => false
          | some subKey => equivalentForDedup subKey supKey || rvs subKey supKey
  if (sup.list && !sub.list) || (sup.nonEmpty && !sub.nonEmpty) then false
  else keysFit &&
    (sup.value.isMixed || equivalentForDedup sub.value sup.value || rvs sub.value sup.value)

/-- Whether a value of one shape fits the value expected there. -/
def valueFits (value wider : PhpType) : Bool :=
  wider.isMixed || equivalentForDedup value wider || rvs value wider

/-- Whether the array type admits the key an entry occupies. -/
def keyFits (keyType : Option PhpType) (key : String) : Bool :=
  match keyType with
  | none => true
  | some keyType =>
      if keyType.isMixed || keyType.isArrayKey then true
      else
        keyType.unionMembers.any fun member =>
          let baseFits :=
            if isDecimalIntArrayKey key then
              member.isNamedWhere fun name => keywordLower name ∈ ["int", "integer"]
            else member.isNamedWhere fun name => keywordLower name == "string"
          baseFits || (isRuntimeScalarValueDomain member && rvs (shapeKeyType key) member)

/-- The array type a shape is compared with, when it is no shape itself. -/
def arrayPartsOf (supertype : PhpType) : Option GenericArrayParts :=
  match supertype.kind with
  | .named name =>
      if keywordLower name ∈ ["array", "list"] then
        some ⟨keywordLower name == "list", false, none, PhpType.mixed⟩
      else genericArrayParts supertype
  | _ => genericArrayParts supertype

/-- `shape_values_contained_in`. -/
def shapeValuesContainedInBy (keysRuleOut : List ShapeEntry → List ShapeEntry → Bool)
    (entries : List ShapeEntry) (isList : Bool) (supertype : PhpType) : Bool :=
  match runtimeShapeKeys entries, supertype.kind with
  | none, _ => false
  | some keys, .arrayShape wider =>
      if keysRuleOut entries wider || keys.any isOpaqueShapeKey ||
          (supertype.isListShape && !isList) then false
      else
        match runtimeShapeKeys wider with
        | some widerKeys => shapeEntriesContainedIn (valueFits rvs) entries keys wider widerKeys
        | none => false
  | some keys, _ =>
      if keys.any isOpaqueShapeKey then false
      else
        match arrayPartsOf supertype with
        | none => false
        | some parts =>
            if parts.list && !isList then false
            else if parts.nonEmpty && !entries.any (fun entry => !entry.optional) then false
            else
              (entries.zip keys).all fun (entry, key) =>
                keyFits rvs parts.key key && valueFits rvs entry.valueType parts.value

variable [DedupHasher]

/-- Two scalar domains: the subtype relation, less its coercions. -/
def scalarDomainContainedIn (subtype supertype : PhpType) : Bool :=
  if !isRuntimeScalarValueDomain subtype || !isRuntimeScalarValueDomain supertype then false
  else
    let numberClash := match subtype.kind, supertype.kind with
      | .named sub, .named sup =>
          eqIgnoreAsciiCase sub "number" && eqIgnoreAsciiCase sup "number" &&
            ((sub == "number") != (sup == "number"))
      | _, _ => false
    if numberClash then false
    else if subtype.isIntSubtype && supertype.isFloatSubtype then false
    else isSubtypeOf subtype supertype

/-- One round of `is_runtime_value_subtype`. -/
def runtimeValueSubtypeBody (keysRuleOut : List ShapeEntry → List ShapeEntry → Bool)
    (subtype supertype : PhpType) : Bool :=
  if supertype.asUnsealedShape.isSome || supertype.isExactValueMarker then
    decide (subtype = supertype)
  else if subtype.isEmptyArrayShape && supertype.acceptsEmptyArray then true
  else
    match supertype.kind with
    | .union members => members.any fun m => rvs subtype m
    | _ =>
        match subtype.kind with
        | .arrayShape entries =>
            shapeValuesContainedInBy rvs keysRuleOut entries subtype.isListShape supertype
        | _ =>
            match genericArrayParts subtype, genericArrayParts supertype with
            | some sub, some sup => genericArrayContainedIn rvs sub sup
            | _, _ => scalarDomainContainedIn subtype supertype

end

section

variable [DedupHasher]

/-- `is_runtime_value_subtype`, with a shortcut on the keys of two shapes. -/
def isRuntimeValueSubtypeBy (keysRuleOut : List ShapeEntry → List ShapeEntry → Bool)
    (subtype supertype : PhpType) : Bool :=
  guardedFixPair PhpType.weight false (fun rvs => runtimeValueSubtypeBody rvs keysRuleOut)
    subtype supertype

/-- `is_runtime_value_subtype`. -/
def isRuntimeValueSubtype (subtype supertype : PhpType) : Bool :=
  isRuntimeValueSubtypeBy keysRuleOutNesting subtype supertype

end

/-! ## The recursion equation -/

theorem genericArrayParts_weight {t : PhpType} {parts : GenericArrayParts}
    (h : genericArrayParts t = some parts) :
    parts.value.weight < t.weight ∧ ∀ key ∈ parts.key, key.weight < t.weight := by
  have hkind := t.weight_kind_le
  unfold genericArrayParts at h
  split at h <;> rename_i heq
  · rw [heq] at hkind
    simp only [weight] at hkind
    obtain rfl := Option.some.inj h
    exact ⟨by dsimp only; omega, by simp⟩
  · rw [heq] at hkind
    simp only [weight, weightList] at hkind
    obtain ⟨p, -, rfl⟩ := Option.map_eq_some_iff.mp h
    exact ⟨by dsimp only; omega, by simp⟩
  · rw [heq] at hkind
    simp only [weight, weightList] at hkind
    obtain ⟨p, -, rfl⟩ := Option.map_eq_some_iff.mp h
    refine ⟨by dsimp only; omega, fun key hkey => ?_⟩
    obtain rfl := Option.some.inj hkey
    omega
  · exact absurd h (by simp)

theorem arrayPartsOf_weight {t : PhpType} {parts : GenericArrayParts}
    (h : arrayPartsOf t = some parts) :
    parts.value.weight ≤ t.weight ∧ ∀ key ∈ parts.key, key.weight < t.weight := by
  have hpos := t.weight_pos
  have hmixed := weight_mixed
  have hgeneric : genericArrayParts t = some parts → _ := fun h => genericArrayParts_weight h
  unfold arrayPartsOf at h
  split at h
  · split at h
    · obtain rfl := Option.some.inj h
      exact ⟨by dsimp only; omega, by simp⟩
    · exact ⟨le_of_lt (hgeneric h).1, (hgeneric h).2⟩
  · exact ⟨le_of_lt (hgeneric h).1, (hgeneric h).2⟩

section

variable {f g : PhpType → PhpType → Bool} {a b : PhpType}

theorem shapeEntriesContainedIn_congr {fits fits' : PhpType → PhpType → Bool}
    {entries wider : List ShapeEntry} {keys widerKeys : List String}
    (h : ∀ entry ∈ entries, ∀ other ∈ wider,
      fits entry.valueType other.valueType = fits' entry.valueType other.valueType) :
    shapeEntriesContainedIn fits entries keys wider widerKeys =
      shapeEntriesContainedIn fits' entries keys wider widerKeys := by
  unfold shapeEntriesContainedIn
  congr 1
  refine all_congr_of_mem (fun p hp => ?_)
  obtain ⟨entry, key⟩ := p
  dsimp only
  cases hfind : (keyPosition widerKeys key).bind (wider[·]?) with
  | none => rfl
  | some other =>
      obtain ⟨index, -, hindex⟩ := Option.bind_eq_some_iff.mp hfind
      simp only [Option.any_some]
      rw [h entry (mem_of_zip_fst hp) other (List.mem_of_getElem? hindex)]

theorem shapeValuesContainedInBy_congr {ruleOut : List ShapeEntry → List ShapeEntry → Bool}
    {entries : List ShapeEntry} {isList : Bool} (hentries : a.kind = .arrayShape entries)
    (h : ∀ c d, c.weight + d.weight < a.weight + b.weight → f c d = g c d) :
    shapeValuesContainedInBy f ruleOut entries isList b =
      shapeValuesContainedInBy g ruleOut entries isList b := by
  have hkind := a.weight_kind_le
  have hkind' := b.weight_kind_le
  rw [hentries] at hkind
  simp only [weight] at hkind
  have hvalue : ∀ entry ∈ entries, ∀ wider : PhpType, wider.weight ≤ b.weight →
      valueFits f entry.valueType wider = valueFits g entry.valueType wider := by
    intro entry hentry wider hwider
    have := weight_lt_of_mem_entries hentry
    unfold valueFits
    rw [h _ _ (by omega)]
  unfold shapeValuesContainedInBy
  split
  · rfl
  · rename_i keys wider hkeys hwider
    rw [hwider] at hkind'
    simp only [weight] at hkind'
    split
    · rfl
    split
    · refine shapeEntriesContainedIn_congr (fun entry he other ho => ?_)
      have := weight_lt_of_mem_entries ho
      exact hvalue entry he _ (by omega)
    · rfl
  · rename_i keys _ hkeys
    split
    · rfl
    split
    · rfl
    · rename_i parts hparts
      obtain ⟨hpartsValue, hpartsKey⟩ := arrayPartsOf_weight hparts
      split
      · rfl
      split
      · rfl
      · refine all_congr_of_mem (fun p hp => ?_)
        obtain ⟨entry, key⟩ := p
        have hmem := mem_of_zip_fst hp
        dsimp only
        rw [hvalue entry hmem parts.value hpartsValue]
        congr 1
        unfold keyFits
        split
        · rfl
        · rename_i keyType hkeyType
          have := hpartsKey keyType hkeyType
          have := weight_lt_of_mem_entries hmem
          have := weight_shapeKeyType_le key
          dsimp only
          split
          · rfl
          · refine any_congr_of_mem (fun member hmember => ?_)
            have hle : member.weight ≤ keyType.weight := by
              unfold unionMembers at hmember
              split at hmember
              · rename_i members heq
                exact le_of_lt (weight_lt_of_kind_union heq hmember)
              · rw [List.mem_singleton.mp hmember]
            rw [h _ _ (by omega)]

theorem genericArrayContainedIn_congr {sub sup : GenericArrayParts}
    (hsub : genericArrayParts a = some sub) (hsup : genericArrayParts b = some sup)
    (h : ∀ c d, c.weight + d.weight < a.weight + b.weight → f c d = g c d) :
    genericArrayContainedIn f sub sup = genericArrayContainedIn g sub sup := by
  obtain ⟨hvalue, hkey⟩ := genericArrayParts_weight hsub
  obtain ⟨hvalue', hkey'⟩ := genericArrayParts_weight hsup
  unfold genericArrayContainedIn
  rw [h sub.value sup.value (by omega)]
  cases hk : sub.key with
  | none => cases sup.key <;> rfl
  | some subKey =>
      cases hk' : sup.key with
      | none => rfl
      | some supKey =>
          have := hkey subKey hk
          have := hkey' supKey hk'
          dsimp only
          rw [h subKey supKey (by omega)]

variable [DedupHasher]

theorem runtimeValueSubtypeBody_decreases
    (ruleOut : List ShapeEntry → List ShapeEntry → Bool) :
    DecreasesPair PhpType.weight (fun rvs => runtimeValueSubtypeBody rvs ruleOut) := by
  intro f g a b h
  dsimp only
  unfold runtimeValueSubtypeBody
  split
  · rfl
  split
  · rfl
  split
  · rename_i members heq
    refine any_congr_of_mem (fun m hm => h _ _ ?_)
    have := weight_lt_of_kind_union heq hm
    omega
  · split
    · rename_i entries heq
      exact shapeValuesContainedInBy_congr heq h
    · split
      · rename_i sub sup hsub hsup
        exact genericArrayContainedIn_congr hsub hsup h
      · rfl

theorem isRuntimeValueSubtypeBy_eq (ruleOut : List ShapeEntry → List ShapeEntry → Bool)
    (subtype supertype : PhpType) :
    isRuntimeValueSubtypeBy ruleOut subtype supertype =
      runtimeValueSubtypeBody (isRuntimeValueSubtypeBy ruleOut) ruleOut subtype supertype :=
  guardedFixPair_eq (runtimeValueSubtypeBody_decreases ruleOut) subtype supertype

end

end PhpantomLsp
