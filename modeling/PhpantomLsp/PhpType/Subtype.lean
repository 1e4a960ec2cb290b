import PhpantomLsp.PhpType.Constructors

/-!
# Structural subtyping

The subtype check that needs no class hierarchy.  It is a chain of rules, each
of which settles a pair of types or leaves it to the next; `sub` stands for
the check itself, on the parts a rule compares.
-/

namespace PhpantomLsp

open Text Lib PhpType

/-! ## Shapes -/

/-- A shape the way two shapes are compared: its entries, and the key and
value of an unsealed one's tail. -/
structure ShapeParts where
  entries : List ShapeEntry
  tail : Option (PhpType × PhpType)
  isList : Bool

/-- `shape_parts`. -/
def shapeParts (t : PhpType) : Option ShapeParts :=
  match t.asUnsealedShape with
  | some unsealed =>
      match unsealed.shape.kind with
      | .arrayShape entries =>
          some ⟨entries, some (unsealed.key, unsealed.value), unsealed.shape.isListShape⟩
      | _ => none
  | none =>
      match t.kind with
      | .arrayShape entries => some ⟨entries, none, t.isListShape⟩
      | _ => none

/-- `KeyPositions::find`: the position of a key, `hint` if it is there.  A map
built for a long list keeps the last of two positions of a key. -/
def findKey (keys : List String) (key : String) (hint : Nat) : Option Nat :=
  if keys[hint]? = some key then some hint
  else if keys.length < 16 then keyPosition keys key
  else (keyPosition keys.reverse key).map fun at_ => keys.length - 1 - at_

section

variable (sub : PhpType → PhpType → Bool)

/-- Whether the entries of `sub` are listed by `wider`, or fall under its
tail. -/
def listedEntriesFit (parts wider : ShapeParts) (keys widerKeys : List String) : Bool :=
  ((parts.entries.zip keys).zipIdx).all fun ((entry, key), at_) =>
    match (findKey widerKeys key at_).bind (wider.entries[·]?) with
    | some other => (!entry.optional || other.optional) && sub entry.valueType other.valueType
    | none =>
        wider.tail.any fun (tailKey, tailValue) =>
          sub (shapeKeyType key) tailKey && sub entry.valueType tailValue

/-- Whether `sub` holds what `wider` requires, and what its tail may put under
the other keys fits them. -/
def widerEntriesFit (parts wider : ShapeParts) (keys widerKeys : List String) : Bool :=
  ((wider.entries.zip widerKeys).zipIdx).all fun ((entry, key), at_) =>
    (findKey keys key at_).isSome ||
      (entry.optional &&
        parts.tail.all fun (tailKey, tailValue) =>
          !sub (shapeKeyType key) tailKey || sub tailValue entry.valueType)

/-- Whether the tail of `sub` fits the tail of `wider`. -/
def tailFits (parts wider : ShapeParts) : Bool :=
  parts.tail.all fun (tailKey, tailValue) =>
    wider.tail.any fun (widerKey, widerValue) => sub tailKey widerKey && sub tailValue widerValue

/-- `shape_is_subshape`. -/
def shapeIsSubshape (parts wider : ShapeParts) : Bool :=
  let isList := parts.isList || (parts.tail.isNone && shapeKeysAreSequential parts.entries)
  if wider.isList && !isList then false
  else if wider.tail.isNone && keysRuleOutNesting parts.entries wider.entries then false
  else
    match runtimeShapeKeys parts.entries, runtimeShapeKeys wider.entries with
    | some keys, some widerKeys =>
        listedEntriesFit sub parts wider keys widerKeys &&
          widerEntriesFit sub parts wider keys widerKeys && tailFits sub parts wider
    | _, _ => false

/-! ## Arrays by their key and value types -/

variable [DedupHasher]

/-- `int|string`, as it is spelled where `array-key` is meant. -/
def intOrString : PhpType := mkUnion [PhpType.int, PhpType.string]

/-- `array_like_key_value`. -/
def arrayLikeKeyValue (name : Atom) (args : List PhpType) : Option (PhpType × PhpType) :=
  match args with
  | [value] =>
      let lower := asciiLower name
      some (if lower ∈ ["list", "non-empty-list"] then PhpType.int
        else if lower = "iterable" then PhpType.mixed
        else intOrString, value)
  | [key, value] => some (key, value)
  | _ => none

/-- The parts of an array that is no shape, read as the unsealed shape with no
entries of its own. -/
def arrayAsShapeParts (array : PhpType) : Option ShapeParts :=
  match array.kind with
  | .generic name args =>
      if isArrayLikeName name && !eqIgnoreAsciiCase name "iterable" then
        (arrayLikeKeyValue name args).map fun tail => ⟨[], some tail, isListName name⟩
      else none
  | .array value => some ⟨[], some (intOrString, value), false⟩
  | .named name =>
      if asciiLower name ∈ ["array", "non-empty-array"] then
        some ⟨[], some (intOrString, PhpType.mixed), false⟩
      else if asciiLower name ∈ ["list", "non-empty-list"] then
        some ⟨[], some (PhpType.int, PhpType.mixed), true⟩
      else none
  | _ => none

/-- `array_is_unsealed_subshape`. -/
def arrayIsUnsealedSubshape (array wider : PhpType) : Option Bool :=
  match (shapeParts wider).filter fun parts => parts.tail.isSome with
  | some wider =>
      if (shapeParts array).isSome then none
      else (arrayAsShapeParts array).map fun parts => shapeIsSubshape sub parts wider
  | none => none

/-! ## The rules -/

/-- The trivial answers, and the spellings rewritten into another. -/
def subtypeByNormalising (self supertype : PhpType) : Option Bool :=
  if self = supertype then some true
  else if self.asTemplateParam.any fun (name, _) => decide (supertype = .named name) then some true
  else if self.isNever || supertype.isMixed then some true
  else
    match self.kind with
    | .nullable inner => some (sub (mkUnion [inner, PhpType.null]) supertype)
    | selfKind =>
        match supertype.kind with
        | .nullable inner => some (sub self (mkUnion [inner, PhpType.null]))
        | _ =>
            if self.isArrayKey then some (sub intOrString supertype)
            else
              match supertype.asEnumCase, selfKind with
              | none, _ => none
              | some _, .union _ => none
              | some _, .intersection _ => none
              | some (supEnum, supCase), _ =>
                  some (self.asEnumCase.any fun (subEnum, subCase) =>
                    subCase == supCase && isNamedSubtype subEnum supEnum)

/-- Unions and intersections, on either side. -/
def subtypeOfComposite (self supertype : PhpType) : Option Bool :=
  match self.kind, supertype.kind with
  | .union members, .union wider =>
      if 8 ≤ wider.length then some (members.all fun m => m ∈ wider || sub m supertype)
      else some (members.all fun m => sub m supertype)
  | .union members, _ => some (members.all fun m => sub m supertype)
  | _, .union members => some (members.any fun m => sub self m)
  | _, .intersection members => some (members.all fun m => sub self m)
  | .intersection members, _ => some (members.any fun m => sub m supertype)
  | _, _ => none

/-- `literal_is_subtype_of`. -/
def literalIsSubtypeOf (lit : LiteralValue) (supertype : PhpType) : Bool :=
  match supertype.kind with
  | .literal other => literalsEqual lit other
  | .intRange min max => lit.parseInt.any fun value => intLiteralIsWithinRange value min max
  | .named sup => literalIsSubtypeOfNamed lit (keywordLower sup)
  | _ => false

/-- A range below a name. -/
def intRangeIsSubtypeOfNamed (min max sup : Atom) : Bool :=
  let supL := asciiLower sup
  if supL ∈ ["int", "integer", "float", "double", "real", "numeric", "number", "scalar",
      "array-key"] then true
  else
    match refinedIntToRange supL with
    | some (supMin, supMax) => intRangeIsSubrange min max supMin supMax
    | none =>
        supL = "non-zero-int" && (1 ≤ parseRangeBound min || parseRangeBound max ≤ -1)

/-- Names, `static` and `$this`, literals and integer ranges. -/
def subtypeOfScalar (self supertype : PhpType) : Option Bool :=
  match self.kind, supertype.kind with
  | .named sub, .named sup => some (isNamedSubtype sub sup)
  | .staticType sub, .named sup => some (isNamedSubtype sub sup)
  | .staticType sub, .staticType sup => some (isNamedSubtype sub sup)
  | .thisType sub, .named sup => some (isNamedSubtype sub sup)
  | .thisType sub, .staticType sup => some (isNamedSubtype sub sup)
  | .literal lit, _ => some (literalIsSubtypeOf lit supertype)
  | .intRange min max, .named sup => some (intRangeIsSubtypeOfNamed min max sup)
  | .intRange min max, .intRange supMin supMax => some (intRangeIsSubrange min max supMin supMax)
  | .named sub, .intRange supMin supMax =>
      (refinedIntToRange (asciiLower sub)).map fun (min, max) =>
        intRangeIsSubrange min max supMin supMax
  | _, _ => none

/-- `T[]` below another array. -/
def sliceIsSubtype (self supertype : PhpType) : Option Bool :=
  match self.kind, supertype.kind with
  | .array _, .named sup => some (asciiLower sup ∈ ["array", "iterable"])
  | .array elem, .array elemSup => some (sub elem elemSup)
  | .array elem, .generic name args =>
      if isArrayLikeName name then args.getLast?.map (sub elem) else none
  | _, _ => none

/-- A shape below another shape, either of which may be unsealed. -/
def shapesAreSubtypes (self supertype : PhpType) : Option Bool :=
  match shapeParts self, shapeParts supertype with
  | some parts, some wider => some (shapeIsSubshape sub parts wider)
  | _, _ => none

/-- Whether an entry of a shape fits the key and value of an array. -/
def entryFitsArray (keyType valType : PhpType) (entry : ShapeEntry) : Bool :=
  let entryKeyType := match entry.key with
    | some key => if isCanonicalIntKey key then PhpType.int else PhpType.string
    | none => PhpType.int
  sub entryKeyType keyType && sub entry.valueType valType

/-- `shape_is_subtype_of_array`. -/
def shapeIsSubtypeOfArray (isListShape : Bool) (entries : List ShapeEntry)
    (supertype : PhpType) : Option Bool :=
  let isNonEmpty := entries.any fun entry => !entry.optional
  let isList := isListShape || shapeKeysAreSequential entries
  match supertype.kind with
  | .named sup =>
      let lower := asciiLower sup
      some (if lower ∈ ["array", "iterable"] then true
        else if lower = "non-empty-array" then isNonEmpty
        else if lower = "list" then isList
        else if lower = "non-empty-list" then isList && isNonEmpty
        else false)
  | .generic name args =>
      if !isArrayLikeName name then none
      else if isNonEmptyArrayName name && !isNonEmpty then some false
      else if isListName name && !isList then some false
      else
        match args with
        | [valType] => some (entries.all fun entry => sub entry.valueType valType)
        | [keyType, valType] => some (entries.all (entryFitsArray sub keyType valType))
        | _ => none
  | .array inner => some (entries.all fun entry => sub entry.valueType inner)
  | _ => none

/-- A sealed shape below an array that is no shape. -/
def sealedShapeIsSubtype (self supertype : PhpType) : Option Bool :=
  match self.kind with
  | .arrayShape entries => shapeIsSubtypeOfArray sub self.isListShape entries supertype
  | _ => none

def objectShapeIsSubtype (self supertype : PhpType) : Option Bool :=
  match self.kind, supertype.kind with
  | .objectShape _, .named sup => some (eqIgnoreAsciiCase sup "object")
  | _, _ => none

/-- Generic types of one base, or both arrays. -/
def genericIsSubtype (self supertype : PhpType) : Option Bool :=
  match self.kind, supertype.kind with
  | .generic name args, .generic supName supArgs =>
      let keepsPromises := (!isListName supName || isListName name) &&
        (!isNonEmptyArrayName supName || isNonEmptyArrayName name)
      let bothArrays := isArrayLikeName name && isArrayLikeName supName
      let basesCompatible := eqIgnoreAsciiCase name supName || (bothArrays && keepsPromises)
      if basesCompatible && args.length == supArgs.length then some (zipAll sub args supArgs)
      else if bothArrays then
        match arrayLikeKeyValue name args, arrayLikeKeyValue supName supArgs with
        | some (key, value), some (supKey, supValue) =>
            some (keepsPromises && sub key supKey && sub value supValue)
        | _, _ => none
      else none
  | _, _ => none

/-- A generic array below a bare name or a slice. -/
def genericArrayIsSubtype (self supertype : PhpType) : Option Bool :=
  match self.kind, supertype.kind with
  | .generic name _, .named sup =>
      if isArrayLikeName name then some (asciiLower sup ∈ ["array", "iterable"]) else none
  | .generic name args, .array inner =>
      if isArrayLikeName name then args.getLast?.map fun value => sub value inner else none
  | _, _ => none

/-- Arrays in every spelling, and object shapes. -/
def subtypeOfArray (self supertype : PhpType) : Option Bool :=
  (arrayIsUnsealedSubshape sub self supertype).or <|
    (sliceIsSubtype sub self supertype).or <|
    (shapesAreSubtypes sub self supertype).or <|
    (sealedShapeIsSubtype sub self supertype).or <|
    (objectShapeIsSubtype self supertype).or <|
    (genericIsSubtype sub self supertype).or <|
    genericArrayIsSubtype sub self supertype

/-- `class-string` and `interface-string`. -/
def subtypeOfSymbolName (self supertype : PhpType) : Option Bool :=
  match self.kind, supertype.kind with
  | .classString _, .named sup => some (isNamedSubtype "class-string" sup)
  | .classString (some inner), .classString (some supInner) => some (sub inner supInner)
  | .classString (some _), .classString none => some true
  | .interfaceString _, .named sup => some (isNamedSubtype "interface-string" sup)
  | .named name, .classString none =>
      if isNamedSubtype name "class-string" then some true else none
  | _, _ => none

/-- Callable specifications. -/
def subtypeOfCallable (self supertype : PhpType) : Option Bool :=
  match self.kind, supertype.kind with
  | .callable _ params returnType, .callable _ supParams supReturn =>
      let returnOk := match returnType, supReturn with
        | some ret, some supRet => sub ret supRet
        | _, none => true
        | none, some _ => false
      let paramsOk := supParams.length ≤ params.length &&
        (supParams.zip params).all fun (supParam, param) => sub supParam.typeHint param.typeHint
      some (returnOk && paramsOk)
  | .callable _ _ _, .named sup => some (asciiLower sup ∈ ["callable", "closure", "object"])
  | .named name, .callable _ _ _ =>
      if asciiLower name ∈ ["callable", "closure"] then some true else none
  | _, _ => none

/-- One round of `is_subtype_of`. -/
def subtypeBody (self supertype : PhpType) : Bool :=
  ((subtypeByNormalising sub self supertype).or <|
    (subtypeOfComposite sub self supertype).or <|
    (subtypeOfScalar self supertype).or <|
    (subtypeOfArray sub self supertype).or <|
    (subtypeOfSymbolName sub self supertype).or <|
    subtypeOfCallable sub self supertype).getD false

end

/-- `is_subtype_of`. -/
def isSubtypeOf [DedupHasher] (self supertype : PhpType) : Bool :=
  guardedFixPair PhpType.weight false (fun sub => subtypeBody sub) self supertype

/-! ## The recursion equation -/

/-- The weight of a shape as it is compared: its entries and its tail. -/
def ShapeParts.Below (parts : ShapeParts) (n : Nat) : Prop :=
  (∀ entry ∈ parts.entries, entry.valueType.weight + 6 ≤ n) ∧
    ∀ tail ∈ parts.tail, tail.1.weight ≤ n ∧ tail.2.weight ≤ n

theorem mem_of_zip_fst {α β : Type} {as : List α} {bs : List β} {p : α × β}
    (h : p ∈ as.zip bs) : p.1 ∈ as :=
  (List.of_mem_zip h).1

/-- An array shape is heavier than its entries, and an unsealed one than its
tail by what else it holds. -/
theorem shapeParts_below {t : PhpType} {parts : ShapeParts} (h : shapeParts t = some parts) :
    parts.Below t.weight ∧
      ∀ tail ∈ parts.tail, tail.1.weight < t.weight ∧ tail.2.weight < t.weight ∧
        parts.Below (t.weight - 4) := by
  have hentries : ∀ {u : PhpType} {entries : List ShapeEntry} {entry : ShapeEntry},
      u.kind = .arrayShape entries → entry ∈ entries → entry.valueType.weight + 7 ≤ u.weight := by
    intro u entries entry hu hentry
    have hkind := u.weight_kind_le
    have := weight_lt_of_mem_entries hentry
    rw [hu] at hkind
    simp only [weight] at hkind
    omega
  unfold shapeParts at h
  split at h
  · rename_i unsealed hunsealed
    obtain rfl := asUnsealedShape_eq_some hunsealed
    split at h
    · rename_i entries hshape
      obtain rfl := Option.some.inj h
      have := weight_pos unsealed.shape
      have := weight_pos unsealed.key
      have := weight_pos unsealed.value
      have hlight : ∀ entry ∈ entries, entry.valueType.weight + 6 ≤
          (PhpType.unsealedShape unsealed.shape unsealed.key unsealed.value
            unsealed.widenedName unsealed.widenedArgs).weight - 4 := by
        intro entry hentry
        have := hentries hshape hentry
        simp only [weight]
        omega
      refine ⟨⟨fun entry he => ?_, fun tail ht => ?_⟩, fun tail ht => ?_⟩
      · have := hlight entry he
        omega
      · obtain rfl := Option.some.inj ht
        simp only [weight]
        omega
      · obtain rfl := Option.some.inj ht
        refine ⟨by simp only [weight]; omega, by simp only [weight]; omega, hlight, ?_⟩
        intro tail ht
        obtain rfl := Option.some.inj ht
        simp only [weight]
        omega
    · exact absurd h (by simp)
  · split at h
    · rename_i entries hkind
      obtain rfl := Option.some.inj h
      refine ⟨⟨fun entry he => ?_, fun tail ht => absurd ht (by simp)⟩,
        fun tail ht => absurd ht (by simp)⟩
      have := hentries hkind he
      omega
    · exact absurd h (by simp)

section

variable {f g : PhpType → PhpType → Bool} {a b : PhpType}

theorem shapeIsSubshape_congr {parts wider : ShapeParts} {m n : Nat} (hparts : parts.Below m)
    (hwider : wider.Below n) (hmn : m + n ≤ a.weight + b.weight)
    (hstrict : ∀ t ∈ parts.tail, ∀ u ∈ wider.tail, t.1.weight + u.1.weight < a.weight + b.weight ∧
      t.2.weight + u.2.weight < a.weight + b.weight)
    (h : ∀ c d, c.weight + d.weight < a.weight + b.weight → f c d = g c d) :
    shapeIsSubshape f parts wider = shapeIsSubshape g parts wider := by
  have hlisted : ∀ keys widerKeys, listedEntriesFit f parts wider keys widerKeys =
      listedEntriesFit g parts wider keys widerKeys := by
    intro keys widerKeys
    refine all_congr_of_mem (fun p hp => ?_)
    obtain ⟨⟨entry, key⟩, at_⟩ := p
    have hentry := hparts.1 entry (mem_of_zip_fst (List.fst_mem_of_mem_zipIdx hp))
    dsimp only
    split
    · rename_i other hother
      obtain ⟨index, -, hindex⟩ := Option.bind_eq_some_iff.mp hother
      have := hwider.1 other (List.mem_of_getElem? hindex)
      rw [h _ _ (by omega)]
    · cases htail : wider.tail with
      | none => rfl
      | some tail =>
          have := hwider.2 tail htail
          have := weight_shapeKeyType_le key
          simp only [Option.any_some]
          rw [h _ _ (by omega), h _ _ (by omega)]
  have hwide : ∀ keys widerKeys, widerEntriesFit f parts wider keys widerKeys =
      widerEntriesFit g parts wider keys widerKeys := by
    intro keys widerKeys
    refine all_congr_of_mem (fun p hp => ?_)
    obtain ⟨⟨entry, key⟩, at_⟩ := p
    have hentry := hwider.1 entry (mem_of_zip_fst (List.fst_mem_of_mem_zipIdx hp))
    cases htail : parts.tail with
    | none => simp
    | some tail =>
        have := hparts.2 tail htail
        have := weight_shapeKeyType_le key
        simp only [Option.all_some]
        rw [h _ _ (by omega), h _ _ (by omega)]
  have htail : tailFits f parts wider = tailFits g parts wider := by
    unfold tailFits
    cases hsub : parts.tail with
    | none => rfl
    | some tail =>
        cases hwid : wider.tail with
        | none => rfl
        | some widerTail =>
            have := hstrict tail hsub widerTail hwid
            simp only [Option.all_some, Option.any_some]
            rw [h _ _ this.1, h _ _ this.2]
  unfold shapeIsSubshape
  simp only [hlisted, hwide, htail]

theorem shapesAreSubtypes_congr
    (h : ∀ c d, c.weight + d.weight < a.weight + b.weight → f c d = g c d) :
    shapesAreSubtypes f a b = shapesAreSubtypes g a b := by
  unfold shapesAreSubtypes
  split
  · rename_i parts wider hparts hwider
    obtain ⟨hbelow, htail⟩ := shapeParts_below hparts
    obtain ⟨hbelow', htail'⟩ := shapeParts_below hwider
    rw [shapeIsSubshape_congr hbelow hbelow' (le_refl _) ?_ h]
    intro t ht u hu
    have := htail t ht
    have := htail' u hu
    omega
  · rfl

theorem subtypeOfComposite_congr
    (h : ∀ c d, c.weight + d.weight < a.weight + b.weight → f c d = g c d) :
    subtypeOfComposite f a b = subtypeOfComposite g a b := by
  have hkind := a.weight_kind_le
  have hkind' := b.weight_kind_le
  have hleft : ∀ m members, a.kind = .union members ∨ a.kind = .intersection members →
      m ∈ members → f m b = g m b := by
    intro m members heq hm
    have := weight_le_of_mem hm
    rcases heq with heq | heq <;> rw [heq] at hkind <;> simp only [weight] at hkind <;>
      exact h _ _ (by omega)
  have hright : ∀ m members, b.kind = .union members ∨ b.kind = .intersection members →
      m ∈ members → f a m = g a m := by
    intro m members heq hm
    have := weight_le_of_mem hm
    rcases heq with heq | heq <;> rw [heq] at hkind' <;> simp only [weight] at hkind' <;>
      exact h _ _ (by omega)
  unfold subtypeOfComposite
  split
  · rename_i members wider heq heq'
    have hmem : ∀ m ∈ members, f m b = g m b := fun m hm => hleft m members (.inl heq) hm
    split
    · rw [all_congr_of_mem fun m hm => by rw [hmem m hm]]
    · rw [all_congr_of_mem hmem]
  · rename_i members heq _
    rw [all_congr_of_mem fun m hm => hleft m members (.inl heq) hm]
  · rename_i members heq _
    rw [any_congr_of_mem fun m hm => hright m members (.inl heq) hm]
  · rename_i members heq _
    rw [all_congr_of_mem fun m hm => hright m members (.inr heq) hm]
  · rename_i members heq _ _
    rw [any_congr_of_mem fun m hm => hleft m members (.inr heq) hm]
  · rfl

theorem weight_getLast_le {args : List PhpType} {last : PhpType} (h : args.getLast? = some last) :
    last.weight ≤ weightList args :=
  weight_le_of_mem (List.mem_of_getLast? h)

theorem sliceIsSubtype_congr
    (h : ∀ c d, c.weight + d.weight < a.weight + b.weight → f c d = g c d) :
    sliceIsSubtype f a b = sliceIsSubtype g a b := by
  have hkind := a.weight_kind_le
  have hkind' := b.weight_kind_le
  unfold sliceIsSubtype
  split <;> rename_i heq heq'
  · rfl
  · rw [heq] at hkind
    rw [heq'] at hkind'
    simp only [weight] at hkind hkind'
    rw [h _ _ (by omega)]
  · rename_i elem name args
    rw [heq] at hkind
    rw [heq'] at hkind'
    simp only [weight] at hkind hkind'
    split
    · cases hlast : args.getLast? with
      | none => rfl
      | some last =>
          have := weight_getLast_le hlast
          rw [Option.map_some, Option.map_some, h _ _ (by omega)]
    · rfl
  · rfl

theorem sealedShapeIsSubtype_congr
    (h : ∀ c d, c.weight + d.weight < a.weight + b.weight → f c d = g c d) :
    sealedShapeIsSubtype f a b = sealedShapeIsSubtype g a b := by
  have hkind := a.weight_kind_le
  have hkind' := b.weight_kind_le
  have hint := weight_int
  have hstring := weight_string
  unfold sealedShapeIsSubtype
  split
  · rename_i entries heq
    rw [heq] at hkind
    simp only [weight] at hkind
    have hvalue : ∀ entry ∈ entries, ∀ c : PhpType, c.weight ≤ b.weight →
        f entry.valueType c = g entry.valueType c := by
      intro entry hentry c hc
      have := weight_lt_of_mem_entries hentry
      exact h _ _ (by omega)
    unfold shapeIsSubtypeOfArray
    dsimp only
    split
    · rfl
    · rename_i name args heq'
      rw [heq'] at hkind'
      simp only [weight] at hkind'
      split
      · rfl
      split
      · rfl
      split
      · rfl
      split
      · rename_i valType
        simp only [weightList] at hkind'
        rw [all_congr_of_mem fun entry he => hvalue entry he valType (by omega)]
      · rename_i keyType valType
        simp only [weightList] at hkind'
        rw [all_congr_of_mem fun entry he => ?_]
        have := weight_lt_of_mem_entries he
        unfold entryFitsArray
        dsimp only
        rw [hvalue entry he valType (by omega)]
        congr 1
        split
        · split <;> exact h _ _ (by omega)
        · exact h _ _ (by omega)
      · rfl
    · rename_i inner heq'
      rw [heq'] at hkind'
      simp only [weight] at hkind'
      rw [all_congr_of_mem fun entry he => hvalue entry he inner (by omega)]
    · rfl
  · rfl

theorem genericArrayIsSubtype_congr
    (h : ∀ c d, c.weight + d.weight < a.weight + b.weight → f c d = g c d) :
    genericArrayIsSubtype f a b = genericArrayIsSubtype g a b := by
  have hkind := a.weight_kind_le
  have hkind' := b.weight_kind_le
  unfold genericArrayIsSubtype
  split <;> rename_i heq heq'
  · rfl
  · rename_i name args inner
    rw [heq] at hkind
    rw [heq'] at hkind'
    simp only [weight] at hkind hkind'
    split
    · cases hlast : args.getLast? with
      | none => rfl
      | some last =>
          have := weight_getLast_le hlast
          rw [Option.map_some, Option.map_some, h _ _ (by omega)]
    · rfl
  · rfl

theorem subtypeOfSymbolName_congr
    (h : ∀ c d, c.weight + d.weight < a.weight + b.weight → f c d = g c d) :
    subtypeOfSymbolName f a b = subtypeOfSymbolName g a b := by
  have hkind := a.weight_kind_le
  have hkind' := b.weight_kind_le
  unfold subtypeOfSymbolName
  split
  case h_2 inner supInner heq heq' =>
      rw [heq] at hkind
      rw [heq'] at hkind'
      simp only [weight, weightOption] at hkind hkind'
      rw [h _ _ (by omega)]
  all_goals rfl

theorem subtypeOfCallable_congr
    (h : ∀ c d, c.weight + d.weight < a.weight + b.weight → f c d = g c d) :
    subtypeOfCallable f a b = subtypeOfCallable g a b := by
  have hkind := a.weight_kind_le
  have hkind' := b.weight_kind_le
  unfold subtypeOfCallable
  split
  · rename_i params returnType _ supParams supReturn heq heq'
    rw [heq] at hkind
    rw [heq'] at hkind'
    simp only [weight] at hkind hkind'
    have hparams : ((supParams.zip params).all fun (supParam, param) =>
          f supParam.typeHint param.typeHint) =
        (supParams.zip params).all fun (supParam, param) =>
          g supParam.typeHint param.typeHint := by
      refine all_congr_of_mem (fun p hp => ?_)
      obtain ⟨hsup, hparam⟩ := List.of_mem_zip hp
      have := weight_lt_of_mem_params hsup
      have := weight_lt_of_mem_params hparam
      exact h _ _ (by omega)
    cases returnType with
    | none => cases supReturn <;> simp only [hparams]
    | some ret =>
        cases supReturn with
        | none => simp only [hparams]
        | some supRet =>
            simp only [weightOption] at hkind hkind'
            simp only [hparams, h ret supRet (by omega)]
  · rfl
  · rfl
  · rfl

end

section

variable [DedupHasher] {f g : PhpType → PhpType → Bool} {a b : PhpType}

theorem weight_intOrString_le : intOrString.weight ≤ 3 := by
  have := weight_mkUnion_le [PhpType.int, PhpType.string]
  simp only [weightList, weight_int, weight_string] at this
  exact this

theorem weight_orNull_le (inner : PhpType) :
    (mkUnion [inner, PhpType.null]).weight ≤ inner.weight + 2 := by
  have := weight_mkUnion_le [inner, PhpType.null]
  simp only [weightList, weight_null] at this
  omega

/-- The key and value of an array weigh little more than the array. -/
theorem arrayLikeKeyValue_weight {name : Atom} {args : List PhpType} {tail : PhpType × PhpType}
    (h : arrayLikeKeyValue name args = some tail) :
    tail.1.weight < 4 + weightList args ∧ tail.2.weight ≤ weightList args := by
  have hunion := weight_intOrString_le
  unfold arrayLikeKeyValue at h
  split at h
  · obtain rfl := Option.some.inj h
    refine ⟨?_, by simp only [weightList]; omega⟩
    dsimp only
    split_ifs
    · rw [weight_int]; omega
    · rw [weight_mixed]; omega
    · omega
  · obtain rfl := Option.some.inj h
    simp only [weightList]
    omega
  · exact absurd h (by simp)

theorem arrayAsShapeParts_below {t : PhpType} {parts : ShapeParts}
    (h : arrayAsShapeParts t = some parts) :
    parts.entries = [] ∧
      ∀ tail ∈ parts.tail, tail.1.weight ≤ t.weight + 2 ∧ tail.2.weight ≤ t.weight := by
  have hunion := weight_intOrString_le
  have hkind := t.weight_kind_le
  have hpos := t.weight_pos
  unfold arrayAsShapeParts at h
  split at h
  · rename_i name args heq
    rw [heq] at hkind
    simp only [weight] at hkind
    split at h
    · obtain ⟨tail, htail, rfl⟩ := Option.map_eq_some_iff.mp h
      have := arrayLikeKeyValue_weight htail
      refine ⟨rfl, fun tail' ht => ?_⟩
      obtain rfl := Option.some.inj ht
      omega
    · exact absurd h (by simp)
  · rename_i value heq
    rw [heq] at hkind
    simp only [weight] at hkind
    obtain rfl := Option.some.inj h
    refine ⟨rfl, fun tail ht => ?_⟩
    obtain rfl := Option.some.inj ht
    dsimp only
    omega
  · have := weight_mixed
    have := weight_int
    split at h
    · obtain rfl := Option.some.inj h
      refine ⟨rfl, fun tail ht => ?_⟩
      obtain rfl := Option.some.inj ht
      dsimp only
      omega
    · split at h
      · obtain rfl := Option.some.inj h
        refine ⟨rfl, fun tail ht => ?_⟩
        obtain rfl := Option.some.inj ht
        dsimp only
        omega
      · exact absurd h (by simp)
  · exact absurd h (by simp)

theorem arrayIsUnsealedSubshape_congr
    (h : ∀ c d, c.weight + d.weight < a.weight + b.weight → f c d = g c d) :
    arrayIsUnsealedSubshape f a b = arrayIsUnsealedSubshape g a b := by
  unfold arrayIsUnsealedSubshape
  split
  · rename_i wider hwider
    obtain ⟨hwider, hsome⟩ := Option.filter_eq_some_iff.mp hwider
    obtain ⟨tail, htail⟩ := Option.isSome_iff_exists.mp hsome
    obtain ⟨-, hrest⟩ := shapeParts_below hwider
    obtain ⟨hkey, hvalue, hbelow⟩ := hrest tail htail
    split
    · rfl
    · cases hparts : arrayAsShapeParts a with
      | none => rfl
      | some parts =>
          obtain ⟨hempty, hparts⟩ := arrayAsShapeParts_below hparts
          have hb : 5 ≤ b.weight := by
            have := hbelow.2 tail htail
            have := tail.1.weight_pos
            omega
          simp only [Option.map_some]
          refine congrArg some (shapeIsSubshape_congr (m := a.weight + 4) (n := b.weight - 4)
            ⟨by simp [hempty], fun t ht => ?_⟩ hbelow (by omega) (fun t ht u hu => ?_) h)
          · have := hparts t ht
            omega
          · have := hparts t ht
            have := hbelow.2 u hu
            omega
  · rfl

theorem subtypeByNormalising_congr
    (h : ∀ c d, c.weight + d.weight < a.weight + b.weight → f c d = g c d) :
    subtypeByNormalising f a b = subtypeByNormalising g a b := by
  have hkind := a.weight_kind_le
  have hkind' := b.weight_kind_le
  unfold subtypeByNormalising
  split
  · rfl
  split
  · rfl
  split
  · rfl
  split
  · rename_i inner heq
    have := weight_orNull_le inner
    rw [heq] at hkind
    simp only [weight] at hkind
    rw [h _ _ (by omega)]
  · split
    · rename_i inner heq
      have := weight_orNull_le inner
      rw [heq] at hkind'
      simp only [weight] at hkind'
      rw [h _ _ (by omega)]
    · split
      · rename_i hnot _ hnot' harray
        have hunion := weight_intOrString_le
        have ha : 4 ≤ a.weight := by
          rw [isArrayKey, namedThroughNullable_eq, namedThroughNullableBody] at harray
          split at harray
          · rename_i name heq
            rw [heq] at hkind
            simp only [weight, nameWeight, harray, if_true] at hkind
            exact hkind
          · rename_i inner heq
            exact absurd heq (hnot inner)
          · exact absurd harray (by simp)
        rw [h _ _ (by omega)]
      · rfl

theorem genericIsSubtype_congr
    (h : ∀ c d, c.weight + d.weight < a.weight + b.weight → f c d = g c d) :
    genericIsSubtype f a b = genericIsSubtype g a b := by
  have hkind := a.weight_kind_le
  have hkind' := b.weight_kind_le
  unfold genericIsSubtype
  split
  · rename_i name args supName supArgs heq heq'
    rw [heq] at hkind
    rw [heq'] at hkind'
    simp only [weight] at hkind hkind'
    have hzip : zipAll f args supArgs = zipAll g args supArgs := by
      refine zipAll_congr (fun x hx y hy => ?_)
      have := weight_le_of_mem hx
      have := weight_le_of_mem hy
      exact h _ _ (by omega)
    dsimp only
    rw [hzip]
    split
    · rfl
    split
    · cases hkv : arrayLikeKeyValue name args with
      | none => rfl
      | some tail =>
          cases hkv' : arrayLikeKeyValue supName supArgs with
          | none => rfl
          | some supTail =>
              have := arrayLikeKeyValue_weight hkv
              have := arrayLikeKeyValue_weight hkv'
              dsimp only
              rw [h _ _ (by omega), h tail.2 supTail.2 (by omega)]
    · rfl
  · rfl

theorem subtypeBody_decreases : DecreasesPair PhpType.weight (fun sub => subtypeBody sub) := by
  intro f g a b h
  dsimp only
  unfold subtypeBody subtypeOfArray
  rw [subtypeByNormalising_congr h, subtypeOfComposite_congr h, arrayIsUnsealedSubshape_congr h,
    sliceIsSubtype_congr h, shapesAreSubtypes_congr h, sealedShapeIsSubtype_congr h,
    genericIsSubtype_congr h, genericArrayIsSubtype_congr h, subtypeOfSymbolName_congr h,
    subtypeOfCallable_congr h]

/-- The rules of `is_subtype_of`, as the source writes them. -/
theorem isSubtypeOf_eq (self supertype : PhpType) :
    isSubtypeOf self supertype = subtypeBody isSubtypeOf self supertype :=
  guardedFixPair_eq subtypeBody_decreases self supertype

end

end PhpantomLsp
