import PhpantomLsp.PhpType.ScalarNames
import PhpantomLsp.PhpType.Subtype

/-!
# Subtyping between scalar types

Between scalar types the subtype relation is a table: names against names,
literals and integer ranges against names, ranges against ranges, and the
strings that name a class.  `scalarBelow` is that table.
-/

namespace PhpantomLsp

open Text Lib PhpType

/-- The types a scalar value is described by, with what a `class-string` may
name. -/
inductive ScalarType : PhpType → Prop where
  | keyword {name : Atom} (h : keywordLower name ∈ scalarKeywords) : ScalarType (.named name)
  | classReference {name : Atom} (h : isClassReference name = true) : ScalarType (.named name)
  | literal (value : LiteralValue) : ScalarType (.literal value)
  | intRange (min max : Atom) : ScalarType (.intRange min max)
  | classString {inner : Option PhpType} (h : ∀ t ∈ inner, ScalarType t) :
      ScalarType (.classString inner)
  | interfaceString (inner : Option PhpType) : ScalarType (.interfaceString inner)

/-- The order of two names. -/
def namesBelow (sub sup : Atom) : Bool :=
  if keywordLower sub ∈ scalarKeywords then
    decide (keywordLower sup ∈ scalarKeywords) &&
      keywordBelow (keywordLower sub) (keywordLower sup)
  else
    !decide (keywordLower sup ∈ scalarKeywords) &&
      decide (asciiLower (stripFqnPrefix sub) = asciiLower (stripFqnPrefix sup))

/-! ## What the names are -/

theorem isArrayKey_named {name : Atom} :
    isArrayKey (.named name) = eqIgnoreAsciiCase name "array-key" := by
  unfold isArrayKey
  rw [namedThroughNullable_eq]
  rfl

/-- What the lowercase of a scalar name is. -/
theorem lower_cases {name : Atom} (h : ScalarType (.named name)) :
    keywordLower name ∈ scalarKeywords ∧ asciiLower name = keywordLower name ∨
      isClassReference name = true ∧ asciiLower name ∉ reservedNames := by
  cases h with
  | keyword h => exact .inl ⟨h, (asciiLower_of_keyword h).1⟩
  | classReference h => exact .inr ⟨h, asciiLower_not_reserved_of_class h⟩

theorem scalarType_keyword {name : Atom} (h : name ∈ scalarKeywords) :
    ScalarType (.named name) := by
  have hlower : ∀ name ∈ scalarKeywords, keywordLower name ∈ scalarKeywords := by decide
  exact .keyword (hlower _ h)

theorem asciiLower_ne {name : Atom} (h : ScalarType (.named name)) {reserved : String}
    (hmem : reserved ∈ reservedNames) (hnot : reserved ∉ scalarKeywords) :
    asciiLower name ≠ reserved := by
  intro heq
  rcases lower_cases h with ⟨hkeyword, hlower⟩ | ⟨-, hlower⟩
  · exact hnot (heq ▸ hlower ▸ hkeyword)
  · exact hlower (heq ▸ hmem)

theorem not_mixed_never {t : PhpType} (h : ScalarType t) :
    t.isMixed = false ∧ t.isNever = false := by
  cases ht : t with
  | named name =>
      rw [ht] at h
      have hne : ∀ reserved ∈ ["mixed", "never", "no-return", "noreturn", "never-return",
          "never-returns"], asciiLower name ≠ reserved :=
        fun reserved hmem => asciiLower_ne h (by revert reserved; decide)
          (by revert reserved; decide)
      simp only [List.mem_cons, List.not_mem_nil, or_false, forall_eq_or_imp, forall_eq] at hne
      constructor
      · show eqIgnoreAsciiCase name "mixed" = false
        unfold eqIgnoreAsciiCase
        rw [show asciiLower "mixed" = "mixed" by decide]
        simpa using hne.1
      · show decide (asciiLower name ∈ _) = false
        simp [hne]
  | _ => rw [ht] at h; cases h <;> exact ⟨rfl, rfl⟩

theorem isNamedSubtype_names {sub sup : Atom} (hsub : ScalarType (.named sub))
    (hsup : ScalarType (.named sup)) (hkey : keywordLower sub ≠ "array-key") :
    isNamedSubtype sub sup = namesBelow sub sup := by
  unfold namesBelow keywordBelow
  rw [if_neg hkey]
  cases hsub with
  | keyword hsub =>
      rw [if_pos hsub]
      cases hsup with
      | keyword hsup =>
          rw [isNamedSubtype_keywords hsub hsup]
          by_cases heq : keywordLower sub = keywordLower sup
          · simp [heq, hsup, keywordSubtype]
          · simp [heq, hsup]
      | classReference hsup =>
          rw [isNamedSubtype_keyword_class hsub hsup]
          simp [keywordLower_of_class hsup]
  | classReference hsub =>
      rw [if_neg (keywordLower_of_class hsub)]
      cases hsup with
      | keyword hsup =>
          rw [isNamedSubtype_class_keyword hsub hsup]
          simp [hsup]
      | classReference hsup =>
          rw [isNamedSubtype_classes hsub hsup]
          simp [keywordLower_of_class hsup]

/-- A range below a name is one between two bounds. -/
theorem intRangeIsSubtypeOfNamed_eq (min max sup : Atom) :
    intRangeIsSubtypeOfNamed min max sup =
      boundsBelow (parseRangeBound min) (parseRangeBound max) (asciiLower sup) := by
  unfold intRangeIsSubtypeOfNamed boundsBelow
  dsimp only
  by_cases hwide : asciiLower sup ∈ wideIntKeywords
  · have hwide' := hwide
    unfold wideIntKeywords at hwide'
    rw [if_pos hwide']
    simp [hwide]
  · have hwide' := hwide
    unfold wideIntKeywords at hwide'
    rw [if_neg hwide']
    simp only [hwide, decide_false, Bool.false_or]
    rfl

/-- What is above `array-key` is above `int` and above `string`. -/
theorem namesBelow_arrayKey {name sup : Atom} (h : keywordLower name = "array-key") :
    namesBelow name sup = (namesBelow "int" sup && namesBelow "string" sup) := by
  have hkeywords : ∀ sup ∈ scalarKeywords, keywordBelow "array-key" sup =
      (keywordBelow "int" sup && keywordBelow "string" sup) := by decide
  have hint : keywordLower "int" = "int" ∧ "int" ∈ scalarKeywords := by decide
  have hstring : keywordLower "string" = "string" ∧ "string" ∈ scalarKeywords := by decide
  have hkey : "array-key" ∈ scalarKeywords := by decide
  unfold namesBelow
  rw [h, hint.1, hstring.1, if_pos hkey, if_pos hint.2, if_pos hstring.2]
  by_cases hsup : keywordLower sup ∈ scalarKeywords
  · simp [hsup, hkeywords _ hsup]
  · simp [hsup]

/-! ## The table -/

section

variable [DedupHasher]

/-- The order of two scalar types. -/
def scalarBelow : PhpType → PhpType → Bool
  | .named sub, .named sup => namesBelow sub sup
  | .named sub, .intRange min max =>
      (refinedBounds (asciiLower sub)).any fun (lo, hi) =>
        parseRangeBound min ≤ lo && hi ≤ parseRangeBound max
  | .named sub, .classString none => namesBelow sub "class-string"
  | .literal value, .named sup => literalIsSubtypeOfNamed value (keywordLower sup)
  | .literal value, .literal other => literalsEqual value other
  | .literal value, .intRange min max =>
      value.parseInt.any fun z => intLiteralIsWithinRange z min max
  | .intRange min max, .named sup =>
      boundsBelow (parseRangeBound min) (parseRangeBound max) (asciiLower sup)
  | .intRange min max, .intRange supMin supMax => intRangeIsSubrange min max supMin supMax
  | .classString _, .named sup => namesBelow "class-string" sup
  | .classString _, .classString none => true
  | .classString (some sub), .classString (some sup) => isSubtypeOf sub sup
  | .interfaceString _, .named sup => namesBelow "interface-string" sup
  | .interfaceString sub, .interfaceString sup => decide (sub = sup)
  | _, _ => false

theorem isSubtypeOf_self (t : PhpType) : isSubtypeOf t t = true := by
  rw [isSubtypeOf_eq]
  simp [subtypeBody, subtypeByNormalising]

/-! ## The table is the relation -/

variable {a b : PhpType}

/-- The rules that compare two scalar types. -/
theorem subtypeBody_scalar {f : PhpType → PhpType → Bool} (ha : ScalarType a) (hb : ScalarType b)
    (hne : a ≠ b) (hkey : a.isArrayKey = false) :
    subtypeBody f a b = ((subtypeOfScalar a b).or <|
      (subtypeOfSymbolName f a b).or (subtypeOfCallable f a b)).getD false := by
  have hmixed := (not_mixed_never hb).1
  have hnever := (not_mixed_never ha).2
  have hnormal : subtypeByNormalising f a b = none := by
    unfold subtypeByNormalising
    cases ha <;> cases hb <;>
      simp [hne, hkey, hmixed, hnever, asTemplateParam, kind, asEnumCase]
  have hcomposite : subtypeOfComposite f a b = none := by
    cases ha <;> cases hb <;> rfl
  have harray : subtypeOfArray f a b = none := by
    cases ha <;> cases hb <;> rfl
  unfold subtypeBody
  rw [hnormal, hcomposite, harray]
  simp only [Option.none_or]

theorem subtypeOfScalar_named_intRange (sub min max : Atom) :
    (subtypeOfScalar (.named sub) (.intRange min max)).getD false =
      scalarBelow (.named sub) (.intRange min max) := by
  show ((refinedIntToRange (asciiLower sub)).map _).getD false =
    (refinedBounds (asciiLower sub)).any _
  unfold refinedBounds
  cases refinedIntToRange (asciiLower sub) <;> rfl

/-- The rules, on a scalar type that is not spelled `array-key`. -/
theorem isSubtypeOf_scalar_of_ne (ha : ScalarType a) (hb : ScalarType b) (hne : a ≠ b)
    (hkey : ∀ name, a = .named name → keywordLower name ≠ "array-key") :
    isSubtypeOf a b = scalarBelow a b := by
  have hclass : ScalarType (.named "class-string") := scalarType_keyword (by decide)
  have hinterface : ScalarType (.named "interface-string") :=
    scalarType_keyword (by decide)
  have harray : a.isArrayKey = false := by
    cases ha' : a with
    | named name =>
        rw [ha'] at ha
        rw [isArrayKey_named]
        unfold eqIgnoreAsciiCase
        rw [show asciiLower "array-key" = "array-key" by decide]
        rcases lower_cases ha with ⟨-, hlower⟩ | ⟨-, hlower⟩
        · simpa [hlower] using hkey name ha'
        · have hne' : asciiLower name ≠ "array-key" := by
            intro heq
            exact hlower (heq ▸ by decide)
          simpa using hne'
    | _ =>
        unfold isArrayKey
        rw [namedThroughNullable_eq]
        rw [ha'] at ha
        cases ha <;> rfl
  rw [isSubtypeOf_eq, subtypeBody_scalar ha hb hne harray]
  cases a with
  | named sub =>
      have hsub := hkey sub rfl
      cases b with
      | named sup =>
          simp only [subtypeOfScalar, kind, Option.some_or, Option.getD_some, scalarBelow]
          exact isNamedSubtype_names ha hb hsub
      | intRange min max =>
          rw [← subtypeOfScalar_named_intRange]
          simp [subtypeOfSymbolName, subtypeOfCallable, kind]
      | classString inner =>
          cases inner with
          | none =>
              simp only [subtypeOfScalar, subtypeOfSymbolName, subtypeOfCallable, kind,
                Option.none_or, Option.or_none, scalarBelow]
              rw [isNamedSubtype_names ha hclass hsub]
              cases namesBelow sub "class-string" <;> simp
          | some inner =>
              simp [subtypeOfScalar, subtypeOfSymbolName, subtypeOfCallable, kind, scalarBelow]
      | _ =>
          cases hb <;>
            simp [subtypeOfScalar, subtypeOfSymbolName, subtypeOfCallable, kind, scalarBelow]
  | literal value =>
      cases hb <;> simp [subtypeOfScalar, literalIsSubtypeOf, kind, scalarBelow]
  | intRange min max =>
      cases b with
      | named sup =>
          simp only [subtypeOfScalar, kind, Option.some_or, Option.getD_some, scalarBelow]
          exact intRangeIsSubtypeOfNamed_eq min max sup
      | _ =>
          cases hb <;>
            simp [subtypeOfScalar, subtypeOfSymbolName, subtypeOfCallable, kind, scalarBelow]
  | classString inner =>
      cases b with
      | named sup =>
          rw [show scalarBelow (.classString inner) (.named sup) = namesBelow "class-string" sup by
            cases inner <;> rw [scalarBelow]]
          rw [← isNamedSubtype_names hclass hb (by decide)]
          cases inner <;> simp [subtypeOfScalar, subtypeOfSymbolName, kind]
      | classString supInner =>
          cases inner with
          | none =>
              cases supInner with
              | none => exact absurd rfl hne
              | some =>
                  simp [subtypeOfScalar, subtypeOfSymbolName, subtypeOfCallable, kind, scalarBelow]
          | some =>
              cases supInner <;>
                simp [subtypeOfScalar, subtypeOfSymbolName, kind, scalarBelow]
      | _ =>
          cases hb <;> cases inner <;>
            simp [subtypeOfScalar, subtypeOfSymbolName, subtypeOfCallable, kind, scalarBelow]
  | interfaceString inner =>
      cases b with
      | named sup =>
          simp only [subtypeOfScalar, subtypeOfSymbolName, kind, Option.none_or, Option.some_or,
            Option.getD_some, scalarBelow]
          exact isNamedSubtype_names hinterface hb (by decide)
      | interfaceString supInner =>
          have hinner : inner ≠ supInner := by
            rintro rfl
            exact hne rfl
          simp [subtypeOfScalar, subtypeOfSymbolName, subtypeOfCallable, kind, scalarBelow, hinner]
      | _ =>
          cases hb <;>
            simp [subtypeOfScalar, subtypeOfSymbolName, subtypeOfCallable, kind, scalarBelow]
  | _ => cases ha

theorem scalarBelow_self (ha : ScalarType a) : scalarBelow a a = true := by
  cases ha with
  | keyword h => simp [scalarBelow, namesBelow, keywordBelow, h]
  | classReference h => simp [scalarBelow, namesBelow, keywordLower_of_class h]
  | literal => simp [scalarBelow]
  | intRange => simp [scalarBelow, intRangeIsSubrange]
  | @classString inner =>
      cases inner with
      | none => rfl
      | some t => simp [scalarBelow, isSubtypeOf_self]
  | interfaceString => simp [scalarBelow]

/-! ### `array-key` is an `int` or a `string` -/

theorem intOrString_eq : intOrString = .union [int, string] := by
  apply mkUnion_eq_union (by simp) (by decide) (by decide) (by decide)
    (by decide)
  unfold dedupUnionMembers
  rw [if_neg (by decide +kernel)]

theorem isSubtypeOf_intOrString (hb : ScalarType b) :
    isSubtypeOf intOrString b = (isSubtypeOf int b && isSubtypeOf string b) := by
  have hne : intOrString ≠ b := by
    rw [intOrString_eq]
    rintro rfl
    cases hb
  have hmixed := (not_mixed_never hb).1
  have hkey : isArrayKey (.union [int, string]) = false := by decide +kernel
  have hnever : isNever (.union [int, string]) = false := rfl
  rw [isSubtypeOf_eq]
  rw [intOrString_eq] at *
  cases hb <;>
    simp [subtypeBody, subtypeByNormalising, subtypeOfComposite, hne, hmixed, hkey, hnever,
      asTemplateParam, asEnumCase, kind]

theorem isSubtypeOf_arrayKey {name : Atom} (h : keywordLower name = "array-key")
    (hb : ScalarType b) (hne : PhpType.named name ≠ b) :
    isSubtypeOf (.named name) b = (isSubtypeOf int b && isSubtypeOf string b) := by
  have ha : ScalarType (.named name) := .keyword (h ▸ by decide)
  have hnever := (not_mixed_never ha).2
  have hmixed := (not_mixed_never hb).1
  have hkey : isArrayKey (.named name) = true := by
    rw [isArrayKey_named]
    unfold eqIgnoreAsciiCase
    rw [(asciiLower_of_keyword (h ▸ by decide)).1, h]
    decide
  rw [← isSubtypeOf_intOrString hb, isSubtypeOf_eq (.named name)]
  cases hb <;>
    simp [subtypeBody, subtypeByNormalising, hne, hmixed, hkey, hnever, asTemplateParam, kind]

/-- The rules, on scalar types. -/
theorem isSubtypeOf_scalar (ha : ScalarType a) (hb : ScalarType b) :
    isSubtypeOf a b = scalarBelow a b := by
  have hofNe : ∀ name ∈ ["int", "string"], isSubtypeOf (.named name) b =
      scalarBelow (.named name) b := by
    intro name hname
    have hkeyword : ∀ name ∈ ["int", "string"], name ∈ scalarKeywords ∧
        keywordLower name ≠ "array-key" := by decide
    have hscalar := scalarType_keyword (hkeyword name hname).1
    by_cases heq : PhpType.named name = b
    · rw [← heq, isSubtypeOf_self, scalarBelow_self hscalar]
    · apply isSubtypeOf_scalar_of_ne hscalar hb heq
      intro name' hname'
      rw [← PhpType.named.inj hname']
      exact (hkeyword name hname).2
  by_cases heq : a = b
  · rw [← heq, isSubtypeOf_self, scalarBelow_self ha]
  by_cases hkey : ∃ name, a = .named name ∧ keywordLower name = "array-key"
  · obtain ⟨name, rfl, hname⟩ := hkey
    have hmem : keywordLower name ∈ scalarKeywords := hname ▸ by decide
    rw [isSubtypeOf_arrayKey hname hb heq]
    show (isSubtypeOf (.named "int") b && isSubtypeOf (.named "string") b) = _
    rw [hofNe "int" (by simp), hofNe "string" (by simp)]
    cases b with
    | named sup => simp only [scalarBelow, namesBelow_arrayKey hname]
    | intRange min max =>
        simp only [scalarBelow, (asciiLower_of_keyword hmem).1, hname]
        rw [show refinedBounds (asciiLower "int") = none by decide,
          show refinedBounds "array-key" = none by decide]
        rfl
    | classString inner =>
        cases inner with
        | none => simp only [scalarBelow, namesBelow_arrayKey hname]
        | some => simp [scalarBelow]
    | _ => simp [scalarBelow]
  · apply isSubtypeOf_scalar_of_ne ha hb heq
    intro name hname hlower
    exact hkey ⟨name, hname, hlower⟩

end

end PhpantomLsp
